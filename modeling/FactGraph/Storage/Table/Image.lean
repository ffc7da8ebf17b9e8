import FactGraph.Storage.Cells
import FactGraph.Word

/-!
# The file of a table

The file of a table is written as a whole: a mark, which also tells whether changes are kept in a
log, a byte that tells whether the table was made, and for every row, as they came, its digest, the
length of its text and the text.
-/

namespace FactGraph

/-- What the file of a table holds. -/
structure TableImage where
  /-- Whether changes are kept in a log. -/
  isLogged : Bool := false
  /-- The rows, if the table was made. -/
  cells : Option Cells := none
deriving DecidableEq

namespace TableImage

/-- The mark at the beginning of the file: the name of the format, and how its pages are laid out
and changed. -/
def mark (isLogged : Bool) : Text :=
  let way : UInt8 := if isLogged then 2 else 1
  "SQLite format 3\x00\x10\x00" ++ way :: way :: "\x00\x40\x20\x20"

/-- The bytes of a row. -/
def rowBytes (row : Digest × Text) : Text :=
  row.1.bytes ++ Word.bigEndian 4 row.2.length ++ row.2

/-- The bytes of the file. -/
def bytes (i : TableImage) : Text :=
  mark i.isLogged ++ match i.cells with
    | none => [0]
    | some cells => 1 :: cells.items.reverse.flatMap rowBytes

/-- The rows that bytes stand for, up to a number, put into cells one by one. -/
def readRows : Nat → Cells → Text → Option Cells
  | 0, c, bytes => if bytes.isEmpty then some c else none
  | count + 1, c, bytes =>
    if bytes.isEmpty then some c
    else do
      let id ← Digest.ofBytes? (bytes.take 32)
      let length := Word.ofBigEndian ((bytes.drop 32).take 4)
      let rest := bytes.drop 36
      let text := rest.take length
      if text.length < length then none
      else readRows count (c.renew id text) (rest.drop length)

/-- Whether a file is taken for empty: whether it has less than two bytes. -/
def isBlank : Text → Bool
  | [] | [_] => true
  | _ => false

/-- What a file holds that has a mark, behind its mark. -/
def readMarked? (isLogged : Bool) : Text → Option TableImage
  | [] => none
  | made :: rows =>
    if made == 0 then some { isLogged }
    else (readRows rows.length .empty rows).map fun cells => { isLogged, cells := some cells }

/-- What a file holds with the given bytes. -/
def read? (bytes : Text) : Option TableImage :=
  if isBlank bytes then some {}
  else [false, true].findSome? fun isLogged =>
    if (mark isLogged).isPrefixOf bytes then
      readMarked? isLogged (bytes.drop (mark isLogged).length)
    else none

end TableImage
end FactGraph
