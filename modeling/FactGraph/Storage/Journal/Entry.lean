import FactGraph.Checksum
import FactGraph.Digest
import FactGraph.Word

/-!
# Entries of a journal

An entry records one change: a header of 32 bytes, the digest of the cell that changes and, where a
text is put, the text. The header holds a mark, the length of the entry, its number, the time of the
change, the operation, the version of the format and the checksum of what follows the header.
Numbers are written with the least significant byte first.

`Entry.read?` takes the first entry from bytes, and `Entry.readAll` as many as there are.
-/

namespace FactGraph.Journal

/-- A change to a cell. -/
structure Entry where
  /-- The number of the entry. -/
  sequence : UInt64
  /-- The time of the change in milliseconds. -/
  time : UInt64
  /-- The operation. -/
  operation : UInt8
  /-- The digest of the cell. -/
  id : Digest
  /-- The text that is put. -/
  payload : Text
deriving DecidableEq

namespace Entry

/-- The mark at the beginning of an entry. -/
abbrev mark : Nat := 0x4E594C47

/-- The version of the format. -/
abbrev version : UInt8 := 1

/-- The operation that puts a text. -/
abbrev putOperation : UInt8 := 1

/-- The operation that takes a cell away. -/
abbrev eraseOperation : UInt8 := 2

/-- The length of a header. -/
abbrev headerLength : Nat := 32

/-! ## Writing -/

/-- What follows the header of an entry. -/
def body (e : Entry) : Text := e.id.bytes ++ e.payload

/-- The header of an entry. -/
def header (e : Entry) : Text :=
  Word.littleEndian 4 mark ++ Word.littleEndian 4 (headerLength + e.body.length) ++
    Word.littleEndian 8 e.sequence.toNat ++ Word.littleEndian 8 e.time.toNat ++
    [e.operation, version, 0, 0] ++ Word.littleEndian 4 (Checksum.crc32 e.body).toNat

/-- The bytes of an entry. -/
def bytes (e : Entry) : Text := e.header ++ e.body

/-! ## Reading -/

/-- The number in the header of bytes that begins at a position. -/
def numberAt (bytes : Text) (position width : Nat) : Nat :=
  Word.ofLittleEndian ((bytes.drop position).take width)

/-- The length that the header of bytes gives, if an entry of that length can stand there. -/
def length? (bytes : Text) : Option Nat :=
  let header := bytes.take headerLength
  let length := numberAt header 4 4
  if header.length < headerLength then none
  else if numberAt header 0 4 != mark then none
  else if length < headerLength + 32 then none
  else if bytes.length < length then none
  else some length

/-- The first entry of bytes and what follows it. There is none unless the mark, the length and the
checksum are right; the version and the bytes behind it do not matter. -/
def read? (bytes : Text) : Option (Entry × Text) := do
  let length ← length? bytes
  let header := bytes.take headerLength
  let body := (bytes.drop headerLength).take (length - headerLength)
  let id ← Digest.ofBytes? (body.take 32)
  if (Checksum.crc32 body).toNat != numberAt header 28 4 then none
  else
    let entry : Entry :=
      { sequence := UInt64.ofNat (numberAt header 8 8), time := UInt64.ofNat (numberAt header 16 8),
        operation := UInt8.ofNat (numberAt header 24 1), id, payload := body.drop 32 }
    return (entry, bytes.drop length)

/-- The entries at the beginning of bytes, as many as there are up to a number, and what follows
them. -/
def readUpTo : Nat → Text → List Entry × Text
  | 0, bytes => ([], bytes)
  | count + 1, bytes =>
    match read? bytes with
    | none => ([], bytes)
    | some (e, rest) =>
      let (entries, rest) := readUpTo count rest
      (e :: entries, rest)

/-- The entries at the beginning of bytes, as many as there are, and what follows them. As an entry
has bytes, there are no more entries than bytes. -/
def readAll (bytes : Text) : List Entry × Text := readUpTo bytes.length bytes

end Entry
end FactGraph.Journal
