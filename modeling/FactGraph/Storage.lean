import FactGraph.Encoding.Decode
import FactGraph.Storage.Journal
import FactGraph.Storage.Memory
import FactGraph.Storage.Table

/-!
# Storages

A storage keeps the bytes of facts by digest, in memory, in a journal or in a table. Whatever it is
made of, it is seen through its cells: the looking up and listing of facts is defined on the cells
alone, and the kinds of storage differ only in what a change and the end do to them. A closed
storage refuses everything but to be closed again.
-/

namespace FactGraph

/-- Where facts are kept. -/
inductive Storage where
  /-- In memory. -/
  | memory (m : Memory)
  /-- In a file of changes. -/
  | journal (j : Journal)
  /-- In a table. -/
  | table (t : Table)
deriving DecidableEq

namespace Storage

/-- The word for a kind of storage. -/
def name : Storage → Text
  | memory _ => "memory"
  | journal _ => "log"
  | table _ => "sqlite"

/-- Whether the storage can be used. -/
def isOpen : Storage → Bool
  | memory m => m.isOpen
  | journal j => j.isOpen
  | table t => t.isOpen

/-- The cells of a storage. -/
def cells : Storage → Cells
  | memory m => m.cells
  | journal j => j.cells
  | table t => t.cells

/-- What is said about a closed storage. -/
def closedText : Storage → Text
  | memory _ => "memory backend is closed"
  | journal j => "log backend is closed: " ++ j.path
  | table t => "sqlite backend is closed: " ++ t.path

/-- Refuses a storage that is closed. -/
def check (s : Storage) : Except StoreError Unit :=
  if s.isOpen then .ok () else .error (.closed s.closedText)

/-- Refuses to give bytes to a digest where cells cannot be changed. -/
def checkPut : Storage → Except StoreError Unit
  | table t => t.checkPut
  | _ => .ok ()

/-- Refuses to take a cell away where cells cannot be changed. -/
def checkErase (id : Digest) : Storage → Except StoreError Unit
  | table t => t.checkErase id
  | _ => .ok ()

/-! ## Reading -/

/-- The fact of a digest. -/
def get (s : Storage) (id : Digest) : Except StoreError (Option Fact) := do
  s.check
  match s.cells.get? id with
  | none => return none
  | some bytes => some <$> Encoding.decode bytes

/-- Whether a digest has a cell. -/
def has (s : Storage) (id : Digest) : Except StoreError Bool := do
  s.check
  return s.cells.has id

/-- The texts of all cells. Rows of a table are listed as they were written, and other cells by
group. -/
def texts : Storage → List Text
  | table t => t.cells.texts.reverse
  | s => s.cells.texts

/-- The facts of all cells; bytes that are no fact are passed over. -/
def facts (s : Storage) : Except StoreError (List Fact) := do
  s.check
  return s.texts.filterMap fun bytes => (Encoding.decode bytes).toOption

/-- The number of cells. -/
def count (s : Storage) : Except StoreError Nat := do
  s.check
  return s.cells.size

/-- The number of bytes that the storage takes. -/
def size (s : Storage) : Except StoreError Nat := do
  s.check
  return match s with
    | memory m => m.size
    | journal j => j.size
    | table t => t.size

/-! ## Changes -/

/-- Gives bytes to a digest. -/
def putBytes (id : Digest) (bytes : Text) : Storage → Storage
  | memory m => memory (m.put id bytes)
  | journal j => journal (j.put id bytes)
  | table t => table (t.put id bytes)

/-- Takes away the cell of a digest. -/
def eraseBytes (id : Digest) : Storage → Storage
  | memory m => memory (m.erase id)
  | journal j => journal (j.erase id)
  | table t => table (t.erase id)

/-- Gives a fact to a digest, which need not be its own. -/
def put (s : Storage) (id : Digest) (f : Fact) : Except StoreError Storage := do
  let bytes ← Encoding.encode f
  s.check
  s.checkPut
  return s.putBytes id bytes

/-- Takes away the cell of a digest, and tells whether it had one. -/
def erase (s : Storage) (id : Digest) : Except StoreError (Storage × Bool) := do
  s.check
  s.checkErase id
  return (s.eraseBytes id, s.cells.has id)

/-- Makes sure that all changes are kept; they are at any time. A table may refuse, because nothing
can be done with its log. -/
def flush (s : Storage) : Except StoreError Unit := do
  s.check
  match s with
  | table t => t.flush
  | _ => return ()

/-- The storage after its end. -/
def close : Storage → Storage
  | memory m => memory m.close
  | journal j => journal j.close
  | table t => table t.close

end Storage
end FactGraph
