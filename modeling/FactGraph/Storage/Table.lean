import FactGraph.Storage.Location
import FactGraph.Storage.Table.Companion
import FactGraph.Storage.Table.Image
import FactGraph.StoreError

/-!
# Storage in a table

The rows of a table are cells that live in a file, the row that was written last in front. There are
tables without a file, which last as long as they are open, and tables that can only be read.
-/

namespace FactGraph

/-- A storage that keeps its cells as the rows of a table. -/
structure Table where
  /-- The path of the table, as it was given. -/
  path : Text
  /-- The place of its file, if it has one. -/
  place : Option Place := none
  /-- The rows. -/
  cells : Cells := .empty
  /-- Whether the file says that changes are kept in a log. -/
  isLogged : Bool := false
  /-- Why the rows cannot be changed, if they cannot. -/
  fault : Option TableFault := none
  /-- Whether there is a log that can only be read. -/
  hasFixedLog : Bool := false
  /-- What stands beside the file at most as long as the table is open. -/
  companions : List Companion := []
  /-- Whether the storage can be used. -/
  isOpen : Bool := true
deriving DecidableEq

namespace Table

/-- The bytes of the file. -/
def fileBytes (t : Table) : Text :=
  TableImage.bytes { isLogged := t.isLogged, cells := some t.cells }

/-- Refuses to write a row where rows cannot be changed. -/
def checkPut (t : Table) : Except StoreError Unit :=
  match t.fault with
  | none => .ok ()
  | some fault => .error (.table .put fault)

/-- Refuses to take a row away where rows cannot be changed. A table that can only be read refuses
it whether or not there is such a row. -/
def checkErase (t : Table) (id : Digest) : Except StoreError Unit :=
  match t.fault with
  | none => .ok ()
  | some fault =>
    if fault == .readOnly || t.cells.has id then .error (.table .remove fault) else .ok ()

/-- Refuses to bring a log into the file that can only be read. -/
def flush (t : Table) : Except StoreError Unit :=
  if t.hasFixedLog then .error (.table .flush .readOnly) else .ok ()

/-- The table with other rows. Without a log, nothing that could undo the change is left beside the
file. -/
def change (t : Table) (cells : Cells) : Table :=
  { t with cells, companions := if t.companions.contains .log then t.companions else [.undo] }

/-- Gives a text to a digest in a new row; the row that it had goes. -/
def put (t : Table) (id : Digest) (text : Text) : Table := t.change (t.cells.renew id text)

/-- Takes away the row of a digest, if it has one. -/
def erase (t : Table) (id : Digest) : Table :=
  if t.cells.has id then t.change (t.cells.erase id) else t

/-- The length of the file. -/
def size (t : Table) : Nat := t.fileBytes.length

/-- The table after its end: the rows stay in the file. -/
def close (t : Table) : Table := { t with isOpen := false }

end Table
end FactGraph
