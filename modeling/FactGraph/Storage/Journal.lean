import FactGraph.Storage.Cells
import FactGraph.Storage.Journal.Entry
import FactGraph.Storage.Location
import FactGraph.StoreError

/-!
# Storage in a journal

The file of a journal is a row of entries, one for every change; the cells are what the entries
leave when they are applied one after the other. A change is written behind the others and never
alters them. Opening a journal applies the entries at the beginning of its file and cuts off what
follows them, so that a write that was cut short costs that write and nothing else. Compaction
replaces the entries by one for each cell.
-/

namespace FactGraph

/-- A storage that keeps its cells in a file of changes. -/
structure Journal where
  /-- The path of the file, as it was given. -/
  path : Text
  /-- The parts in which the file was written, the latest first. -/
  parts : List Text := []
  /-- The cells. -/
  cells : Cells := .empty
  /-- The highest number of an entry. -/
  sequence : UInt64 := 0
  /-- The time that is written into new entries. -/
  time : UInt64 := 0
  /-- Whether the storage can be used. -/
  isOpen : Bool := true
deriving DecidableEq

namespace Journal

/-- The bytes of the file. -/
def device (j : Journal) : Text := j.parts.reverse.flatten

/-- What an entry does to cells. Operations that are not known do nothing. -/
def Entry.apply (c : Cells) (e : Entry) : Cells :=
  if e.operation == Entry.putOperation then c.put e.id e.payload
  else if e.operation == Entry.eraseOperation then c.erase e.id
  else c

/-! ## Opening -/

/-- The journal of a file with the given bytes. What follows the entries at the beginning is cut
off. -/
def replay (path : Text) (time : UInt64) (bytes : Text) : Journal :=
  let (entries, rest) := Entry.readAll bytes
  { path, time
    parts := [bytes.take (bytes.length - rest.length)]
    cells := entries.foldl Entry.apply .empty
    sequence := entries.foldl (fun n e => max n e.sequence) 0 }

/-- Opens the journal at a path. -/
def opened (path : Text) (time : UInt64) (location : Location) : Except StoreError Journal :=
  match location.fileBytes with
  | .ok bytes => .ok (replay path time bytes)
  | .error reason => .error (.cannotOpen path reason)

/-! ## Changes -/

/-- The entry of the next change. -/
def nextEntry (j : Journal) (operation : UInt8) (id : Digest) (payload : Text) : Entry :=
  { sequence := j.sequence + 1, time := j.time, operation, id, payload }

/-- Writes an entry behind the others. -/
def append (j : Journal) (e : Entry) : Journal :=
  { j with parts := e.bytes :: j.parts, sequence := e.sequence, cells := e.apply j.cells }

/-- A change is written behind the others. -/
@[simp] theorem device_append (j : Journal) (e : Entry) :
    (j.append e).device = j.device ++ e.bytes := by
  simp [append, device]

/-- Gives a text to a digest. -/
def put (j : Journal) (id : Digest) (t : Text) : Journal :=
  j.append (j.nextEntry Entry.putOperation id t)

/-- Takes away the cell of a digest; a digest without a cell is not written down. -/
def erase (j : Journal) (id : Digest) : Journal :=
  if j.cells.has id then j.append (j.nextEntry Entry.eraseOperation id []) else j

/-- The length of the file. -/
def size (j : Journal) : Nat := j.device.length

/-- The journal after its end: the file stays. -/
def close (j : Journal) : Journal := { j with cells := .empty, isOpen := false }

/-! ## Compaction -/

/-- One entry for each cell, numbered from one. -/
def snapshot (j : Journal) : List Entry :=
  j.cells.items.zipIdx.map fun ((id, payload), i) =>
    { sequence := UInt64.ofNat (i + 1), time := j.time, operation := Entry.putOperation
      id, payload }

/-- Replaces the entries by one for each cell, and tells how many bytes the file lost. -/
def compact (j : Journal) : Journal × Nat :=
  let entries := j.snapshot
  let device := entries.flatMap Entry.bytes
  ({ j with parts := [device], sequence := UInt64.ofNat entries.length },
    j.device.length - device.length)

end Journal
end FactGraph
