import FactGraph.Storage
import FactGraph.Storage.Table.Opening

/-!
# Kinds of storage

A storage is opened by its kind and its path on a disk, and leaves what it keeps on the disk when it
is closed. Opening changes the disk, even where it fails. A journal is found by following its path,
and a table by the names in its path alone.
-/

namespace FactGraph

/-- The kinds of storage. -/
inductive StorageKind where
  | memory
  | table
  | journal
deriving DecidableEq

/-- The kind of storage that a word means. -/
def StorageKind.parse? (t : Text) : Option StorageKind :=
  if t == "memory" then some .memory
  else if t == "sqlite" then some .table
  else if t == "log" then some .journal
  else none

namespace Journal

/-- Leaves a disk with the file of a journal. -/
def leave (j : Journal) (d : Disk) : Disk := d.write j.path.untilNul j.device

/-- Opens the journal at a path on a disk, at a time. -/
def openedOnDisk (path : Text) (time : UInt64) : DiskWork Journal := do
  let j ← ofExcept (opened path time ((← get).locate path.untilNul))
  modify j.leave
  return j

end Journal

namespace Storage

/-- Opens the storage of a kind at a path, at a time. -/
def opened (kind : StorageKind) (path : Text) (time : UInt64) : DiskWork Storage := do
  match kind with
  | .memory => return memory {}
  | .table => return table (← Table.opened path)
  | .journal => return journal (← Journal.openedOnDisk path time)

/-- Leaves a disk as it is when a storage is closed. -/
def leave (s : Storage) (d : Disk) : Disk :=
  match s with
  | memory _ => d
  | journal j => j.leave d
  | table t => t.leave d

end Storage
end FactGraph
