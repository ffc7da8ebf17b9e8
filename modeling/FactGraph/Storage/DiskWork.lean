import FactGraph.Disk
import FactGraph.StoreError

/-!
# Work on disks

Work on a disk changes it step by step, until it is done or a step fails. What was done before a
failure stays done.
-/

namespace FactGraph

/-- Work on a disk that may fail. -/
abbrev DiskWork := ExceptT StoreError (StateM Disk)

namespace DiskWork

/-- Does work on a disk, and answers with the disk that it leaves and with what came of it. -/
def on {α : Type} (work : DiskWork α) (d : Disk) : Disk × Except StoreError α :=
  let (r, d) := (ExceptT.run work).run d
  (d, r)

/-- What stands at a place. -/
def item? (place : Place) : DiskWork (Option Item) := do return (← get).item? place

/-- Writes the file at a place. -/
def write (place : Place) (bytes : Text) : DiskWork Unit :=
  modify fun d => d.put place (.file bytes)

/-- Takes away what stands at a place. -/
def remove (place : Place) : DiskWork Unit := modify fun d => d.remove place

end DiskWork
end FactGraph
