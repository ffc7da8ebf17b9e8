import FactGraph.Storage.Address
import FactGraph.Storage.DiskWork
import FactGraph.Storage.Table

/-!
# Opening of tables

A table is opened in steps. Its file is found or made; what earlier users have left beside it is
cleared away; the file is read; it gets a log, where there can be one; and the table is made in it,
if it is not there. Each step can fail, and what the steps before it have done to the disk stays.

A file that nobody changes is only read. A file whose changes are kept in a log can only be used
with its log. Every change without a log needs a companion from which it could be undone; it is
gone when the change is done.
-/

namespace FactGraph

/-- The file of a table that is opened. -/
structure TableFile where
  /-- The path of the table, as it was given. -/
  path : Text
  /-- What the path says. -/
  address : Address
  /-- The place of the file. -/
  place : Place

/-- How the changes of a table are kept while it is open. -/
inductive LogUse where
  /-- Without a log. -/
  | none
  /-- In a log. -/
  | running
  /-- In a log that can only be read. -/
  | fixed
deriving DecidableEq

namespace TableFile

/-- What stands beside the file. -/
def beside (f : TableFile) (c : Companion) : DiskWork (Option Item) :=
  DiskWork.item? (c.place f.place)

/-- Writes a companion of the file. -/
def writeBeside (f : TableFile) (c : Companion) (bytes : Text) : DiskWork Unit :=
  DiskWork.write (c.place f.place) bytes

/-- Takes away a companion of the file. -/
def removeBeside (f : TableFile) (c : Companion) : DiskWork Unit :=
  DiskWork.remove (c.place f.place)

/-- The bytes of the file. -/
def bytes (f : TableFile) : DiskWork Text := do
  match ← DiskWork.item? f.place with
  | some (.file bytes) => return bytes
  | _ => return []

/-- What the file holds. -/
def image (f : TableFile) : DiskWork TableImage := do
  match TableImage.read? (← f.bytes) with
  | some image => return image
  | none => throw (.table .setUp .foreign)

/-- The error that the file cannot be opened. -/
def unopened (path : Text) (fault : TableFault) : StoreError := .cannotOpen path fault.message

/-! ## Steps -/

/-- Finds the file, or makes it. -/
def claim (f : TableFile) : DiskWork Unit := do
  let d ← get
  if (f.address.parameter? "modeof").any fun model => !d.has model then
    throw (unopened f.path .unreadable)
  match (d.walk [] f.place).1 with
  | .file _ => return ()
  | .absent =>
    if f.address.needsFile then throw (unopened f.path .unopened)
    DiskWork.write f.place []
  | .directory =>
    throw (unopened f.path (if f.address.access == .reading then .unreadable else .unopened))
  | _ => throw (unopened f.path .unopened)

/-- Checks that no other user has marked the file. -/
def checkMark (f : TableFile) : DiskWork Unit := do
  if f.address.usesMark then
    if !Companion.lock.hasRoom f.place then throw (.table .setUp .unreadable)
    if (← f.beside .lock).isSome then throw (.table .setUp .locked)

/-- Whether the file has the mark of a user, who may be this one. -/
def isMarked (f : TableFile) : DiskWork Bool := do
  if f.address.usesMark then return true
  return f.address.isMarkable && (← f.beside .lock).isSome

/-- Clears away what it took to undo a change. It counts only where the file is not marked, and not
where it is empty; it belongs to another file where the file is blank; and a zero byte says that the
change was done. -/
def clearUndo (f : TableFile) (isBlank : Bool) : DiskWork Unit := do
  if ← f.isMarked then return ()
  match ← f.beside .undo with
  | some (.file (first :: _)) =>
    if isBlank then
      if f.address.isWritable || f.address.isUnguarded then f.removeBeside .undo
    else if first != 0 then
      if f.address.isWritable then f.removeBeside .undo else throw (.table .setUp .readOnly)
  | some (.directory _) => if !isBlank then throw (.table .setUp .unreadable)
  | _ => return ()

/-- The beginning of an index. -/
def indexMark : Text := [0x18, 0xE2, 0x2D, 0x00]

/-- The beginning of a log that is not empty. -/
def logMark : Text := [0x37, 0x7F, 0x06, 0x82]

/-- Starts to use the log of the file, with an index of its own unless that can only be read. -/
def startLog (f : TableFile) (step : TableStep) : DiskWork LogUse := do
  if (← f.beside .log).isNone then f.writeBeside .log []
  if !f.address.keepsIndex then return .running
  let isFixed := f.address.flag "readonly_shm"
  match ← f.beside .index with
  | some (.directory _) => return .fixed
  | some (.file _) => if isFixed then return .fixed
  | none => if isFixed then throw (.table step .unopened)
  f.writeBeside .index indexMark
  return .running

/-- Uses the log that earlier users have left, unless it belongs to another file. -/
def takeLog (f : TableFile) (isBlank : Bool) : DiskWork LogUse := do
  match ← f.beside .log with
  | none | some (.file []) => return .none
  | some (.file _) =>
    if isBlank then
      f.removeBeside .log
      return .none
    else if f.address.canLog then f.startLog .setUp
    else throw (.table .setUp .unopened)
  | some (.directory _) => throw (.table .setUp (if isBlank then .unreadable else .unopened))

/-- Starts the log of a file that says that there is one. -/
def followImage (f : TableFile) (step : TableStep) (image : TableImage) (log : LogUse) :
    DiskWork LogUse :=
  if log != .none || !image.isLogged then return log
  else if f.address.canLog then f.startLog step
  else throw (.table step .unopened)

/-- Whether a companion can be made from which a change could be undone. -/
def canUndo (f : TableFile) : DiskWork Bool := do
  if let some (.directory _) ← f.beside .undo then return false
  return Companion.undo.hasRoom f.place

/-- Makes a companion from which a change could be undone; it is gone when the change is done. -/
def prepareUndo (f : TableFile) (step : TableStep) : DiskWork Unit := do
  if ← f.canUndo then f.removeBeside .undo else throw (.table step .unopened)

/-- Makes the file say that it has a log, where there can be one and none is in use yet. -/
def convert (f : TableFile) (image : TableImage) (log : LogUse) : DiskWork TableImage := do
  if log != .none || !f.address.canLog then return image
  if !f.address.isWritable then throw (.table .setUp .readOnly)
  f.prepareUndo .setUp
  let image := { image with isLogged := true }
  DiskWork.write f.place image.bytes
  return image

/-- Makes the table in the file, if it is not there, and answers with its rows. -/
def make (f : TableFile) (image : TableImage) (log : LogUse) : DiskWork Cells := do
  match image.cells with
  | some cells => return cells
  | none =>
    if !f.address.isWritable || log == .fixed then throw (.table .make .readOnly)
    if log == .none then f.prepareUndo .make else f.writeBeside .log logMark
    DiskWork.write f.place { image with cells := some .empty }.bytes
    return .empty

/-! ## All steps -/

/-- Why rows cannot be changed, if they cannot. -/
def fault? (f : TableFile) (log : LogUse) : DiskWork (Option TableFault) := do
  if !f.address.isWritable || log == .fixed then return some .readOnly
  if log == .none && !(← f.canUndo) then return some .unopened
  return none

/-- What goes when the table is closed: the log and its index, if their end can be written. -/
def companions (f : TableFile) (log : LogUse) : List Companion :=
  if log != .running || !f.address.isWritable then []
  else if f.address.keepsIndex then [.log, .index]
  else [.log]

/-- Opens a file that nobody changes. -/
def openImmutable (f : TableFile) : DiskWork Table := do
  let image ← f.image
  return {
    path := f.path
    place := some f.place
    cells := ← f.make image .none
    isLogged := image.isLogged
    fault := some .readOnly }

/-- Opens a file that others may use. -/
def openShared (f : TableFile) : DiskWork Table := do
  f.checkMark
  let isBlank := TableImage.isBlank (← f.bytes)
  f.clearUndo isBlank
  let log ← f.takeLog isBlank
  let image ← f.image
  let log ← f.followImage .setUp image log
  let image ← f.convert image log
  let log ← f.followImage .make image log
  return {
    path := f.path
    place := some f.place
    cells := ← f.make image log
    isLogged := image.isLogged
    fault := ← f.fault? log
    hasFixedLog := log == .fixed
    companions := f.companions log }

/-- Opens the table in a file. -/
def opened (f : TableFile) : DiskWork Table := do
  f.claim
  if f.address.isImmutable then f.openImmutable else f.openShared

end TableFile

namespace Table

/-- A table without a file. -/
def volatile (path : Text) (a : Address) : Except StoreError Table :=
  if !a.isShort then .error (TableFile.unopened path .unopened)
  else if !a.isWritable then .error (.table .make .readOnly)
  else .ok { path }

/-- Opens the table at a path or an address. -/
def opened (path : Text) : DiskWork Table := do
  match Address.parse path.untilNul with
  | .error reason => throw (.cannotOpen path reason)
  | .ok address =>
    if address.isVolatile then ofExcept (volatile path address)
    else match (← get).simplified? address.path with
      | none => throw (TableFile.unopened path .unopened)
      | some place => TableFile.opened { path, address, place }

/-- Leaves a disk as it is when the table is closed: the file holds the rows, and what stood beside
it as long as the table was open is gone. -/
def leave (t : Table) (d : Disk) : Disk :=
  match t.place with
  | none => d
  | some place =>
    let d := if t.fault.isNone then d.put place (.file t.fileBytes) else d
    t.companions.foldl (fun d c => d.remove (c.place place)) d

end Table
end FactGraph
