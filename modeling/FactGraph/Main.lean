import FactGraph.Cli

/-!
# The program

Reads the files that a run may need, runs it, and writes what it prints and the files that it
leaves.
-/

namespace FactGraph

/-- The string of a text. Bytes that are no UTF-8 are left out of the names of files. -/
def Text.toFileName (t : Text) : String :=
  (String.fromUTF8? t.toByteArray).getD ""

/-- The places on the way from the beginning of a path to its end. -/
def Disk.stations (d : Disk) (path : Text) : List Place :=
  let step (place : Place) (name : Text) : Place :=
    if name == "." then place
    else if name == ".." then place.dropLast
    else place ++ [name]
  let names := Disk.names path
  (List.range names.length).map fun i => (names.take (i + 1)).foldl step (d.origin path)

/-- The name of the file at a place. -/
def Place.toFileName (place : Place) : String :=
  Text.toFileName (place.flatMap fun name => Disk.slash :: name)

/-- The places on the way to a file, and those of what can stand beside it. -/
def Disk.stationsBeside (d : Disk) (path : Text) : List Place :=
  let places := d.stations path
  places ++ places.getLast?.elim [] fun file =>
    [Companion.undo, .log, .index, .lock].map fun c => c.place file

/-- A disk with the directory in which the program runs. -/
def currentDisk : IO Disk := do
  return { here := Disk.names (Text.ofString (← IO.currentDir).toString) }

/-- Reads what stands at places. -/
def readDisk (empty : Disk) (places : List Place) : IO Disk := do
  let base ← IO.currentDir
  let mut disk := empty
  for place in places do
    if (disk.item? place).isNone then
      let file := base / place.toFileName
      if ← file.isDir then disk := disk.put place (.directory [])
      else if ← file.pathExists then
        disk := disk.put place (.file (← IO.FS.readBinFile file).toList)
  return disk

/-- Writes what has changed at places. A file that has only grown is appended to. -/
def writeDisk (places : List Place) (before after : Disk) : IO Unit := do
  let base ← IO.currentDir
  for place in places do
    let file := base / place.toFileName
    match before.item? place, after.item? place with
    | none, some (.directory _) => IO.FS.createDirAll file
    | some (.file old), some (.file new) =>
      if old == new then pure ()
      else if old.isPrefixOf new then
        let handle ← IO.FS.Handle.mk file .append
        handle.write (new.drop old.length).toByteArray
      else IO.FS.writeBinFile file new.toByteArray
    | _, some (.file new) => IO.FS.writeBinFile file new.toByteArray
    | some (.file _), none => IO.FS.removeFile file
    | _, _ => pure ()

/-- The paths of the files in which a store may be kept: the path that is given for it, and the one
that this path stands for if it is an address. -/
def storePaths (path : Text) : List Text :=
  match Address.parse path with
  | .ok address => [path, address.path]
  | .error _ => [path]

/-- The paths that an address looks at only. -/
def modelPaths (path : Text) : List Text :=
  match Address.parse path with
  | .ok address => (address.parameter? "modeof").toList
  | .error _ => []

/-- Runs the program on the files of the machine. -/
def runProgram (args : List Text) : IO UInt32 := do
  let environment : Cli.Environment := {
    program := (← IO.appPath).toString
    home := (← IO.getEnv "HOME").map Text.ofString
    time := UInt64.ofNat (← IO.monoMsNow)
    seed := (← IO.getRandomBytes 16).toList }
  let disk ← currentDisk
  let (stores, others) : List Text × List Text := match Cli.Options.read {} args with
    | .ok o =>
      let path := o.path.getD (Cli.defaultPath environment)
      (storePaths path, modelPaths path ++ [o.argument, o.config])
    | .error _ => ([], [])
  let changed := (stores.flatMap disk.stationsBeside).eraseDups
  let before ← readDisk disk (changed ++ others.flatMap disk.stations)
  let (after, output) := Cli.run environment args before
  writeDisk changed before after
  (← IO.getStdout).write output.out.toByteArray
  (← IO.getStderr).write output.err.toByteArray
  return UInt32.ofNat output.status

end FactGraph

/-- The entry of the program. -/
def main (args : List String) : IO UInt32 :=
  FactGraph.runProgram (args.map FactGraph.Text.ofString)
