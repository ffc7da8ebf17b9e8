import FactGraph.Attempt
import FactGraph.Storage.Location

/-!
# Disks

A disk holds files and directories. A path is walked name by name; a point stays where it is and two
points go back. Paths that begin with a slash are walked from the root of the disk and all others
from the directory in which the program runs.

`walk` follows a path through the directories that there are, `simplify` shortens it by its names
alone, and `makeDirectories` makes the directories that are missing.
-/

namespace FactGraph

/-- What stands at a place of a disk. -/
inductive Item where
  /-- A file with its bytes. -/
  | file (bytes : Text)
  /-- A directory with what stands in it, by name. -/
  | directory (entries : List (Text × Item))

namespace Item

/-- What stands below an item at the end of a row of names. -/
def at? : Item → Place → Option Item
  | item, [] => some item
  | file _, _ :: _ => none
  | directory entries, name :: rest => (entries.lookup name).bind fun item => item.at? rest

/-- Puts an item below another one at the end of a row of names, with the directories on the way.
Nothing can be put below a file. -/
def put (new : Item) : Place → Item → Item
  | [], _ => new
  | _ :: _, file bytes => file bytes
  | name :: rest, directory entries =>
    directory ((name, put new rest ((entries.lookup name).getD (directory []))) ::
      entries.filter fun e => e.1 != name)

/-- Takes away what stands below an item at the end of a row of names. -/
def remove : Place → Item → Item
  | _ :: _, file bytes => file bytes
  | [name], directory entries => directory (entries.filter fun e => e.1 != name)
  | name :: rest, directory entries =>
    match entries.lookup name with
    | none => directory entries
    | some item =>
      directory ((name, remove rest item) :: entries.filter fun e => e.1 != name)
  | [], item => item

end Item

/-- Files and directories. -/
structure Disk where
  /-- The place of the directory in which the program runs. By default it stands in `/tmp` under a
  name that is made of slashes, so that no path can spell it. -/
  here : Place := ["tmp", List.replicate 19 '/'.toUInt8]
  /-- What stands at the root. -/
  root : Item := .put (.directory []) here (.directory [])

namespace Disk

/-- The longest path. -/
def pathLimit : Nat := 4095

/-- What stands at a place. -/
def item? (d : Disk) (place : Place) : Option Item := d.root.at? place

/-- Puts an item at a place. -/
def put (d : Disk) (place : Place) (item : Item) : Disk := { d with root := item.put place d.root }

/-- Takes away what stands at a place. -/
def remove (d : Disk) (place : Place) : Disk := { d with root := d.root.remove place }

/-! ## Paths -/

/-- The byte between the names of a path. -/
def slash : UInt8 := '/'.toUInt8

/-- The place where the walk of a path begins. -/
def origin (d : Disk) (path : Text) : Place := if path.head? == some slash then [] else d.here

/-- The names of a path. -/
def names (path : Text) : List Text := (Text.splitAt slash path).filter fun n => !n.isEmpty

/-- Whether a path has a slash at its end, and so can only name a directory. -/
def isClosed (path : Text) : Bool := path.getLast? == some slash

/-- Whether a name is one or two points, which stand for no item of their own. -/
def isPoints (name : Text) : Bool := name == "." || name == ".."

/-- Walks names from a place, and answers with what stands at the end and where that is. -/
def walk (d : Disk) (place : Place) : List Text → Location × Place
  | [] => (.directory, place)
  | name :: rest =>
    if name == "." then walk d place rest
    else if name == ".." then walk d place.dropLast rest
    else if nameLimit < name.length then (.overlong, place)
    else
      let place := place ++ [name]
      match d.item? place, rest with
      | some (.directory _), rest => walk d place rest
      | some (.file bytes), [] => (.file bytes, place)
      | some (.file _), _ :: _ => (.blockedParent, place)
      | none, [] => (.absent, place)
      | none, _ :: _ => (.missingParent, place)

/-- Walks a path. The empty path leads nowhere, and so does one over the limit. -/
def follow (d : Disk) (path : Text) : Location × Place :=
  if path.isEmpty then (.missingParent, [])
  else if pathLimit < path.length then (.overlong, [])
  else d.walk (d.origin path) (names path)

/-- What stands at a path when a file is to be opened there or made. -/
def locate (d : Disk) (path : Text) : Location :=
  match d.follow path with
  | (.absent, _) => if isClosed path then .directory else .absent
  | (.file bytes, _) => if isClosed path then .directory else .file bytes
  | (other, _) => other

/-- What stands at a path. -/
def status (d : Disk) (path : Text) : Location :=
  match d.follow path with
  | (.file bytes, _) => if isClosed path then .blockedParent else .file bytes
  | (other, _) => other

/-- Whether a path leads to a file or a directory. -/
def has (d : Disk) (path : Text) : Bool :=
  match d.status path with
  | .file _ | .directory => true
  | _ => false

/-- The bytes that are read at a path: those of a file, and none from a directory. -/
def read? (d : Disk) (path : Text) : Option Text :=
  match d.status path with
  | .file bytes => some bytes
  | .directory => some []
  | _ => none

/-- Writes the file at a path, if there can be one. -/
def write (d : Disk) (path bytes : Text) : Disk :=
  match d.follow path with
  | (.absent, place) | (.file _, place) => d.put place (.file bytes)
  | _ => d

/-! ## Simplified paths -/

/-- The number of bytes in the path to a place. -/
def extent (place : Place) : Nat := place.foldr (fun name n => name.length + 1 + n) 0

/-- The greatest extent of a path while it is simplified. -/
def extentLimit : Nat := 511

/-- The greatest extent of a simplified path; what is left serves the names of other files that are
made from it. -/
def finalExtentLimit : Nat := 504

/-- Takes names back where two points follow them, whether or not they exist, and answers with the
place that is left. There is none if the names lead through a file, are too long on the way or at
the end, or lead to the root. -/
def simplify (d : Disk) (place : Place) : List Text → Option Place
  | [] => if place.isEmpty || finalExtentLimit < extent place then none else some place
  | name :: rest =>
    if name == "." then simplify d place rest
    else if name == ".." then simplify d place.dropLast rest
    else
      let place := place ++ [name]
      if extentLimit < extent place then none
      else match (d.walk [] place).1 with
        | .blockedParent | .overlong => none
        | _ => simplify d place rest

/-- The place to which a path leads by its names alone. -/
def simplified? (d : Disk) (path : Text) : Option Place := d.simplify (d.origin path) (names path)

/-! ## Directories -/

/-- How many directories are made at once at most. -/
def makeLimit : Nat := 1000

/-- How many names stand for items of their own. -/
def properCount (names : List Text) : Nat := names.countP fun n => !isPoints n

/-- Makes the directories that are missing on a walk from a place. What stands in the way is the
failure. -/
def makeWalk (d : Disk) (place : Place) : List Text → Attempt Text Disk
  | [] => (d, none)
  | name :: rest =>
    if name == "." then makeWalk d place rest
    else if name == ".." then makeWalk d place.dropLast rest
    else if nameLimit < name.length then (d, some "File name too long")
    else
      let place := place ++ [name]
      match d.item? place with
      | some (.directory _) => makeWalk d place rest
      | some (.file _) => (d, some "File exists")
      | none => makeWalk (d.put place (.directory [])) place rest

/-- Makes directories from the first name on that is missing. -/
def makeFrom (d : Disk) (place : Place) (names : List Text) : Attempt Text Disk :=
  if makeLimit < properCount names then (d, some "File name too long") else d.makeWalk place names

/-- Walks names from a place to the first directory that is missing, and makes directories from
there on. A file is in the way, and is found to be there by making it where a slash follows it. -/
def makeBehind (d : Disk) (closed : Bool) (place : Place) : List Text → Attempt Text Disk
  | [] => (d, none)
  | name :: rest =>
    if name == "." then makeBehind d closed place rest
    else if name == ".." then makeBehind d closed place.dropLast rest
    else if nameLimit < name.length then (d, some "File name too long")
    else
      match d.item? (place ++ [name]), rest with
      | some (.directory _), rest => makeBehind d closed (place ++ [name]) rest
      | some (.file _), [] =>
        if closed then d.makeFrom place [name] else (d, some "Not a directory")
      | some (.file _), _ :: _ =>
        (d, some (if makeLimit < properCount rest then "File name too long" else "Not a directory"))
      | none, rest => d.makeFrom place (name :: rest)

/-- Makes the directories of a path that are missing. -/
def makeDirectories (d : Disk) (path : Text) : Attempt Text Disk :=
  if pathLimit < path.length then (d, some "File name too long")
  else d.makeBehind (isClosed path) (d.origin path) (names path)

/-- The directory in which the last name of a path stands, if the path names one. -/
def directoryOf? (path : Text) : Option Text :=
  match (path.reverse.dropWhile (· != slash)) with
  | [] => none
  | [_] => none
  | _ :: before => some before.reverse

end Disk
end FactGraph
