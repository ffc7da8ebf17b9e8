import FactGraph.Text

/-!
# Locations

Where files and directories stand, what stands at a path when a storage is opened there, and why a
file cannot be opened.
-/

namespace FactGraph

/-- A place on a disk, given by the names on the way to it from the root. -/
abbrev Place := List Text

/-- The longest name of a file or a directory. -/
def nameLimit : Nat := 255

/-- What stands at a path. -/
inductive Location where
  /-- Nothing, but a file can be made. -/
  | absent
  /-- A file with its bytes. -/
  | file (bytes : Text)
  /-- A directory. -/
  | directory
  /-- A part of the path in front of the last does not exist. -/
  | missingParent
  /-- A part of the path in front of the last is a file. -/
  | blockedParent
  /-- A part of the path is longer than names may be. -/
  | overlong
deriving DecidableEq

namespace Location

/-- The bytes of the file at a path, none yet if it has to be made; or the reason why there can be
no file. -/
def fileBytes : Location → Except Text Text
  | absent => .ok []
  | file bytes => .ok bytes
  | directory => .error "Is a directory"
  | missingParent => .error "No such file or directory"
  | blockedParent => .error "Not a directory"
  | overlong => .error "File name too long"

end Location
end FactGraph
