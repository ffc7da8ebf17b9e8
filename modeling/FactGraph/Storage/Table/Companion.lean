import FactGraph.Storage.Location

/-!
# Companions of the file of a table

While a table is in use, other items stand beside its file, under the name of the file with an
ending: what it takes to undo a change, the log of the changes that are not in the file yet, the
index of the log, and the mark of a user who has locked the file.
-/

namespace FactGraph

/-- The items that can stand beside the file of a table. -/
inductive Companion where
  /-- What it takes to undo a change that was cut short. -/
  | undo
  /-- The changes that are not in the file yet. -/
  | log
  /-- Where in the log to look for what. -/
  | index
  /-- The mark of a user of the file. -/
  | lock
deriving DecidableEq

namespace Companion

/-- What follows the name of the file. -/
def ending : Companion → Text
  | undo => "-journal"
  | log => "-wal"
  | index => "-shm"
  | lock => ".lock"

/-- The place beside a file. -/
def place (c : Companion) (file : Place) : Place :=
  file.dropLast ++ (file.getLast?.map (· ++ c.ending)).toList

/-- Whether the name of a file leaves room for the ending. -/
def hasRoom (c : Companion) (file : Place) : Bool :=
  file.getLast?.all fun name => name.length + c.ending.length ≤ nameLimit

end Companion
end FactGraph
