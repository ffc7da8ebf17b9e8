import FactGraph.Storage.Cells

/-!
# Storage in memory

Cells that last as long as the storage is open. The number of bytes in the cells is kept up to date
with every change, so that the size of the storage is known without a pass over the cells.
-/

namespace FactGraph

/-- A storage that keeps its cells in memory. -/
structure Memory where
  /-- The cells. -/
  cells : Cells := .empty
  /-- How many bytes the texts of the cells have. -/
  payload : Nat := 0
  /-- Whether the storage can be used. -/
  isOpen : Bool := true
deriving DecidableEq

namespace Memory

/-- Gives a text to a digest. -/
def put (m : Memory) (id : Digest) (t : Text) : Memory :=
  let old := ((m.cells.get? id).getD []).length
  { m with cells := m.cells.put id t, payload := m.payload - old + t.length }

/-- Takes away the cell of a digest. -/
def erase (m : Memory) (id : Digest) : Memory :=
  let old := ((m.cells.get? id).getD []).length
  { m with cells := m.cells.erase id, payload := m.payload - old }

/-- The number of bytes in the cells and their digests. -/
def size (m : Memory) : Nat := m.payload + 32 * m.cells.size

/-- The storage after its end: nothing is kept. -/
def close (_ : Memory) : Memory := { isOpen := false }

end Memory
end FactGraph
