import FactGraph.StoreError

/-!
# Views of facts

Joins, checks and proofs read facts through a view: a store, or a store with candidates on top. A
view is given by its look-ups, which may fail.
-/

namespace FactGraph

/-- A collection of facts to be read. -/
structure View where
  /-- The facts that a query accepts. -/
  find : Query → Except StoreError (List Fact)
  /-- The fact with a digest. -/
  get : Digest → Except StoreError (Option Fact)
  /-- Whether a fact is in the collection. -/
  contains : Fact → Except StoreError Bool
  /-- No query that leaves some fields open and others not accepts more facts than this. -/
  extent : Nat

end FactGraph
