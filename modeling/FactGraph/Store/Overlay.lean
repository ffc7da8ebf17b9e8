import FactGraph.Store

/-!
# Overlays

An overlay shows a store as if some more facts were stored in it.
-/

namespace FactGraph
namespace Overlay

/-- Puts a fact behind others, unless it is among them. -/
def append (facts : List Fact) (f : Fact) : List Fact :=
  if facts.contains f then facts else facts ++ [f]

/-- The facts that a query accepts, those of the store in front. -/
def find (s : Store) (extra : List Fact) (q : Query) : Except StoreError (List Fact) := do
  return (extra.filter q.accepts).foldl append (← s.find q)

/-- The first fact with a digest. -/
def search (id : Digest) : List Fact → Except StoreError (Option Fact)
  | [] => .ok none
  | f :: rest => do if (← f.id) == id then return some f else search id rest

/-- The fact of a digest. -/
def get (s : Store) (extra : List Fact) (id : Digest) : Except StoreError (Option Fact) := do
  match ← s.get id with
  | some f => return some f
  | none => search id extra

/-- Whether a fact is stored or among the others. -/
def contains (s : Store) (extra : List Fact) (f : Fact) : Except StoreError Bool := do
  return !(← find s extra (.exact f)).isEmpty

end Overlay

/-- A store with more facts, as a collection of facts to be read. -/
def Store.overlay (s : Store) (extra : List Fact) : View where
  find := Overlay.find s extra
  get := Overlay.get s extra
  contains := Overlay.contains s extra
  extent := s.index.extent + extra.length

end FactGraph
