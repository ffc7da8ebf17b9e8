import FactGraph.Proofs.Consequence
import FactGraph.View

/-!
# What views show

A view is faithful to a set of facts if a query finds nothing but members that it accepts, and
exhaustive if the query leaves out none of them; it shows the set if it is both. As a fact is looked
up by its digest, a query that asks for one fact only is held to this if the fact belongs to a set
in which digests tell facts apart. A view knows a set if it finds its members by their digests.
-/

namespace FactGraph

/-- Whether a view finds members of a set only. A query for one fact counts if the fact is among the
given ones. -/
structure View.Faithful (v : View) (A asked : Set Fact) : Prop where
  /-- What is found is in the set, and the query accepts it. -/
  find : ∀ q l, v.find q = .ok l → (∀ f, q.fact? = some f → f ∈ asked) →
    ∀ f ∈ l, f ∈ A ∧ q.accepts f = true

/-- Whether a view finds every member of a set that a query accepts. -/
structure View.Exhaustive (v : View) (A : Set Fact) : Prop where
  /-- What the query accepts is found. -/
  mem_find : ∀ q l, v.find q = .ok l → ∀ f ∈ A, q.accepts f = true → f ∈ l

/-- Whether a view finds the members of a set that a query accepts, and nothing else. -/
structure View.Shows (v : View) (A asked : Set Fact) : Prop extends v.Faithful A asked,
  v.Exhaustive A

/-- Whether a view leads from digests to the members of a set. -/
structure View.Knows (v : View) (A : Set Fact) : Prop where
  /-- A digest leads to its fact. -/
  get : ∀ f ∈ A, v.get f.digest = .ok (some f)
  /-- A digest leads to no other fact. -/
  of_get : ∀ id f, v.get id = .ok (some f) → f ∈ A ∧ f.digest = id
  /-- Members are contained. -/
  contains : ∀ f ∈ A, v.contains f = .ok true

end FactGraph
