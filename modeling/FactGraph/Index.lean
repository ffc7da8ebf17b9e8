import FactGraph.Encoding
import FactGraph.Index.Buckets

/-!
# The index of a store

The index finds the digests of facts by their subject, their predicate and their object. Subjects
and objects are known by the bytes that encode them, so that values of different kinds never share a
bucket. The index is derived from the facts of a storage: what it answers are candidates, which are
looked up and compared with the query once more.
-/

namespace FactGraph

/-- Digests of facts by what the facts are about. -/
structure Index where
  /-- All digests. -/
  ids : List Digest := []
  /-- The digests by subject. -/
  bySubject : Buckets := {}
  /-- The digests by predicate. -/
  byPredicate : Buckets := {}
  /-- The digests by object. -/
  byObject : Buckets := {}
deriving DecidableEq

namespace Index

/-- Whether a digest is in the index. -/
def contains (x : Index) (id : Digest) : Bool := x.ids.contains id

/-- The number of digests. -/
def size (x : Index) : Nat := x.ids.length

/-- No query with an open field and one that is not has more candidates than this, and all such
queries together do not have more different ones. -/
def extent (x : Index) : Nat := x.bySubject.total + x.byPredicate.total + x.byObject.total

/-- Adds the digest of a fact, unless it is there. -/
def add (x : Index) (id : Digest) (f : Fact) : Index :=
  if x.contains id then x
  else {
    ids := id :: x.ids
    bySubject := x.bySubject.insert (Encoding.nodeBytes f.subject) id
    byPredicate := x.byPredicate.insert f.predicate id
    byObject := x.byObject.insert (Encoding.valueBytes f.object) id }

/-- Takes away the digest of a fact from where the fact puts it. -/
def remove (x : Index) (id : Digest) (f : Fact) : Index :=
  if x.contains id then {
    ids := x.ids.filter (· != id)
    bySubject := x.bySubject.erase (Encoding.nodeBytes f.subject) id
    byPredicate := x.byPredicate.erase f.predicate id
    byObject := x.byObject.erase (Encoding.valueBytes f.object) id }
  else x

/-- Takes away a digest of which the fact is not known. -/
def forget (x : Index) (id : Digest) : Index :=
  if x.contains id then {
    ids := x.ids.filter (· != id)
    bySubject := x.bySubject.forget id
    byPredicate := x.byPredicate.forget id
    byObject := x.byObject.forget id }
  else x

/-- The index of facts by their digests. -/
def ofFacts (facts : List Fact) : Index := facts.foldl (fun x f => x.add f.digest f) {}

/-! ## Candidates -/

/-- Of two lists the shorter one, or else the first one, with the other before further lists. -/
def takeShorter (s : List Digest × List (List Digest)) (ids : List Digest) :
    List Digest × List (List Digest) :=
  if ids.length < s.1.length then (ids, s.1 :: s.2) else (s.1, ids :: s.2)

/-- The digests in all of several lists, in the order of the first shortest one; without lists, all
digests. -/
def meet (all : List Digest) : List (List Digest) → List Digest
  | [] => all
  | ids :: others =>
    let (ids, others) := others.foldl takeShorter (ids, [])
    ids.filter fun id => others.all fun o => o.contains id

/-- The buckets of the fields that a query asks for, if all of them have one. A field over the limit
is refused when its turn comes: subject, predicate, object. -/
def buckets? (x : Index) (q : Query) : Except StoreError (Option (List (List Digest))) := do
  let subject ← match q.subject with
    | none => pure (some [])
    | some n => do pure ((x.bySubject.get? (← Encoding.nodeKey n)).map ([·]))
  let some subject := subject | return none
  let some predicate := (match q.predicate with
    | none => some []
    | some p => (x.byPredicate.get? p).map ([·])) | return none
  let object ← match q.object with
    | none => pure (some [])
    | some v => do pure ((x.byObject.get? (← Encoding.valueKey v)).map ([·]))
  let some object := object | return none
  return some (subject ++ predicate ++ object)

/-- The digests of the facts that a query may accept. -/
def candidates (x : Index) (q : Query) : Except StoreError (List Digest) := do
  match ← x.buckets? q with
  | none => return []
  | some buckets => return meet x.ids buckets

end Index
end FactGraph
