import FactGraph.Attempt
import FactGraph.Index
import FactGraph.Storage
import FactGraph.View

/-!
# Stores

A store is a storage with an index over its facts. The storage decides what is stored; the index
only saves the way through all facts, and an index that does not know of a change in the storage
costs answers but never makes a wrong one. Facts are named by their digests, so storing a fact again
changes nothing.
-/

namespace FactGraph

/-- A storage with an index over its facts. -/
structure Store where
  /-- Where the facts are kept. -/
  storage : Storage
  /-- The index over them. -/
  index : Index := {}
deriving DecidableEq

namespace Store

/-! ## Opening -/

/-- Makes the index anew from the storage, and tells how many facts it holds. -/
def rebuild (s : Store) : Except StoreError (Store × Nat) := do
  let index := Index.ofFacts (← s.storage.facts)
  return ({ s with index }, index.size)

/-- The store over a storage. -/
def opened (storage : Option Storage) : Except StoreError Store := do
  match storage with
  | none => throw .noStorage
  | some storage =>
    let (s, _) ← rebuild { storage }
    return s

/-! ## Storable facts -/

/-- Refuses a part of a fact that is longer than a field may be. -/
def checkPart (f : Fact) (part : FactPart) (t : Text) : Except StoreError Unit :=
  if fieldLimit < t.length then .error (.partOverLimit part t.length f.subject) else .ok ()

/-- Refuses facts that cannot be stored: with a part over the limit, or with an empty name. -/
def checkStorable (f : Fact) : Except StoreError Unit := do
  if let .named name := f.subject then checkPart f .subject name
  checkPart f .predicate f.predicate
  match f.object with
  | .string t => checkPart f .objectString t
  | .node (.named name) => checkPart f .objectNode name
  | _ => pure ()
  if f.predicate.isEmpty then throw (.emptyPredicate f)
  if f.subject.isNameless then throw (.emptySubject f)
  if f.object.node?.any Node.isNameless then throw (.emptyObject f)

/-! ## Changes -/

/-- Stores a fact; also answers with its digest and whether it was new. -/
def insert (s : Store) (f : Fact) : Except StoreError (Store × Digest × Bool) := do
  checkStorable f
  let id ← f.id
  if s.index.contains id then return (s, id, false)
  let storage ← s.storage.put id f
  return ({ storage, index := s.index.add id f }, id, true)

/-- Stores a fact that must not be stored yet. -/
def insertNew (s : Store) (f : Fact) : Except StoreError (Store × Digest) := do
  match ← s.insert f with
  | (s, id, true) => return (s, id)
  | (_, id, false) => throw (.alreadyStored f id)

/-- Stores a fact and notes its digest and whether it was new in front of those of the facts before
it. -/
def insertNoting (s : Store × List (Digest × Bool)) (f : Fact) :
    Attempt StoreError (Store × List (Digest × Bool)) :=
  match s.1.insert f with
  | .ok (store, id, new) => ((store, (id, new) :: s.2), none)
  | .error e => (s, some e)

/-- Stores facts one by one up to the first that cannot be stored; those in front of it stay.
Answers with the digest of every fact and whether it was new. -/
def insertAll (s : Store) (facts : List Fact) : Store × Except StoreError (List (Digest × Bool)) :=
  match Attempt.forEach insertNoting (s, []) facts with
  | ((s, noted), none) => (s, .ok noted.reverse)
  | ((s, _), some e) => (s, .error e)

/-- Takes a fact out of the store by its digest, and tells whether it was stored. Bytes that are no
fact are taken out too. -/
def remove (s : Store) (id : Digest) : Except StoreError (Store × Bool) := do
  let known ← match s.storage.get id with
    | .ok known => .ok known
    | .error e => if e.kind == .serialization then .ok none else .error e
  let (storage, existed) ← s.storage.erase id
  let index := match known with
    | some f => s.index.remove id f
    | none => s.index.forget id
  return ({ storage, index }, existed)

/-! ## Reading -/

/-- The fact of a digest. -/
def get (s : Store) (id : Digest) : Except StoreError (Option Fact) := s.storage.get id

/-- Whether a digest is stored. -/
def has (s : Store) (id : Digest) : Except StoreError Bool := s.storage.has id

/-- Whether a fact is stored. -/
def contains (s : Store) (f : Fact) : Except StoreError Bool := do s.storage.has (← f.id)

/-- The facts of digests that a query accepts. -/
def select (s : Store) (q : Query) (ids : List Digest) : Except StoreError (List Fact) := do
  let found ← ids.mapM s.storage.get
  return found.filterMap fun f => f.filter q.accepts

/-- The stored facts that a query accepts. -/
def find (s : Store) (q : Query) : Except StoreError (List Fact) := do
  if q.isAny then s.storage.facts
  else match q.fact? with
    | some f => return if ← s.contains f then [f] else []
    | none => s.select q (← s.index.candidates q)

/-- A store as a collection of facts to be read. -/
def view (s : Store) : View where
  find := s.find
  get := s.get
  contains := s.contains
  extent := s.index.extent

/-- The number of facts in the index. -/
def count (s : Store) : Nat := s.index.size

/-- Numbers about a store. -/
structure Statistics where
  /-- The number of facts. -/
  facts : Nat
  /-- The number of different subjects. -/
  subjects : Nat
  /-- The number of different predicates. -/
  predicates : Nat
  /-- The number of different objects. -/
  objects : Nat
  /-- The number of bytes that the storage takes. -/
  bytes : Nat
deriving DecidableEq

/-- The numbers about a store. -/
def statistics (s : Store) : Except StoreError Statistics := do
  return {
    facts := s.index.size
    subjects := s.index.bySubject.size
    predicates := s.index.byPredicate.size
    objects := s.index.byObject.size
    bytes := ← s.storage.size }

/-- Makes sure that all changes are kept. -/
def flush (s : Store) : Except StoreError Unit := s.storage.flush

/-- Ends the use of the storage. -/
def close (s : Store) : Store := { s with storage := s.storage.close }

end Store
end FactGraph
