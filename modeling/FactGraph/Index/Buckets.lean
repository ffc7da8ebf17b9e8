import FactGraph.Digest.Grouping

/-!
# Buckets

Buckets hold sets of digests by key. A bucket is never empty: it comes with its first digest and
goes with its last.
-/

namespace FactGraph

/-- Sets of digests by key. -/
structure Buckets where
  /-- The keys with their digests. -/
  entries : List (Text × Grouping Digest) := []
deriving DecidableEq

namespace Buckets

/-- The digests under a key, if there are any. -/
def get? (b : Buckets) (key : Text) : Option (List Digest) :=
  (b.entries.lookup key).map Grouping.items

/-- The number of buckets. -/
def size (b : Buckets) : Nat := b.entries.length

/-- How many digests the buckets hold in all. -/
def total (b : Buckets) : Nat := b.entries.foldr (fun e n => e.2.items.length + n) 0

/-- Puts a digest into a bucket, unless it is there. -/
def insertId (ids : Grouping Digest) (id : Digest) : Grouping Digest :=
  if ids.items.contains id then ids else ids.insert (fun id => id) id

/-- Puts a digest into the bucket of a key, or into a new one. -/
def insertEntry (key : Text) (id : Digest) :
    List (Text × Grouping Digest) → List (Text × Grouping Digest)
  | [] => [(key, insertId {} id)]
  | (other, ids) :: rest =>
    if other == key then (other, insertId ids id) :: rest
    else (other, ids) :: insertEntry key id rest

/-- Puts a digest under a key. -/
def insert (b : Buckets) (key : Text) (id : Digest) : Buckets := ⟨insertEntry key id b.entries⟩

/-- A bucket without a digest, unless nothing is left of it. -/
def without (id : Digest) (e : Text × Grouping Digest) : Option (Text × Grouping Digest) :=
  let ids := e.2.filter (· != id)
  if ids.items.isEmpty then none else some (e.1, ids)

/-- Takes a digest from under a key. -/
def erase (b : Buckets) (key : Text) (id : Digest) : Buckets :=
  ⟨b.entries.filterMap fun e => if e.1 == key then without id e else some e⟩

/-- Takes a digest from under all keys. -/
def forget (b : Buckets) (id : Digest) : Buckets := ⟨b.entries.filterMap (without id)⟩

end Buckets
end FactGraph
