import FactGraph.Store

/-!
# Pages

A page is a slice of the facts that a query accepts, in the order of their digests, so that pages of
one query fit together. Positions are words of 64 bits.
-/

namespace FactGraph

/-- A slice of the facts that a query accepts. -/
structure Page where
  /-- The facts of the slice. -/
  facts : List Fact
  /-- How many facts the query accepts. -/
  total : Nat
  /-- Whether there are facts behind the slice. -/
  hasMore : Bool
deriving DecidableEq

namespace Page

/-- Facts in the order of their digests. -/
def byDigest (facts : List Fact) : List Fact :=
  ((facts.map fun f => (f.digest, f)).mergeSort fun a b => compare a.1 b.1 != .gt).map Prod.snd

/-- The position behind a slice of at most `limit` facts that begins at a position; a slice without
a limit goes to the end. -/
def sliceEnd (limit : UInt64) (start total : Nat) : Nat :=
  if limit == 0 then total else min total (UInt64.ofNat start + limit).toNat

/-- The page of facts that begins behind `offset` others and has at most `limit` facts. -/
def ofFacts (limit offset : UInt64) (facts : List Fact) : Page :=
  let total := facts.length
  let start := min offset.toNat total
  let stop := sliceEnd limit start total
  { facts := ((byDigest facts).take stop).drop start, total, hasMore := decide (stop < total) }

end Page

/-- The page of the facts that a query accepts. -/
def Store.page (s : Store) (q : Query) (limit offset : UInt64) : Except StoreError Page :=
  Page.ofFacts limit offset <$> s.find q

end FactGraph
