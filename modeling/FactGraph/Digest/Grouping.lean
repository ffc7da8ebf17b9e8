import FactGraph.Digest

/-!
# Groupings

A grouping holds items that are named by digests, in groups by the first bytes of the digests. Its
items stand in a row, in which the items of a group follow one another: a new item goes in front of
its group, and a group that gets its first item goes in front of all others. There are at least as
many groups as items, so that groups stay small; when more are needed, the items are put into a
greater number of groups one by one, in the order of the row.

Neither the number of groups nor the order is lasting: what a grouping holds are its items in any
order, and an item that is put in is the only one that is added (`insert_perm`).
-/

namespace FactGraph

/-- Items in groups. -/
structure Grouping (α : Type) where
  /-- The items, in the order in which they are listed. -/
  items : List α := []
  /-- The number of groups. -/
  groups : Nat := 0
deriving DecidableEq

namespace Grouping

variable {α : Type}

/-! ## Groups -/

/-- The word that the first eight bytes of a text spell, the least significant first. -/
def firstWord : Text → UInt64
  | a :: b :: c :: d :: e :: f :: g :: h :: _ =>
    a.toUInt64 ||| b.toUInt64 <<< 8 ||| c.toUInt64 <<< 16 ||| d.toUInt64 <<< 24 |||
      e.toUInt64 <<< 32 ||| f.toUInt64 <<< 40 ||| g.toUInt64 <<< 48 ||| h.toUInt64 <<< 56
  | _ => 0

/-- The group of a digest among a number of groups. -/
@[inline] def group (groups : UInt64) (id : Digest) : UInt64 := firstWord id.bytes % groups

/-- The numbers of groups, from the least to the greatest. Every one is prime and more than twice
the one before it. -/
def groupNumbers : List Nat :=
  [13, 29, 59, 127, 257, 541, 1109, 2357, 5087, 10273, 20753, 42043, 85229, 172933, 351061, 712697,
    1447153, 2938679]

/-- The number of groups that comes after another one. -/
def nextNumber (groups : Nat) : Nat :=
  (groupNumbers.find? fun n => groups < n).getD (2 * groups + 1)

/-! ## Rows -/

/-- Puts an item in front of the first one that a test accepts, or in front of all if there is no
such item. -/
def putBefore (test : α → Bool) (a : α) (items : List α) : List α :=
  match items.dropWhile fun b => !test b with
  | [] => a :: items
  | rest => (items.takeWhile fun b => !test b) ++ a :: rest

theorem putBefore_perm (test : α → Bool) (a : α) (items : List α) :
    (putBefore test a items).Perm (a :: items) := by
  rw [putBefore]
  split
  · exact .refl _
  · refine List.perm_middle.trans (.of_eq ?_)
    rw [List.takeWhile_append_dropWhile]

/-- Puts an item in front of its group. -/
def place (name : α → Digest) (groups : Nat) (a : α) (items : List α) : List α :=
  let own := group (.ofNat groups) (name a)
  putBefore (fun b => group (.ofNat groups) (name b) == own) a items

theorem place_perm (name : α → Digest) (groups : Nat) (a : α) (items : List α) :
    (place name groups a items).Perm (a :: items) := putBefore_perm ..

/-- Puts items into another number of groups, one by one. -/
def regroup (name : α → Digest) (groups : Nat) (items : List α) : List α :=
  items.foldl (fun placed a => place name groups a placed) []

theorem regroup_perm (name : α → Digest) (groups : Nat) (items : List α) :
    (regroup name groups items).Perm items := by
  suffices h : ∀ placed : List α,
      (items.foldl (fun placed a => place name groups a placed) placed).Perm (placed ++ items) from
    h []
  induction items with
  | nil => intro placed; simp
  | cons a items ih =>
    intro placed
    exact (ih _).trans (((place_perm name groups a placed).append_right items).trans
      List.perm_middle.symm)

/-! ## Changes -/

/-- A grouping with room for one more item. -/
def grow (name : α → Digest) (g : Grouping α) : Grouping α :=
  if g.items.length < g.groups then g
  else
    let groups := nextNumber g.groups
    { items := regroup name groups g.items, groups }

theorem grow_perm (name : α → Digest) (g : Grouping α) : (g.grow name).items.Perm g.items := by
  rw [grow]
  split
  · exact .refl _
  · exact regroup_perm ..

/-- Puts in an item. -/
def insert (name : α → Digest) (g : Grouping α) (a : α) : Grouping α :=
  let g := g.grow name
  { g with items := place name g.groups a g.items }

theorem insert_perm (name : α → Digest) (g : Grouping α) (a : α) :
    (g.insert name a).items.Perm (a :: g.items) :=
  (place_perm ..).trans ((grow_perm name g).cons a)

/-- Takes out the items that a test refuses. -/
def filter (test : α → Bool) (g : Grouping α) : Grouping α :=
  { g with items := g.items.filter test }

end Grouping
end FactGraph
