import Mathlib.Data.List.Basic
import FactGraph.Fact

/-!
# The order of facts

Nodes, values and facts are compared by several keys, one after the other, and values of different
kinds by their kind. All these comparisons are orders in which any two things can be compared, so
that sorted facts stand in their order (`Fact.pairwise_sort`). Nodes that are equal in their order
are the same.
-/

namespace FactGraph

/-- Sorting puts things in their order. -/
theorem pairwise_mergeSort {α : Type} (cmp : α → α → Ordering) [Std.TransCmp cmp] (l : List α) :
    (l.mergeSort fun a b => cmp a b != .gt).Pairwise fun a b => (cmp a b).isLE = true := by
  simp only [Ordering.isLE_eq_not_beq_gt]
  refine List.pairwise_mergeSort (fun a b c hab hbc => ?_) (fun a b => ?_) l
  · have hle : (cmp a b).isLE = true := Ordering.isLE_eq_not_beq_gt.trans hab
    have hle' : (cmp b c).isLE = true := Ordering.isLE_eq_not_beq_gt.trans hbc
    exact Ordering.isLE_eq_not_beq_gt.symm.trans (Std.TransCmp.isLE_trans hle hle')
  · have hswap : cmp a b = (cmp b a).swap := Std.OrientedCmp.eq_swap
    rw [hswap]
    cases cmp b a <;> rfl

/-! ## Doubles -/

namespace Binary64

/-- Doubles are compared by whether they are numbers, and numbers by their rank. -/
theorem compare_eq : (compare : Binary64 → Binary64 → Ordering) =
    compareLex (compareOn isNaN) (compareOn fun x => if x.isNaN then 0 else x.rank) := by
  funext x y
  rw [compareLex, compareOn, compareOn, compare, instOrd]
  cases hx : x.isNaN <;> cases hy : y.isNaN <;> simp only [hx, hy] <;> rfl

instance : Std.TransOrd Binary64 := by
  rw [Std.TransOrd, compare_eq]
  infer_instance

end Binary64

/-! ## Nodes -/

namespace Node

/-- Whether a node is blank, its name and its words. Nodes are compared by these. -/
def keys : Node → Bool × Text × UInt64 × UInt64
  | named name => (false, name, 0, 0)
  | blank high low => (true, [], high, low)

theorem compare_eq : (compare : Node → Node → Ordering) =
    compareLex (compareOn fun n => n.keys.1) (compareLex (compareOn fun n => n.keys.2.1)
      (compareLex (compareOn fun n => n.keys.2.2.1) (compareOn fun n => n.keys.2.2.2))) := by
  funext m n
  rcases m with a | ⟨h, l⟩ <;> rcases n with b | ⟨h', l'⟩
  · show compare a b = (compare a b).then ((compare (0 : UInt64) 0).then (compare (0 : UInt64) 0))
    simp
  · rfl
  · rfl
  · show (compare h h').then (compare l l') =
      (compare ([] : Text) []).then ((compare h h').then (compare l l'))
    simp

instance : Std.TransOrd Node := by
  rw [Std.TransOrd, compare_eq]
  infer_instance

instance : Std.LawfulEqOrd Node where
  eq_of_compare {m n} heq := by
    rcases m with a | ⟨h, l⟩ <;> rcases n with b | ⟨h', l'⟩
    · have hname : compare a b = .eq := heq
      rw [Std.LawfulEqOrd.eq_of_compare hname]
    · cases heq
    · cases heq
    · have hwords : (compare h h').then (compare l l') = .eq := heq
      obtain ⟨hhigh, hlow⟩ := Ordering.then_eq_eq.1 hwords
      rw [Std.LawfulEqOrd.eq_of_compare hhigh, Std.LawfulEqOrd.eq_of_compare hlow]

end Node

/-! ## Values -/

namespace Value

/-- The kind of a value and what it holds. Values are compared by these. -/
def keys : Value → Nat × Node × Text × Int64 × Binary64 × Bool
  | node n => (0, n, [], 0, .nan, false)
  | string t => (1, default, t, 0, .nan, false)
  | integer n => (2, default, [], n, .nan, false)
  | float x => (3, default, [], 0, x, false)
  | boolean b => (4, default, [], 0, .nan, b)

theorem compare_eq : (compare : Value → Value → Ordering) =
    compareLex (compareOn fun x => x.keys.1) (compareLex (compareOn fun x => x.keys.2.1)
      (compareLex (compareOn fun x => x.keys.2.2.1) (compareLex (compareOn fun x => x.keys.2.2.2.1)
        (compareLex (compareOn fun x => x.keys.2.2.2.2.1)
          (compareOn fun x => x.keys.2.2.2.2.2))))) := by
  funext x y
  rw [compareLex, compareLex, compareLex, compareLex, compareLex]
  simp only [compareOn]
  cases x <;> cases y
  case node.node m n => exact show compare m n = _ by simp [keys]
  case string.string t u => exact show compare t u = _ by simp [keys]
  case integer.integer m n => exact show compare m n = _ by simp [keys]
  case float.float x y => exact show compare x y = _ by simp [keys]
  case boolean.boolean a b => exact show compare a b = _ by simp [keys]
  -- Values of different kinds are told apart by the first key.
  all_goals rfl

instance : Std.TransOrd Value := by
  rw [Std.TransOrd, compare_eq]
  infer_instance

end Value

/-! ## Facts -/

namespace Fact

theorem compare_eq : (compare : Fact → Fact → Ordering) =
    compareLex (compareOn subject) (compareLex (compareOn predicate) (compareOn object)) := rfl

instance : Std.TransOrd Fact := by
  rw [Std.TransOrd, compare_eq]
  infer_instance

theorem sort_perm (facts : List Fact) : (sort facts).Perm facts := List.mergeSort_perm ..

@[simp] theorem mem_sort {f : Fact} {facts : List Fact} : f ∈ sort facts ↔ f ∈ facts :=
  (sort_perm facts).mem_iff

theorem pairwise_sort (facts : List Fact) :
    (sort facts).Pairwise fun f g => (compare f g).isLE = true :=
  pairwise_mergeSort compare facts

theorem subject_of_isLE {f g : Fact} (h : (compare f g).isLE = true) :
    (compare f.subject g.subject).isLE = true := by
  rw [compare_eq] at h
  exact Ordering.isLE_left_of_isLE_then h

end Fact
end FactGraph
