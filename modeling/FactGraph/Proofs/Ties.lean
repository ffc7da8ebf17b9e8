import FactGraph.Proofs.Canonical
import FactGraph.Proofs.Digits
import FactGraph.Proofs.Order

/-!
# Which facts tie

Facts are compared by all that they hold. This tells any two facts apart, but for one thing: doubles
are compared by their values, and the two zeros have one value. So facts tie only if they are the
same or twins, which differ in nothing but the sign of a zero (`Fact.strictWeakOrder_compare`).

Facts that do not tie are sorted in one way only, whatever the order in which they come
(`Fact.filter_sort_congr`). Facts that tie stay in that order (`Fact.sort_swap`), and all others are
where they are in any order (`Fact.forall₂_sort`).
-/

namespace FactGraph

/-! ## Doubles -/

namespace Binary64

variable {x y : Binary64}

/-- The zero of a sign. -/
def zero (negative : Bool) : Binary64 := ofMagnitude negative 0

theorem eq_of_isNaN (hx : x.isNaN = true) (hy : y.isNaN = true) : x = y := by
  rw [eq_iff_bits, x.canonical (of_decide_eq_true hx), y.canonical (of_decide_eq_true hy)]

/-- The rank of a double other than a zero is that of no other double. -/
theorem eq_of_rank_eq (h : x.rank = y.rank) (hzero : x.rank ≠ 0) : x = y := by
  have hmagnitude : x.magnitude = y.magnitude := by
    simp only [rank] at h
    split at h <;> split at h <;> omega
  have hsign : x.isNegative = y.isNegative := by
    cases hx : x.isNegative <;> cases hy : y.isNegative <;> simp [rank, hx, hy] at h hzero ⊢ <;>
      omega
  rw [← x.ofMagnitude_magnitude, hsign, hmagnitude, y.ofMagnitude_magnitude]

theorem eq_zero_of_rank_eq (h : x.rank = 0) : x = zero x.isNegative := by
  have hmagnitude : x.magnitude = 0 := by
    rw [rank] at h
    split at h <;> omega
  rw [zero, ← hmagnitude, ofMagnitude_magnitude]

/-- Whether two doubles are the two zeros. -/
def Twins (x y : Binary64) : Prop := ∃ negative, x = zero negative ∧ y = zero (!negative)

theorem Twins.compare_eq (h : Twins x y) : compare x y = .eq := by
  obtain ⟨negative, rfl, rfl⟩ := h
  cases negative <;> decide

theorem Twins.of_rank (h : x.rank = y.rank) (hne : x ≠ y) : Twins x y := by
  have hx : x.rank = 0 := by
    by_contra hzero
    exact hne (eq_of_rank_eq h hzero)
  have hxzero := eq_zero_of_rank_eq hx
  have hyzero := eq_zero_of_rank_eq (h.symm.trans hx)
  have hsign : y.isNegative = !x.isNegative := by
    rw [Bool.eq_not]
    intro hsame
    exact hne (by rw [hxzero, hyzero, hsame])
  exact ⟨x.isNegative, hxzero, by rw [← hsign, ← hyzero]⟩

theorem ofBits_eq_zero_iff {b : UInt64} {negative : Bool} :
    ofBits b = zero negative ↔ b = if negative then 0x8000000000000000 else 0 := by
  have hzero : zero negative = ofBits (if negative then 0x8000000000000000 else 0) := by
    cases negative <;> rfl
  have hnan : ¬ IsNaNBits (if negative then 0x8000000000000000 else 0) := by
    cases negative <;> simp [IsNaNBits]
  rw [hzero, ofBits_inj]
  simp [hnan]

/-- Doubles tie only if they are the same or the two zeros. -/
theorem compare_eq_eq_iff : compare x y = .eq ↔ x = y ∨ Twins x y := by
  constructor
  · intro h
    by_cases hne : x = y
    · exact .inl hne
    · simp only [compare] at h
      split at h
      · next hx hy => exact .inl (eq_of_isNaN hx hy)
      · cases h
      · cases h
      · exact .inr (.of_rank (Std.LawfulEqOrd.eq_of_compare h) hne)
  · rintro (rfl | h)
    · exact Std.ReflCmp.compare_self
    · exact h.compare_eq

end Binary64

/-! ## Values -/

/-- Values tie only if they are the same or the two zeros. -/
theorem Value.compare_eq_eq_iff {v w : Value} : compare v w = .eq ↔
    v = w ∨ ∃ x y, v = .float x ∧ w = .float y ∧ x.Twins y := by
  constructor
  · intro h
    cases v <;> cases w <;> try cases h
    case node.node m n =>
      have hcompare : compare m n = .eq := h
      exact .inl (congrArg node (Std.LawfulEqOrd.eq_of_compare hcompare))
    case string.string t u =>
      have hcompare : compare t u = .eq := h
      exact .inl (congrArg string (Std.LawfulEqOrd.eq_of_compare hcompare))
    case integer.integer m n =>
      have hcompare : compare m n = .eq := h
      exact .inl (congrArg integer (Std.LawfulEqOrd.eq_of_compare hcompare))
    case float.float x y =>
      have hcompare : compare x y = .eq := h
      rcases Binary64.compare_eq_eq_iff.1 hcompare with rfl | htwins
      · exact .inl rfl
      · exact .inr ⟨x, y, rfl, rfl, htwins⟩
    case boolean.boolean a b =>
      have hcompare : compare a b = .eq := h
      exact .inl (congrArg boolean (Std.LawfulEqOrd.eq_of_compare hcompare))
  · rintro (rfl | ⟨x, y, rfl, rfl, h⟩)
    · exact Std.ReflCmp.compare_self
    · exact h.compare_eq

/-! ## Facts -/

namespace Fact

variable {f g : Fact} {l l' : List Fact}

/-- Whether two facts differ in nothing but the sign of a zero. -/
structure Twins (f g : Fact) : Prop where
  /-- They are about one subject. -/
  subject : f.subject = g.subject
  /-- They have one predicate. -/
  predicate : f.predicate = g.predicate
  /-- Their objects are the two zeros. -/
  object : ∃ x y, f.object = .float x ∧ g.object = .float y ∧ x.Twins y

theorem compare_self (f : Fact) : compare f f = .eq := Std.ReflCmp.compare_self

/-- Facts tie only if they are the same or twins. -/
theorem compare_eq_eq_iff : compare f g = .eq ↔ f = g ∨ Twins f g := by
  rw [compare_eq]
  simp only [compareLex, compareOn, Ordering.then_eq_eq, Std.LawfulEqOrd.compare_eq_iff_eq,
    Value.compare_eq_eq_iff]
  constructor
  · rintro ⟨hsubject, hpredicate, hobject | hobject⟩
    · cases f
      cases g
      cases hsubject
      cases hpredicate
      cases hobject
      exact .inl rfl
    · exact .inr ⟨hsubject, hpredicate, hobject⟩
  · rintro (rfl | h)
    · exact ⟨rfl, rfl, .inl rfl⟩
    · exact ⟨h.subject, h.predicate, .inr h.object⟩

/-- Neither of two facts comes before the other if they tie. -/
theorem not_lt_and_not_lt_iff : ¬ compare f g = .lt ∧ ¬ compare g f = .lt ↔ compare f g = .eq := by
  have hswap : compare g f = (compare f g).swap := Std.OrientedCmp.eq_swap
  rw [hswap]
  cases compare f g <;> decide

/-- The order of facts is a strict weak order. Facts that it does not order are the same, or they
have one subject, one predicate and the two zeros as their objects. Of doubles that are given by any
bits, it does not order the same bits, two patterns that are not a number, and the two zeros. -/
theorem strictWeakOrder_compare :
    IsStrictWeakOrder Fact (fun f g => compare f g = .lt) ∧
      (∀ f g : Fact, (¬ compare f g = .lt ∧ ¬ compare g f = .lt) ↔ f = g ∨ Twins f g) ∧
      ∀ (n : Node) (p : Text) (b c : UInt64),
        (¬ compare (⟨n, p, .float (.ofBits b)⟩ : Fact) ⟨n, p, .float (.ofBits c)⟩ = .lt ∧
          ¬ compare (⟨n, p, .float (.ofBits c)⟩ : Fact) ⟨n, p, .float (.ofBits b)⟩ = .lt) ↔
        b = c ∨ (Binary64.IsNaNBits b ∧ Binary64.IsNaNBits c) ∨
          (b = 0 ∧ c = 0x8000000000000000 ∨ b = 0x8000000000000000 ∧ c = 0) := by
  refine ⟨?_, fun f g => not_lt_and_not_lt_iff.trans compare_eq_eq_iff, fun n p b c => ?_⟩
  · refine { irrefl := fun f => ?_, trans := fun f g h => Std.TransCmp.lt_trans,
             incomp_trans := fun f g h hfg hgh => ?_ }
    · show ¬ compare f f = .lt
      rw [compare_self]
      nofun
    · rw [not_lt_and_not_lt_iff] at hfg hgh ⊢
      exact Std.TransCmp.eq_trans hfg hgh
  · have htwins : (Binary64.ofBits b).Twins (.ofBits c) ↔
        b = 0 ∧ c = 0x8000000000000000 ∨ b = 0x8000000000000000 ∧ c = 0 := by
      simp [Binary64.Twins, Binary64.ofBits_eq_zero_iff]
    rw [not_lt_and_not_lt_iff, compare_eq_eq_iff, ← htwins, ← or_assoc, ← Binary64.ofBits_inj]
    constructor
    · rintro (h | h)
      · exact .inl (by simpa using h)
      · obtain ⟨x, y, hx, hy, h⟩ := h.object
        cases hx
        cases hy
        exact .inr h
    · rintro (h | h)
      · exact .inl (by rw [h])
      · exact .inr ⟨rfl, rfl, _, _, rfl, rfl, h⟩

/-! ## Sorting -/

theorem compare_eq_of_isLE (hfg : (compare f g).isLE = true) (hgf : (compare g f).isLE = true) :
    compare f g = .eq := by
  have hswap : compare g f = (compare f g).swap := Std.OrientedCmp.eq_swap
  rw [hswap] at hgf
  cases h : compare f g <;> simp [h] at hfg hgf ⊢

/-- Of the facts in a list, some that do not tie are sorted in one way only. -/
theorem filter_sort_congr {p : Fact → Bool} (hperm : l'.Perm l)
    (h : ∀ f ∈ l, ∀ g ∈ l, p f = true → p g = true → ¬ Twins f g) :
    (sort l').filter p = (sort l).filter p := by
  have hsorted := ((sort_perm l').trans (hperm.trans (sort_perm l).symm)).filter p
  refine hsorted.eq_of_pairwise (fun f g hf hg hfg hgf => ?_) ((pairwise_sort l').filter p)
    ((pairwise_sort l).filter p)
  obtain ⟨hf, hpf⟩ := List.mem_filter.1 hf
  obtain ⟨hg, hpg⟩ := List.mem_filter.1 hg
  have hf := hperm.mem_iff.1 (mem_sort.1 hf)
  exact (compare_eq_eq_iff.1 (compare_eq_of_isLE hfg hgf)).resolve_right
    (h f hf g (mem_sort.1 hg) hpf hpg)

/-- Facts no two of which are twins are sorted in one way only. -/
theorem sort_congr (hperm : l'.Perm l) (h : ∀ f ∈ l, ∀ g ∈ l, ¬ Twins f g) : sort l' = sort l := by
  have hall := filter_sort_congr (p := fun _ => true) hperm fun f hf g hg _ _ => h f hf g hg
  simpa using hall

/-- A fact is put behind those that come before it and in front of all others. -/
theorem sort_cons (f : Fact) (l : List Fact) : sort (f :: l) =
    (sort l).filter (fun g => compare g f == .lt) ++
      f :: (sort l).filter fun g => compare g f != .lt := by
  have hswap : ∀ a b : Fact, compare a b = (compare b a).swap := fun _ _ => Std.OrientedCmp.eq_swap
  have trans : ∀ a b c : Fact, (compare a b != .gt) = true → (compare b c != .gt) = true →
      (compare a c != .gt) = true := by
    simp only [bne, ← Ordering.isLE_eq_not_beq_gt]
    exact fun _ _ _ => Std.TransCmp.isLE_trans
  have total : ∀ a b : Fact, (compare a b != .gt || compare b a != .gt) = true := by
    intro a b
    rw [hswap a b]
    cases compare b a <;> rfl
  obtain ⟨l₁, l₂, hcons, hl, hbefore⟩ := List.mergeSort_cons trans total f l
  have hsorted := pairwise_sort (f :: l)
  rw [sort, hcons, List.pairwise_append, List.pairwise_cons] at hsorted
  have hlt : ∀ g ∈ l₁, compare g f = .lt := by
    intro g hg
    have hgt := hbefore g hg
    rw [hswap g f]
    cases h : compare f g <;> simp [h] at hgt ⊢
  have hnot : ∀ g ∈ l₂, compare g f ≠ .lt := by
    intro g hg
    have hle := hsorted.2.1.1 g hg
    rw [hswap g f]
    cases h : compare f g <;> simp [h] at hle ⊢
  have hfirst : l₁.filter (fun g => compare g f == .lt) = l₁ :=
    List.filter_eq_self.2 fun g hg => by simp [hlt g hg]
  have hrest : l₂.filter (fun g => compare g f == .lt) = [] :=
    List.filter_eq_nil_iff.2 fun g hg => by simp [hnot g hg]
  have hfirst' : l₁.filter (fun g => compare g f != .lt) = [] :=
    List.filter_eq_nil_iff.2 fun g hg => by simp [hlt g hg]
  have hrest' : l₂.filter (fun g => compare g f != .lt) = l₂ :=
    List.filter_eq_self.2 fun g hg => by simp [hnot g hg]
  rw [sort, sort, hcons, hl, List.filter_append, List.filter_append, hfirst, hrest, hfirst', hrest']
  simp

theorem sort_cons_cons (h : compare f g = .eq) (l : List Fact) : sort (f :: g :: l) =
    (sort l).filter (fun k => compare k g == .lt) ++
      f :: g :: (sort l).filter fun k => compare k g != .lt := by
  have hsame : ∀ k : Fact, compare k f = compare k g := fun k => Std.TransCmp.congr_right h
  have hnone : (sort l).filter (fun k => compare k g == .lt && compare k g != .lt) = [] := by simp
  have hnone' : (sort l).filter (fun k => compare k g != .lt && compare k g == .lt) = [] := by simp
  rw [sort_cons f, sort_cons g]
  simp [hsame, List.filter_filter, hnone, hnone']

/-- Facts that tie stay in the order in which they come. -/
theorem sort_swap (h : compare f g = .eq) (l : List Fact) : ∃ l₁ l₂,
    sort (f :: g :: l) = l₁ ++ f :: g :: l₂ ∧ sort (g :: f :: l) = l₁ ++ g :: f :: l₂ := by
  have hsame : ∀ k : Fact, compare k f = compare k g := fun k => Std.TransCmp.congr_right h
  have hback : compare g f = .eq := (hsame g).trans (compare_self g)
  refine ⟨_, _, sort_cons_cons h l, ?_⟩
  rw [sort_cons_cons hback]
  simp only [hsame]

theorem isLE_of_tie (h : (f :: l).Pairwise fun f g => (compare f g).isLE = true)
    (htie : ∃ k ∈ f :: l, compare g k = .eq) : (compare f g).isLE = true := by
  obtain ⟨k, hk, hgk⟩ := htie
  rw [Std.TransCmp.congr_right hgk]
  rcases List.mem_cons.1 hk with rfl | hk
  · rw [compare_self]
    rfl
  · exact List.rel_of_pairwise_cons h hk

theorem exists_tie_of_countP
    (hcount : l.countP (fun g => compare f g == .eq) = l'.countP fun g => compare f g == .eq)
    (hf : f ∈ l) : ∃ k ∈ l', compare f k = .eq := by
  have hpos : 0 < l.countP fun g => compare f g == .eq :=
    List.countP_pos_iff.2 ⟨f, hf, by simp⟩
  rw [hcount] at hpos
  simpa using List.countP_pos_iff.1 hpos

/-- Two sorted lists with as many facts that tie with any one tie fact by fact. -/
theorem forall₂_of_pairwise (hl : l.Pairwise fun f g => (compare f g).isLE = true)
    (hl' : l'.Pairwise fun f g => (compare f g).isLE = true)
    (hcount : ∀ k : Fact, l.countP (fun f => compare k f == .eq) =
      l'.countP fun f => compare k f == .eq) :
    List.Forall₂ (fun f g => compare f g = .eq) l l' := by
  induction l generalizing l' with
  | nil =>
    cases l' with
    | nil => exact .nil
    | cons g l' =>
      obtain ⟨k, hk, -⟩ := exists_tie_of_countP (hcount g).symm List.mem_cons_self
      cases hk
  | cons f l ih =>
    cases l' with
    | nil =>
      obtain ⟨k, hk, -⟩ := exists_tie_of_countP (hcount f) List.mem_cons_self
      cases hk
    | cons g l' =>
      have hfg : compare f g = .eq := compare_eq_of_isLE
        (isLE_of_tie hl (exists_tie_of_countP (hcount g).symm List.mem_cons_self))
        (isLE_of_tie hl' (exists_tie_of_countP (hcount f) List.mem_cons_self))
      refine .cons hfg (ih hl.of_cons hl'.of_cons fun k => ?_)
      have hk := hcount k
      have hsame : compare k f = compare k g := Std.TransCmp.congr_right hfg
      simpa only [List.countP_cons, hsame, Nat.add_right_cancel_iff] using hk

/-- However facts are ordered, they are sorted in the same way but for facts that tie. -/
theorem forall₂_sort (hperm : l'.Perm l) :
    List.Forall₂ (fun f g => f = g ∨ Twins f g) (sort l') (sort l) := by
  have hsorted := (sort_perm l').trans (hperm.trans (sort_perm l).symm)
  simp only [← compare_eq_eq_iff]
  exact forall₂_of_pairwise (pairwise_sort l') (pairwise_sort l) fun k => hsorted.countP_eq _

end Fact
end FactGraph
