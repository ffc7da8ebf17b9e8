import FactGraph.Proofs.Nearness
import FactGraph.Rule.Guard

/-!
# How numbers compare

Two integers compare by their exact values, and so do two doubles. An integer and a double are
compared as doubles: an integer of more than 53 bits is rounded, and then ties with the double to
which it is rounded (`Value.Blurred`), but keeps its order with all others. So less is transitive
over numbers of both kinds, and the guards agree with each other; less or equal is transitive where
no integer is blurred (`Value.order_of_numbers`).
-/

namespace FactGraph

namespace Value

variable {a b c : Value} {u w z : ExtendedRat} {o : Ordering} {m n : Int64} {x y : Binary64}

/-- The exact value of a number that a value is; the infinities are at the ends. -/
def exactValue? : Value → Option ExtendedRat
  | integer n => some (.ofRat n.toInt)
  | float x => if x.isNaN then none else some x.exactValue
  | _ => none

/-- Whether one of two values is an integer and the other one a double with another value, to which
the integer is rounded. -/
inductive Blurred : Value → Value → Prop
  | left {n : Int64} {x : Binary64} (hrounded : x.exactValue = (Binary64.ofInt n.toInt).exactValue)
    (hne : x.exactValue ≠ .ofRat n.toInt) : Blurred (integer n) (float x)
  | right {n : Int64} {x : Binary64} (hrounded : x.exactValue = (Binary64.ofInt n.toInt).exactValue)
    (hne : x.exactValue ≠ .ofRat n.toInt) : Blurred (float x) (integer n)

theorem Blurred.symm (h : a.Blurred b) : b.Blurred a := by
  cases h with
  | left hrounded hne => exact .right hrounded hne
  | right hrounded hne => exact .left hrounded hne

/-- What the guards say about two values that are in an order. -/
structure Ordered (a b : Value) (o : Ordering) : Prop where
  /-- The values are in the order. -/
  compare : a.compare? b = some o
  /-- The other way round, they are in the opposite order. -/
  swap : b.compare? a = some o.swap
  equal : Comparison.equal.holds a b = (o == .eq)
  notEqual : Comparison.notEqual.holds a b = (o != .eq)
  less : Comparison.less.holds a b = o.isLT
  lessOrEqual : Comparison.lessOrEqual.holds a b = o.isLE
  greater : Comparison.greater.holds a b = o.isGT
  greaterOrEqual : Comparison.greaterOrEqual.holds a b = o.isGE

/-! ## Numbers -/

theorem exactValue?_cases (h : a.exactValue? = some u) :
    (∃ n, a = integer n ∧ u = .ofRat n.toInt) ∨
      ∃ x, a = float x ∧ x.isNaN = false ∧ u = x.exactValue := by
  cases a with
  | integer n => exact .inl ⟨n, rfl, (Option.some.inj h).symm⟩
  | float x =>
    rw [exactValue?] at h
    split at h
    · cases h
    · next hx => exact .inr ⟨x, rfl, Bool.eq_false_iff.2 hx, (Option.some.inj h).symm⟩
  | _ => cases h

theorem isNaN_of_exactValue? (h : (float x).exactValue? = some u) : x.isNaN = false := by
  rcases exactValue?_cases h with ⟨n, hn, -⟩ | ⟨y, hy, hx, -⟩
  · cases hn
  · cases hy
    exact hx

theorem isNumeric_of_exactValue? (h : a.exactValue? = some u) : a.isNumeric = true := by
  rcases exactValue?_cases h with ⟨n, rfl, -⟩ | ⟨x, rfl, -, -⟩ <;> rfl

/-- The rank of the double as which a number is compared with doubles. -/
def rank : Value → Int
  | integer n => Binary64.nearestRank n.toInt
  | float x => x.rank
  | _ => 0

/-- Numbers that are not in the opposite order are rounded to doubles that are not. -/
theorem rank_mono (ha : a.exactValue? = some u) (hb : b.exactValue? = some w) (h : u ≤ w) :
    a.rank ≤ b.rank := by
  rcases exactValue?_cases ha with ⟨m, rfl, rfl⟩ | ⟨x, rfl, hx, rfl⟩ <;>
    rcases exactValue?_cases hb with ⟨n, rfl, rfl⟩ | ⟨y, rfl, hy, rfl⟩
  · exact Binary64.nearestRank_mono (WithTop.coe_le_coe.1 (WithBot.coe_le_coe.1 h))
  · exact Binary64.nearestRank_le_rank hy h
  · exact Binary64.rank_le_nearestRank hx h
  · exact (Binary64.exactValue_le_exactValue_iff hx hy).1 h

/-! ## Comparing -/

theorem compare?_integer (m n : Int64) : (integer m).compare? (integer n) =
    some (cmp (ExtendedRat.ofRat m.toInt) (.ofRat n.toInt)) := by
  rw [compare?, Option.some.injEq]
  rcases lt_trichotomy m.toInt n.toInt with hlt | heq | hgt
  · have hcmp : compare m n = .lt := Std.compare_eq_lt.2 (Int64.lt_iff_toInt_lt.2 hlt)
    rw [hcmp, eq_comm, cmp_eq_lt_iff]
    exact_mod_cast hlt
  · rw [Int64.toInt_inj.1 heq, cmp_self_eq_eq]
    exact Std.ReflCmp.compare_self
  · have hcmp : compare m n = .gt := Std.compare_eq_gt.2 (Int64.lt_iff_toInt_lt.2 hgt)
    rw [hcmp, eq_comm, cmp_eq_gt_iff]
    exact_mod_cast hgt

/-- Numbers one of which is a double compare by their ranks. -/
theorem compare?_eq_rank (ha : a.exactValue? = some u) (hb : b.exactValue? = some w)
    (hdouble : ∀ m n, ¬ (a = integer m ∧ b = integer n)) :
    a.compare? b = some (compare a.rank b.rank) := by
  rcases exactValue?_cases ha with ⟨m, rfl, rfl⟩ | ⟨x, rfl, hx, rfl⟩ <;>
    rcases exactValue?_cases hb with ⟨n, rfl, rfl⟩ | ⟨y, rfl, hy, rfl⟩
  · exact absurd ⟨rfl, rfl⟩ (hdouble m n)
  · simp [compare?, number?, Binary64.compare?, Binary64.isNaN_ofInt, hy, rank, Binary64.rank_ofInt]
  · simp [compare?, number?, Binary64.compare?, Binary64.isNaN_ofInt, hx, rank, Binary64.rank_ofInt]
  · simp [compare?, number?, Binary64.compare?, hx, hy, rank]

/-- Numbers of different values, one of them a double, that are rounded to one double are an integer
and a double. -/
theorem blurred_of_rank_eq (ha : a.exactValue? = some u) (hb : b.exactValue? = some w)
    (hdouble : ∀ m n, ¬ (a = integer m ∧ b = integer n)) (hrank : a.rank = b.rank) (hne : u ≠ w) :
    a.Blurred b := by
  rcases exactValue?_cases ha with ⟨m, rfl, rfl⟩ | ⟨x, rfl, hx, rfl⟩ <;>
    rcases exactValue?_cases hb with ⟨n, rfl, rfl⟩ | ⟨y, rfl, hy, rfl⟩
  · exact absurd ⟨rfl, rfl⟩ (hdouble m n)
  · have hrounded := hrank.symm.trans (Binary64.rank_ofInt m.toInt).symm
    exact .left (Binary64.exactValue_eq_of_rank_eq hrounded) hne.symm
  · have hrounded := hrank.trans (Binary64.rank_ofInt n.toInt).symm
    exact .right (Binary64.exactValue_eq_of_rank_eq hrounded) hne
  · exact absurd (Binary64.exactValue_eq_of_rank_eq hrank) hne

/-- Numbers compare by their exact values, unless one of them is rounded to the other. -/
theorem compare?_of_not_blurred (ha : a.exactValue? = some u) (hb : b.exactValue? = some w)
    (h : ¬ a.Blurred b) : a.compare? b = some (cmp u w) := by
  by_cases hdouble : ∃ m n, a = integer m ∧ b = integer n
  · obtain ⟨m, n, rfl, rfl⟩ := hdouble
    cases ha
    cases hb
    exact compare?_integer m n
  · have hdouble : ∀ m n, ¬ (a = integer m ∧ b = integer n) :=
      fun m n h => hdouble ⟨m, n, h⟩
    have hne : u ≠ w → a.rank ≠ b.rank := fun hne hrank =>
      h (blurred_of_rank_eq ha hb hdouble hrank hne)
    rw [compare?_eq_rank ha hb hdouble, Option.some.injEq]
    rcases lt_trichotomy u w with hlt | rfl | hgt
    · have hrank := lt_of_le_of_ne (rank_mono ha hb hlt.le) (hne hlt.ne)
      rw [compare_lt_iff_lt.2 hrank, (cmp_eq_lt_iff u w).2 hlt]
    · have hrank := le_antisymm (rank_mono ha hb le_rfl) (rank_mono hb ha le_rfl)
      rw [compare_eq_iff_eq.2 hrank, cmp_self_eq_eq]
    · have hrank := lt_of_le_of_ne (rank_mono hb ha hgt.le) (hne hgt.ne').symm
      rw [compare_gt_iff_gt.2 hrank, (cmp_eq_gt_iff u w).2 hgt]

theorem rank_eq_of_rounded (hx : x.isNaN = false)
    (hrounded : x.exactValue = (Binary64.ofInt n.toInt).exactValue) :
    (integer n).rank = (float x).rank := by
  rw [rank, rank, ← Binary64.rank_ofInt]
  exact (Binary64.rank_eq_of_exactValue_eq hx (Binary64.isNaN_ofInt _) hrounded).symm

theorem Blurred.rank_eq (h : a.Blurred b) (ha : a.exactValue? = some u)
    (hb : b.exactValue? = some w) : a.rank = b.rank := by
  cases h with
  | left hrounded hne => exact rank_eq_of_rounded (isNaN_of_exactValue? hb) hrounded
  | right hrounded hne => exact (rank_eq_of_rounded (isNaN_of_exactValue? ha) hrounded).symm

theorem compare?_of_blurred (ha : a.exactValue? = some u) (hb : b.exactValue? = some w)
    (h : a.Blurred b) : a.compare? b = some .eq := by
  rw [compare?_eq_rank ha hb, compare_eq_iff_eq.2 (h.rank_eq ha hb)]
  rintro m n ⟨rfl, rfl⟩
  cases h

theorem compare?_swap (ha : a.exactValue? = some u) (hb : b.exactValue? = some w) :
    b.compare? a = (a.compare? b).map Ordering.swap := by
  by_cases h : a.Blurred b
  · rw [compare?_of_blurred ha hb h, compare?_of_blurred hb ha h.symm]
    rfl
  · rw [compare?_of_not_blurred ha hb h, compare?_of_not_blurred hb ha fun hback => h hback.symm,
      Option.map_some, cmp_swap]

/-! ## Blurred integers -/

theorem natAbs_toInt_le (n : Int64) : n.toInt.natAbs ≤ 2 ^ 63 := by
  have hlow := n.le_toInt
  have hhigh := n.toInt_lt
  omega

/-- A double to which an integer of another value is rounded is near to it, and the integer has more
than 53 bits. -/
theorem near_of_rounded (hrounded : x.exactValue = (Binary64.ofInt n.toInt).exactValue)
    (hne : x.exactValue ≠ .ofRat n.toInt) : ∃ r : ℚ, x.exactValue = .ofRat r ∧
      r ≠ n.toInt ∧ 2 ^ 53 < n.toInt.natAbs ∧ 2 ^ 53 * |r - n.toInt| ≤ n.toInt.natAbs := by
  have hexact := hrounded.trans
    (Binary64.exactValue_of_finite (Binary64.magnitude_ofInt_lt (natAbs_toInt_le n)))
  have hr : (Binary64.ofInt n.toInt).signed ≠ n.toInt := by
    intro heq
    rw [hexact, heq] at hne
    exact hne rfl
  refine ⟨_, hexact, hr, ?_, Binary64.signed_ofInt_near (natAbs_toInt_le n)⟩
  by_contra hfew
  exact hr (Binary64.signed_ofInt (not_lt.1 hfew))

/-- Of two values that are blurred, one is an integer of more than 53 bits, and the other one
differs from it by one part in `2 ^ 53` at most. -/
theorem Blurred.near (h : a.Blurred b) (ha : a.exactValue? = some u) (hb : b.exactValue? = some w) :
    ∃ (n : Int64) (r : ℚ),
      (u = .ofRat n.toInt ∧ w = .ofRat r ∨
        u = .ofRat r ∧ w = .ofRat n.toInt) ∧
      r ≠ n.toInt ∧ 2 ^ 53 < n.toInt.natAbs ∧ 2 ^ 53 * |r - n.toInt| ≤ n.toInt.natAbs := by
  cases h with
  | @left n x hrounded hne =>
    obtain ⟨r, hr, hnear⟩ := near_of_rounded hrounded hne
    simp only [exactValue?, isNaN_of_exactValue? hb, Bool.false_eq_true, if_false,
      Option.some.injEq] at ha hb
    exact ⟨n, r, .inl ⟨ha.symm, hb.symm.trans hr⟩, hnear⟩
  | @right n x hrounded hne =>
    obtain ⟨r, hr, hnear⟩ := near_of_rounded hrounded hne
    simp only [exactValue?, isNaN_of_exactValue? ha, Bool.false_eq_true, if_false,
      Option.some.injEq] at ha hb
    exact ⟨n, r, .inr ⟨ha.symm.trans hr, hb.symm⟩, hnear⟩

/-! ## Guards -/

/-- Guards on numbers agree with the order of the numbers. -/
theorem ordered_of_compare? (ha : a.exactValue? = some u) (hb : b.exactValue? = some w)
    (h : a.compare? b = some o) : a.Ordered b o := by
  have hswap : b.compare? a = some o.swap := by
    rw [compare?_swap ha hb, h]
    rfl
  have hsame : Comparison.same a b = (o == .eq) := by
    rw [Comparison.same, h, isNumeric_of_exactValue? ha]
    by_cases heq : a = b
    · subst heq
      have hself : o = o.swap := Option.some.inj (h.symm.trans hswap)
      cases o with
      | eq => simp
      | _ => cases hself
    · simp [heq]
  refine ⟨h, hswap, hsame, ?_, ?_, ?_, ?_, ?_⟩
  · rw [Comparison.holds, hsame]
    rfl
  all_goals simp [Comparison.holds, Comparison.ordered, h]

theorem exists_ordered (ha : a.exactValue? = some u) (hb : b.exactValue? = some w) :
    ∃ o, a.Ordered b o ∧ (¬ a.Blurred b → o = cmp u w) ∧ (a.Blurred b → o = .eq) := by
  by_cases h : a.Blurred b
  · exact ⟨.eq, ordered_of_compare? ha hb (compare?_of_blurred ha hb h), fun hnot => absurd h hnot,
      fun _ => rfl⟩
  · exact ⟨cmp u w, ordered_of_compare? ha hb (compare?_of_not_blurred ha hb h), fun _ => rfl,
      fun hblurred => absurd hblurred h⟩

theorem less_eq_true_iff : Comparison.less.holds a b = true ↔ a.compare? b = some .lt := by
  rw [Comparison.holds, Comparison.ordered]
  rcases a.compare? b with _ | (_ | _ | _) <;> simp

theorem lt_of_less (ha : a.exactValue? = some u) (hb : b.exactValue? = some w)
    (h : Comparison.less.holds a b = true) : u < w := by
  rw [less_eq_true_iff] at h
  by_cases hblurred : a.Blurred b
  · cases h.symm.trans (compare?_of_blurred ha hb hblurred)
  · have hcmp := h.symm.trans (compare?_of_not_blurred ha hb hblurred)
    exact (cmp_eq_lt_iff u w).1 (Option.some.inj hcmp).symm

theorem rank_lt_of_less (ha : a.exactValue? = some u) (hb : b.exactValue? = some w)
    (hdouble : ∀ m n, ¬ (a = integer m ∧ b = integer n))
    (h : Comparison.less.holds a b = true) : a.rank < b.rank := by
  rw [less_eq_true_iff, compare?_eq_rank ha hb hdouble, Option.some.injEq] at h
  exact compare_lt_iff_lt.1 h

/-- The order of numbers of both kinds is transitive. -/
theorem less_trans (ha : a.exactValue? = some u) (hb : b.exactValue? = some w)
    (hc : c.exactValue? = some z) (hab : Comparison.less.holds a b = true)
    (hbc : Comparison.less.holds b c = true) : Comparison.less.holds a c = true := by
  have huw := lt_of_less ha hb hab
  have hwz := lt_of_less hb hc hbc
  by_cases hblurred : a.Blurred c
  · -- All three would be rounded to one double, which leaves no place for a double among them.
    have hrank := hblurred.rank_eq ha hc
    have hleft := rank_mono ha hb huw.le
    have hright := rank_mono hb hc hwz.le
    obtain ⟨m, n, rfl, rfl⟩ : ∃ m n, a = integer m ∧ b = integer n := by
      by_contra hdouble
      have := rank_lt_of_less ha hb (fun m n h => hdouble ⟨m, n, h⟩) hab
      omega
    obtain ⟨m', k, -, rfl⟩ : ∃ m k, integer n = integer m ∧ c = integer k := by
      by_contra hdouble
      have := rank_lt_of_less hb hc (fun m n h => hdouble ⟨m, n, h⟩) hbc
      omega
    cases hblurred
  · rw [less_eq_true_iff, compare?_of_not_blurred ha hc hblurred,
      (cmp_eq_lt_iff u z).2 (huw.trans hwz)]

theorem lessOrEqual_of_le (ha : a.exactValue? = some u) (hb : b.exactValue? = some w) (h : u ≤ w) :
    Comparison.lessOrEqual.holds a b = true := by
  obtain ⟨o, ho, hexact, hrounded⟩ := exists_ordered ha hb
  rw [ho.lessOrEqual]
  by_cases hblurred : a.Blurred b
  · rw [hrounded hblurred]
    rfl
  · rw [hexact hblurred]
    rcases h.lt_or_eq with hlt | rfl
    · rw [(cmp_eq_lt_iff u w).2 hlt]
      rfl
    · rw [cmp_self_eq_eq]
      rfl

theorem le_of_lessOrEqual (ha : a.exactValue? = some u) (hb : b.exactValue? = some w)
    (hnot : ¬ a.Blurred b) (h : Comparison.lessOrEqual.holds a b = true) : u ≤ w := by
  obtain ⟨o, ho, hexact, -⟩ := exists_ordered ha hb
  rw [ho.lessOrEqual, hexact hnot] at h
  by_contra hless
  rw [(cmp_eq_gt_iff u w).2 (not_le.1 hless)] at h
  cases h

/-- Two numbers, neither of them not a number, compare by their exact values, unless one is an
integer of more than 53 bits and the other one a double near to it, to which it is rounded: these
tie. The other way round they are in the opposite order, and the guards agree with the order. Less
is transitive; so is less or equal where it does not go by a tie of different numbers. -/
theorem order_of_numbers (ha : a.exactValue? = some u) (hb : b.exactValue? = some w)
    (hc : c.exactValue? = some z) :
    (∃ o, a.Ordered b o ∧ (¬ a.Blurred b → o = cmp u w) ∧ (a.Blurred b → o = .eq)) ∧
    (a.Blurred b → ∃ (n : Int64) (r : ℚ),
      (u = .ofRat n.toInt ∧ w = .ofRat r ∨
        u = .ofRat r ∧ w = .ofRat n.toInt) ∧
      r ≠ n.toInt ∧ 2 ^ 53 < n.toInt.natAbs ∧ 2 ^ 53 * |r - n.toInt| ≤ n.toInt.natAbs) ∧
    (Comparison.less.holds a b = true → Comparison.less.holds b c = true →
      Comparison.less.holds a c = true) ∧
    (¬ a.Blurred b → ¬ b.Blurred c → Comparison.lessOrEqual.holds a b = true →
      Comparison.lessOrEqual.holds b c = true → Comparison.lessOrEqual.holds a c = true) := by
  refine ⟨exists_ordered ha hb, fun h => h.near ha hb, less_trans ha hb hc, ?_⟩
  intro hab hbc hle hle'
  exact lessOrEqual_of_le ha hc
    ((le_of_lessOrEqual ha hb hab hle).trans (le_of_lessOrEqual hb hc hbc hle'))

/-- The least integer that is no double ties with the double below it, to which it is rounded, and
that double ties with its own integer, but the two integers do not tie. -/
theorem order_of_numbers_rounded :
    let a : Value := .integer 9007199254740993
    let b : Value := .float (.ofBits 0x4340000000000000)
    let c : Value := .integer 9007199254740992
    a.exactValue? = some (.ofRat 9007199254740993) ∧
      b.exactValue? = some (.ofRat 9007199254740992) ∧ a.Blurred b ∧
      a.Ordered b .eq ∧ b.Ordered c .eq ∧ a.Ordered c .gt := by
  intro a b c
  let x : Binary64 := .ofBits 0x4340000000000000
  have hm : (9007199254740993 : Int64).toInt = 9007199254740993 := by decide
  have hn : (9007199254740992 : Int64).toInt = 9007199254740992 := by decide
  have hx : x = Binary64.ofInt 9007199254740992 := by decide +kernel
  have hrounded : x = Binary64.ofInt 9007199254740993 := by decide +kernel
  have hnan : x.isNaN = false := by decide
  have hfinite := Binary64.magnitude_ofInt_lt (n := 9007199254740992) (by decide)
  have hexact : x.exactValue = .ofRat 9007199254740992 := by
    rw [hx, Binary64.exactValue_of_finite hfinite, Binary64.signed_ofInt (by decide)]
    norm_num
  have ha : a.exactValue? = some (.ofRat 9007199254740993) := by simp [a, exactValue?, hm]
  have hb : (float x).exactValue? = some (.ofRat 9007199254740992) := by
    rw [exactValue?, hnan, hexact]
    rfl
  have hc : c.exactValue? = some (.ofRat 9007199254740992) := by simp [c, exactValue?, hn]
  have hless : ExtendedRat.ofRat 9007199254740992 < .ofRat 9007199254740993 := by
    rw [WithBot.coe_lt_coe, WithTop.coe_lt_coe]
    norm_num
  have hab : Blurred (integer 9007199254740993) (float x) := by
    refine .left (congrArg Binary64.exactValue (hm.symm ▸ hrounded)) ?_
    rw [hexact, hm]
    exact_mod_cast hless.ne
  have hbc : ¬ Blurred (float x) (integer 9007199254740992) := by
    rintro (_ | ⟨-, hnot⟩)
    exact hnot (by rw [hexact, hn, Int.cast_ofNat])
  have hac : ¬ Blurred (integer 9007199254740993) (integer 9007199254740992) := nofun
  obtain ⟨o, htie, -, heq⟩ := (order_of_numbers ha hb hc).1
  obtain ⟨o, hsame, heq', -⟩ := (order_of_numbers hb hc ha).1
  obtain ⟨o, hmore, hgt, -⟩ := (order_of_numbers ha hc hb).1
  rw [heq hab] at htie
  rw [heq' hbc, cmp_self_eq_eq] at hsame
  rw [hgt hac, (cmp_eq_gt_iff _ _).2 hless] at hmore
  exact ⟨ha, hb, hab, htie, hsame, hmore⟩

end Value
end FactGraph
