import FactGraph.Proofs.Ties

/-!
# Rounding keeps the order of numbers

A greater number is not rounded to a lesser double (`rounded_mono`), and the value of a double is
rounded to the double itself (`rounded_value`). So doubles are ordered by their ranks as they are by
their exact values (`exactValue_le_exactValue_iff`), and a number that is not above a double is not
rounded to one above it (`nearestRank_le_rank`).

What an integer is rounded to differs from it by one part in `2 ^ 53` at most (`signed_ofInt_near`),
and up to `2 ^ 53` not at all (`signed_ofInt`).
-/

namespace FactGraph

/-- A rational number or one of two infinities, below all numbers and above them. -/
abbrev ExtendedRat := WithBot (WithTop ℚ)

/-- A rational number among those and the infinities. -/
abbrev ExtendedRat.ofRat (q : ℚ) : ExtendedRat := WithBot.some (WithTop.some q)

namespace Binary64

variable {q r : ℚ} {x y : Binary64} {m : Nat} {n e : Int}

/-! ## Rounding is monotone -/

theorem floor_le_nearest (q : ℚ) : ⌊q⌋₊ ≤ nearest q := by
  rw [nearest]
  split_ifs <;> omega

theorem nearest_le_succ_floor (q : ℚ) : nearest q ≤ ⌊q⌋₊ + 1 := by
  rw [nearest]
  split_ifs <;> omega

theorem nearest_mono : Monotone nearest := by
  intro q r h
  rcases (Nat.floor_mono h).lt_or_eq with hlt | heq
  · calc nearest q ≤ ⌊q⌋₊ + 1 := nearest_le_succ_floor q
      _ ≤ ⌊r⌋₊ := hlt
      _ ≤ nearest r := floor_le_nearest r
  · -- Between the same two neighbours the fractions are in the same order.
    have hfraction : q - ⌊r⌋₊ ≤ r - ⌊r⌋₊ := sub_le_sub_right h _
    rw [nearest, nearest, heq]
    split_ifs <;> first | omega | (exfalso; linarith)

theorem nearest_natCast (m : Nat) : nearest m = m := nearest_of_near (by simp)

/-- In units in which it has 53 bits before the point or fewer, a number is below `2 ^ 53`. -/
theorem scaled_lt (he : Int.log 2 q - 52 ≤ e) : q / 2 ^ e < 2 ^ 53 := by
  have hlog : q < 2 ^ (Int.log 2 q + 1) := by exact_mod_cast Int.lt_zpow_succ_log_self one_lt_two q
  rw [div_lt_iff₀ (by positivity)]
  calc q < 2 ^ (Int.log 2 q + 1) := hlog
    _ ≤ 2 ^ (53 + e) := zpow_le_zpow_right₀ one_le_two (by omega)
    _ = 2 ^ 53 * 2 ^ e := zpow_add₀ two_ne_zero _ _

/-- In units in which it has 53 bits before the point or more, a number is not below `2 ^ 52`. -/
theorem le_scaled (hq : 0 < q) (he : e ≤ Int.log 2 q - 52) : 2 ^ 52 ≤ q / 2 ^ e := by
  have hlog : (2 : ℚ) ^ Int.log 2 q ≤ q := by exact_mod_cast Int.zpow_log_le_self one_lt_two hq
  rw [le_div_iff₀ (by positivity)]
  calc (2 : ℚ) ^ 52 * 2 ^ e = 2 ^ (52 + e) := (zpow_add₀ two_ne_zero _ _).symm
    _ ≤ 2 ^ Int.log 2 q := zpow_le_zpow_right₀ one_le_two (by omega)
    _ ≤ q := hlog

theorem rounded_mono (hq : 0 ≤ q) (h : q ≤ r) : rounded q ≤ rounded r := by
  rcases hq.eq_or_lt with rfl | hq
  · simp [rounded]
  have hr : 0 < r := hq.trans_le h
  have hlog : Int.log 2 q ≤ Int.log 2 r := Int.log_mono_right hq h
  rw [rounded, rounded, if_neg hq.ne', if_neg hr.ne']
  dsimp only
  refine min_le_min_left _ ?_
  generalize he : max (Int.log 2 q - 52) (-1074) = e
  generalize he' : max (Int.log 2 r - 52) (-1074) = e'
  have hee' : e ≤ e' := by omega
  rcases hee'.eq_or_lt with rfl | hlt
  · exact Nat.add_le_add_left (nearest_mono (div_le_div_of_nonneg_right h (by positivity))) _
  · -- In lesser units there are not more bits than one unit more makes up for.
    have hlow : nearest (q / 2 ^ e) ≤ 2 * leadingWeight :=
      nearest_le (by positivity) (by exact_mod_cast (scaled_lt (by omega)).le)
    have hhigh : leadingWeight ≤ nearest (r / 2 ^ e') :=
      le_nearest (by exact_mod_cast le_scaled hr (by omega))
    simp only [leadingWeight] at hlow hhigh ⊢
    omega

/-- The value of a double is rounded to the double. -/
theorem rounded_value (hfinite : x.magnitude < infinityMagnitude) :
    rounded x.value = x.magnitude := by
  rcases Nat.eq_zero_or_pos x.magnitude with hzero | hpos
  · have hvalue : x.value = 0 := by simp [value, significand, hzero]
    simp [rounded, hvalue, hzero]
  · refine rounded_of_near hpos hfinite ?_
    have := value_pos hpos
    simp only [sub_self, abs_zero]
    positivity

theorem value_nonneg (x : Binary64) : 0 ≤ x.value := by
  rw [value]
  positivity

/-! ## What is rounded to a double -/

theorem value_of_magnitude_eq (he : -1074 ≤ e) (hm : m ≤ 2 * leadingWeight)
    (hfull : leadingWeight ≤ m ∨ e = -1074)
    (hx : x.magnitude = (e + 1074).toNat * leadingWeight + m) : x.value = m * 2 ^ e := by
  rcases hm.lt_or_eq with hlt | rfl
  · have hparts : x.significand = m ∧ x.exponent = e := by
      simp only [significand, exponent, leadingWeight] at *
      split <;> omega
    rw [value, hparts.1, hparts.2]
  · -- With one bit more, it is the leading weight in units twice as great.
    have hparts : x.significand = leadingWeight ∧ x.exponent = e + 1 := by
      simp only [significand, exponent, leadingWeight] at *
      split <;> omega
    rw [value, hparts.1, hparts.2, zpow_add_one₀ two_ne_zero]
    push_cast
    ring

/-- A number that is rounded to a finite double is near to the double's value, in units of its last
bit. -/
theorem value_of_rounded (hq : 0 < q) (hfinite : rounded q < infinityMagnitude)
    (hx : x.magnitude = rounded q) : ∃ e : Int, (e = Int.log 2 q - 52 ∨ e = -1074) ∧
      x.magnitude = (e + 1074).toNat * leadingWeight + nearest (q / 2 ^ e) ∧
        x.value = nearest (q / 2 ^ e) * 2 ^ e := by
  refine ⟨max (Int.log 2 q - 52) (-1074), by omega, ?_⟩
  rw [rounded, if_neg hq.ne'] at hfinite hx
  dsimp only at hfinite hx
  generalize he : max (Int.log 2 q - 52) (-1074) = e at *
  rw [min_eq_right (min_lt_iff.1 hfinite |>.resolve_left (lt_irrefl _)).le] at hx
  refine ⟨hx, value_of_magnitude_eq (by omega) ?_ ?_ hx⟩
  · exact nearest_le (by positivity) (by exact_mod_cast (scaled_lt (by omega)).le)
  · by_cases hleast : e = -1074
    · exact .inr hleast
    · exact .inl (le_nearest (by exact_mod_cast le_scaled hq (by omega)))

theorem log_nonneg (hq : 1 ≤ q) : 0 ≤ Int.log 2 q := by
  rw [← Int.zpow_le_iff_le_log one_lt_two (by linarith)]
  simpa using hq

/-- A number from one on differs from what it is rounded to by one part in `2 ^ 53` at most. -/
theorem value_near (hq : 1 ≤ q) (hfinite : rounded q < infinityMagnitude)
    (hx : x.magnitude = rounded q) : 2 ^ 53 * |x.value - q| ≤ q := by
  have hpos : 0 < q := by linarith
  obtain ⟨e, he, -, hvalue⟩ := value_of_rounded hpos hfinite hx
  have hlog := log_nonneg hq
  have hunit : (0 : ℚ) < 2 ^ e := by positivity
  have hscaled : 2 ^ 52 ≤ q / 2 ^ e := le_scaled hpos (by omega)
  have hnear := nearest_near (q := q / 2 ^ e) (by positivity)
  have hdiff : |x.value - q| = |(nearest (q / 2 ^ e) : ℚ) - q / 2 ^ e| * 2 ^ e := by
    rw [hvalue, ← abs_of_pos hunit, ← abs_mul, abs_of_pos hunit, sub_mul,
      div_mul_cancel₀ q hunit.ne']
  rw [le_div_iff₀ hunit] at hscaled
  rw [hdiff]
  nlinarith

/-- A natural number up to `2 ^ 53` is a double. -/
theorem value_natCast (hpos : 0 < m) (hm : m ≤ 2 ^ 53) (hfinite : rounded m < infinityMagnitude)
    (hx : x.magnitude = rounded m) : x.value = m := by
  have hq : (0 : ℚ) < m := by exact_mod_cast hpos
  obtain ⟨e, he, -, hvalue⟩ := value_of_rounded hq hfinite hx
  have hlog := log_nonneg (q := m) (by exact_mod_cast hpos)
  have hscaled : 2 ^ 52 ≤ (m : ℚ) / 2 ^ e := le_scaled hq (by omega)
  -- In units of its last bit it is a natural number.
  obtain ⟨k, hk⟩ : ∃ k : Nat, (m : ℚ) / 2 ^ e = k := by
    rcases le_or_gt e 0 with hneg | hlast
    · obtain ⟨k, rfl⟩ : ∃ k : Nat, e = -k := ⟨(-e).toNat, by omega⟩
      exact ⟨m * 2 ^ k, by simp⟩
    · have hle : (m : ℚ) ≤ 2 ^ 53 := by exact_mod_cast hm
      rw [le_div_iff₀ (by positivity)] at hscaled
      have htwo : (2 : ℚ) ^ e ≤ 2 ^ (1 : Int) := by
        rw [zpow_one]
        linarith
      obtain rfl : e = 1 := by
        have := (zpow_le_zpow_iff_right₀ one_lt_two).1 htwo
        omega
      rw [zpow_one] at hscaled ⊢
      exact ⟨2 ^ 52, by push_cast; linarith⟩
  rw [hvalue, hk, nearest_natCast, ← hk, div_mul_cancel₀ _ (by positivity)]

/-! ## Signs -/

/-- The value of a finite double. -/
def signed (x : Binary64) : ℚ := if x.isNegative then -x.value else x.value

/-- The rank of the double nearest to a number. -/
def nearestRank (q : ℚ) : Int := if q < 0 then -(rounded (-q) : Int) else rounded q

theorem nearestRank_mono : Monotone nearestRank := by
  intro q r h
  simp only [nearestRank]
  split_ifs with hq hr hr
  · have := rounded_mono (q := -r) (r := -q) (by linarith) (by linarith)
    omega
  · omega
  · linarith
  · exact_mod_cast rounded_mono (not_lt.1 hq) h

theorem nearestRank_signed (hfinite : x.magnitude < infinityMagnitude) :
    nearestRank x.signed = x.rank := by
  have hnonneg := x.value_nonneg
  have hrounded := rounded_value hfinite
  rw [nearestRank, signed, rank]
  split_ifs with hneg hless hless
  · rw [neg_neg, hrounded]
  · have hzero : x.value = 0 := by linarith
    rw [hzero] at hrounded ⊢
    simp [← hrounded, rounded]
  · linarith
  · rw [hrounded]

theorem rounded_le (q : ℚ) : rounded q ≤ infinityMagnitude := by
  rw [rounded]
  split_ifs
  · exact Nat.zero_le _
  · exact min_le_left _ _

theorem bits_ofMagnitude (negative : Bool) (hm : m ≤ infinityMagnitude) :
    (ofMagnitude negative m).bits.toNat = if negative then signWeight + m else m := by
  have hbits : (UInt64.ofNat (if negative then signWeight + m else m)).toNat =
      if negative then signWeight + m else m := by
    rw [UInt64.toNat_ofNat']
    refine Nat.mod_eq_of_lt ?_
    simp only [infinityMagnitude, signWeight] at *
    split <;> omega
  have hnan : ¬ IsNaNBits (UInt64.ofNat (if negative then signWeight + m else m)) := by
    rw [IsNaNBits, hbits]
    simp only [infinityMagnitude, signWeight] at *
    split <;> omega
  rw [ofMagnitude, bits_ofBits_of_not_nan hnan, hbits]

theorem rank_ofMagnitude (negative : Bool) (hm : m ≤ infinityMagnitude) :
    (ofMagnitude negative m).rank = if negative then -(m : Int) else m := by
  have hbits := bits_ofMagnitude negative hm
  simp only [rank, isNegative, magnitude, hbits, infinityMagnitude, signWeight] at *
  cases negative <;> simp <;> omega

theorem magnitude_ofMagnitude (negative : Bool) (hm : m ≤ infinityMagnitude) :
    (ofMagnitude negative m).magnitude = m := by
  have hbits := bits_ofMagnitude negative hm
  simp only [magnitude, hbits, infinityMagnitude, signWeight] at *
  cases negative <;> simp <;> omega

theorem isNegative_ofMagnitude (negative : Bool) (hm : m ≤ infinityMagnitude) :
    (ofMagnitude negative m).isNegative = negative := by
  have hbits := bits_ofMagnitude negative hm
  simp only [isNegative, hbits, infinityMagnitude, signWeight] at *
  cases negative with
  | false => simpa using by omega
  | true => simp

/-! ## Integers -/

theorem round_natAbs (n : Int) : round n.natAbs 1 = rounded (n.natAbs : ℚ) := by
  rw [round_eq _ Nat.one_pos, Nat.cast_one, div_one]

theorem rank_ofInt (n : Int) : (ofInt n).rank = nearestRank n := by
  rw [ofInt, round_natAbs, rank_ofMagnitude _ (rounded_le _), nearestRank]
  rcases lt_or_ge n 0 with hneg | hpos
  · have hcast : (n : ℚ) < 0 := by exact_mod_cast hneg
    have habs : ((n.natAbs : Nat) : ℚ) = -n := by
      rw [Nat.cast_natAbs, abs_of_neg hneg, Int.cast_neg]
    simp [hneg, hcast, habs]
  · have hcast : ¬ (n : ℚ) < 0 := by exact_mod_cast not_lt.2 hpos
    have habs : ((n.natAbs : Nat) : ℚ) = n := by
      rw [Nat.cast_natAbs, abs_of_nonneg hpos]
    simp [not_lt.2 hpos, hcast, habs]

theorem magnitude_ofInt (n : Int) : (ofInt n).magnitude = rounded (n.natAbs : ℚ) := by
  rw [ofInt, round_natAbs, magnitude_ofMagnitude _ (rounded_le _)]

/-- Integers that a word can hold are rounded to finite doubles. -/
theorem magnitude_ofInt_lt (hn : n.natAbs ≤ 2 ^ 63) : (ofInt n).magnitude < infinityMagnitude := by
  have hbound : rounded ((2 ^ 63 : Nat) : ℚ) < infinityMagnitude := by
    have hround := round_eq (2 ^ 63) Nat.one_pos
    rw [Nat.cast_one, div_one] at hround
    rw [← hround]
    decide +kernel
  rw [magnitude_ofInt]
  exact (rounded_mono (by positivity) (by exact_mod_cast hn)).trans_lt hbound

theorem isNegative_ofInt (n : Int) : (ofInt n).isNegative = decide (n < 0) := by
  rw [ofInt, round_natAbs, isNegative_ofMagnitude _ (rounded_le _)]

/-- An integer and what it is rounded to have one sign. -/
theorem signed_ofInt_sub (n : Int) :
    |(ofInt n).signed - n| = |(ofInt n).value - (n.natAbs : ℚ)| := by
  rw [signed, isNegative_ofInt, Nat.cast_natAbs]
  rcases lt_or_ge n 0 with hneg | hpos
  · rw [decide_eq_true hneg, if_pos rfl, abs_of_neg hneg, ← abs_neg]
    congr 1
    push_cast
    ring
  · rw [decide_eq_false (not_lt.2 hpos), if_neg Bool.false_ne_true, abs_of_nonneg hpos]

theorem signed_ofInt_zero : (ofInt 0).signed = 0 := by
  have hmagnitude : (ofInt 0).magnitude = 0 := by decide
  simp [signed, value, significand, hmagnitude]

/-- An integer differs from what it is rounded to by one part in `2 ^ 53` at most. -/
theorem signed_ofInt_near (hn : n.natAbs ≤ 2 ^ 63) :
    2 ^ 53 * |(ofInt n).signed - n| ≤ (n.natAbs : ℚ) := by
  rcases Nat.eq_zero_or_pos n.natAbs with hzero | hpos
  · rw [Int.natAbs_eq_zero] at hzero
    simp [hzero, signed_ofInt_zero]
  · have hfinite := magnitude_ofInt_lt hn
    rw [magnitude_ofInt] at hfinite
    rw [signed_ofInt_sub]
    exact value_near (by exact_mod_cast hpos) hfinite (magnitude_ofInt n)

/-- An integer up to `2 ^ 53` is a double. -/
theorem signed_ofInt (hn : n.natAbs ≤ 2 ^ 53) : (ofInt n).signed = n := by
  rcases Nat.eq_zero_or_pos n.natAbs with hzero | hpos
  · rw [Int.natAbs_eq_zero] at hzero
    rw [hzero, signed_ofInt_zero, Int.cast_zero]
  · have hfinite := magnitude_ofInt_lt (n := n) (by omega)
    rw [magnitude_ofInt] at hfinite
    have hvalue := value_natCast hpos hn hfinite (magnitude_ofInt n)
    have hsub := signed_ofInt_sub n
    rw [hvalue, sub_self, abs_zero, abs_eq_zero, sub_eq_zero] at hsub
    exact hsub

theorem isNaN_ofInt (n : Int) : (ofInt n).isNaN = false := by
  rw [isNaN, magnitude_ofInt, decide_eq_false_iff_not, not_lt]
  exact rounded_le _

/-! ## Exact values -/

/-- The exact value of a double that is a number; the infinities are at the ends. -/
def exactValue (x : Binary64) : ExtendedRat :=
  if x.isInfinite then if x.isNegative then ⊥ else ⊤ else .ofRat x.signed

theorem exactValue_of_finite (hx : x.magnitude < infinityMagnitude) :
    x.exactValue = .ofRat x.signed := by
  have hinfinite : x.isInfinite = false := beq_eq_false_iff_ne.2 hx.ne
  simp [exactValue, hinfinite]

theorem exactValue_of_infinite (hx : x.magnitude = infinityMagnitude) :
    x.exactValue = if x.isNegative then ⊥ else ⊤ := by
  have hinfinite : x.isInfinite = true := beq_iff_eq.2 hx
  simp [exactValue, hinfinite]

theorem exactValue_zero (negative : Bool) : (zero negative).exactValue = .ofRat 0 := by
  have hmagnitude : (zero negative).magnitude = 0 := magnitude_ofMagnitude negative (Nat.zero_le _)
  rw [exactValue_of_finite (by rw [hmagnitude]; decide)]
  simp [signed, value, significand, hmagnitude]

theorem exactValue_eq_of_rank_eq (h : x.rank = y.rank) : x.exactValue = y.exactValue := by
  by_cases hzero : x.rank = 0
  · rw [eq_zero_of_rank_eq hzero, eq_zero_of_rank_eq (h.symm.trans hzero), exactValue_zero,
      exactValue_zero]
  · rw [eq_of_rank_eq h hzero]

theorem magnitude_cases (hx : x.isNaN = false) :
    x.magnitude < infinityMagnitude ∨ x.magnitude = infinityMagnitude :=
  (not_lt.1 (of_decide_eq_false hx)).lt_or_eq

theorem abs_nearestRank_le (q : ℚ) :
    -(infinityMagnitude : Int) ≤ nearestRank q ∧ nearestRank q ≤ infinityMagnitude := by
  have hlow := rounded_le (-q)
  have hhigh := rounded_le q
  rw [nearestRank]
  split_ifs <;> omega

/-- A number that is not above a double is not rounded to one above it. -/
theorem nearestRank_le_rank (hx : x.isNaN = false) (h : .ofRat q ≤ x.exactValue) :
    nearestRank q ≤ x.rank := by
  rcases magnitude_cases hx with hfinite | hinfinite
  · rw [exactValue_of_finite hfinite, WithBot.coe_le_coe, WithTop.coe_le_coe] at h
    rw [← nearestRank_signed hfinite]
    exact nearestRank_mono h
  · rw [exactValue_of_infinite hinfinite] at h
    rw [rank, hinfinite]
    split_ifs at h ⊢
    · simp at h
    · exact (abs_nearestRank_le q).2

/-- A number that is not below a double is not rounded to one below it. -/
theorem rank_le_nearestRank (hx : x.isNaN = false) (h : x.exactValue ≤ .ofRat q) :
    x.rank ≤ nearestRank q := by
  rcases magnitude_cases hx with hfinite | hinfinite
  · rw [exactValue_of_finite hfinite, WithBot.coe_le_coe, WithTop.coe_le_coe] at h
    rw [← nearestRank_signed hfinite]
    exact nearestRank_mono h
  · rw [exactValue_of_infinite hinfinite] at h
    rw [rank, hinfinite]
    split_ifs at h ⊢
    · exact (abs_nearestRank_le q).1
    · simp at h

theorem neg_le_rank (hx : x.isNaN = false) : -(infinityMagnitude : Int) ≤ x.rank := by
  have hle := not_lt.1 (of_decide_eq_false hx)
  rw [rank]
  split_ifs <;> omega

theorem rank_of_exactValue_eq_top (hx : x.isNaN = false) (h : x.exactValue = ⊤) :
    x.rank = infinityMagnitude := by
  rcases magnitude_cases hx with hfinite | hinfinite
  · rw [exactValue_of_finite hfinite] at h
    exact absurd (WithBot.coe_inj.1 h) WithTop.coe_ne_top
  · rw [exactValue_of_infinite hinfinite] at h
    rw [rank, hinfinite]
    split_ifs at h ⊢
    · simp at h
    · rfl

/-- Doubles that are numbers are ordered by their ranks as by their exact values. -/
theorem exactValue_le_exactValue_iff (hx : x.isNaN = false) (hy : y.isNaN = false) :
    x.exactValue ≤ y.exactValue ↔ x.rank ≤ y.rank := by
  have hmono {x y : Binary64} (hx : x.isNaN = false) (hy : y.isNaN = false)
      (h : x.exactValue ≤ y.exactValue) : x.rank ≤ y.rank := by
    rcases magnitude_cases hx with hfinite | hinfinite
    · rw [exactValue_of_finite hfinite] at h
      rw [← nearestRank_signed hfinite]
      exact nearestRank_le_rank hy h
    · rw [exactValue_of_infinite hinfinite] at h
      rw [rank, hinfinite]
      split_ifs at h ⊢
      · exact neg_le_rank hy
      · exact (rank_of_exactValue_eq_top hy (top_le_iff.1 h)).ge
  refine ⟨hmono hx hy, fun h => ?_⟩
  by_contra hless
  have hback := hmono hy hx (not_le.1 hless).le
  exact hless (exactValue_eq_of_rank_eq (le_antisymm h hback)).le

theorem rank_eq_of_exactValue_eq (hx : x.isNaN = false) (hy : y.isNaN = false)
    (h : x.exactValue = y.exactValue) : x.rank = y.rank :=
  le_antisymm ((exactValue_le_exactValue_iff hx hy).1 h.le)
    ((exactValue_le_exactValue_iff hy hx).1 h.ge)

end Binary64
end FactGraph
