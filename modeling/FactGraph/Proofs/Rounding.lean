import Mathlib
import FactGraph.Binary64.Decimal

/-!
# Rounding to doubles

What rounding does to a quotient is a function of its value (`round_eq`), a rational number. A
number that differs from a positive finite double by less than one part in `2 ^ 54` is rounded to
the double (`rounded_of_near`), since the middle between the double and its neighbour is at least
that far away on either side.

Whether rounding stays in range tells the normal doubles from those below them: from the least
normal double on it stays in range (`inRange_of_le`), and what is rounded to a double below does
not, unless it is a quotient by a power of two (`not_inRange`).
-/

namespace FactGraph.Binary64

variable {n d a b m : Nat} {e : Int} {q : ℚ} {x : Binary64}

/-! ## Quotients as rational numbers -/

theorem scaleDown_pos (hd : 0 < d) (e : Int) : 0 < (scaleDown n d e).2 := by
  rw [scaleDown]
  split
  · exact Nat.mul_pos hd (Nat.two_pow_pos _)
  · exact hd

theorem scaleDown_div (n d : Nat) (e : Int) :
    ((scaleDown n d e).1 : ℚ) / (scaleDown n d e).2 = n / d / 2 ^ e := by
  rw [scaleDown]
  split
  · next h =>
    obtain ⟨k, rfl⟩ := Int.eq_ofNat_of_zero_le h
    have hpow : ((Nat.pow 2 k : Nat) : ℚ) = 2 ^ k := by norm_cast
    simp only [Int.toNat_natCast, Nat.cast_mul, hpow, zpow_natCast]
    rw [div_div]
  · next h =>
    obtain ⟨k, rfl⟩ : ∃ k : Nat, e = -k := ⟨(-e).toNat, by omega⟩
    have hpow : ((Nat.pow 2 k : Nat) : ℚ) = 2 ^ k := by norm_cast
    simp only [neg_neg, Int.toNat_natCast, Nat.cast_mul, hpow, zpow_neg, zpow_natCast]
    rw [div_inv_eq_mul]
    ring

/-- The natural number nearest to a number, the even one of two that are equally near. -/
def nearest (q : ℚ) : Nat :=
  if q - ⌊q⌋₊ < 1 / 2 then ⌊q⌋₊
  else if 1 / 2 < q - ⌊q⌋₊ then ⌊q⌋₊ + 1
  else if ⌊q⌋₊ % 2 = 0 then ⌊q⌋₊ else ⌊q⌋₊ + 1

theorem roundQuotient_eq (a : Nat) (hb : 0 < b) : roundQuotient a b = nearest (a / b) := by
  have hb' : (0 : ℚ) < b := by exact_mod_cast hb
  have hfloor : ⌊(a : ℚ) / b⌋₊ = a / b := Nat.floor_div_eq_div a b
  have hfraction : (a : ℚ) / b - (a / b : Nat) = ((a % b : Nat) : ℚ) / b := by
    have hsplit : (a : ℚ) = b * (a / b : Nat) + (a % b : Nat) := by
      exact_mod_cast (Nat.div_add_mod a b).symm
    field_simp
    linarith
  have hless : ((a % b : Nat) : ℚ) / b < 1 / 2 ↔ 2 * (a % b) < b := by
    rw [div_lt_iff₀ hb', ← Nat.cast_lt (α := ℚ), Nat.cast_mul, Nat.cast_two]
    constructor <;> intro h <;> linarith
  have hmore : 1 / 2 < ((a % b : Nat) : ℚ) / b ↔ b < 2 * (a % b) := by
    rw [lt_div_iff₀ hb', ← Nat.cast_lt (α := ℚ), Nat.cast_mul, Nat.cast_two]
    constructor <;> intro h <;> linarith
  simp only [roundQuotient, nearest, hfloor, hfraction, hless, hmore]

/-- What is within one half of a natural number is rounded to it. -/
theorem nearest_of_near (h : |q - m| < 1 / 2) : nearest q = m := by
  obtain ⟨hlow, hhigh⟩ := abs_lt.1 h
  have hfloor : (⌊q⌋₊ : ℚ) < m + 1 := by
    by_cases hq : 0 ≤ q
    · linarith [Nat.floor_le hq]
    · rw [Nat.floor_of_nonpos (by linarith)]
      positivity
  have hceil := Nat.lt_floor_add_one q
  rw [nearest]
  split
  · next hless =>
    have h₁ : ⌊q⌋₊ < m + 1 := by exact_mod_cast hfloor
    have h₂ : m < ⌊q⌋₊ + 1 := by
      have : (m : ℚ) < ⌊q⌋₊ + 1 := by linarith
      exact_mod_cast this
    omega
  · have hmore : (⌊q⌋₊ : ℚ) < m := by linarith
    have h₁ : ⌊q⌋₊ < m := by exact_mod_cast hmore
    have h₂ : m < ⌊q⌋₊ + 2 := by
      have : (m : ℚ) < ⌊q⌋₊ + 2 := by linarith
      exact_mod_cast this
    split
    · omega
    · next hless hmore =>
      -- The middle between two neighbours is not within one half of either.
      have : (⌊q⌋₊ : ℚ) + 1 ≤ m := by exact_mod_cast h₁
      linarith

/-- A number that is not negative is rounded to something within one half of it. -/
theorem nearest_near (hq : 0 ≤ q) : |(nearest q : ℚ) - q| ≤ 1 / 2 := by
  have hlow := Nat.floor_le hq
  have hhigh := Nat.lt_floor_add_one q
  rw [nearest, abs_le]
  split
  · constructor <;> linarith
  · split
    · push_cast
      constructor <;> linarith
    · split
      · constructor <;> linarith
      · push_cast
        constructor <;> linarith

theorem nearest_le (hq : 0 ≤ q) (h : q ≤ m) : nearest q ≤ m := by
  have hnear := (abs_le.1 (nearest_near hq)).2
  have : (nearest q : ℚ) < m + 1 := by linarith
  exact Nat.le_of_lt_succ (by exact_mod_cast this)

theorem le_nearest (h : m ≤ q) : m ≤ nearest q := by
  have hnear := (abs_le.1 (nearest_near (m.cast_nonneg.trans h))).1
  have : (m : ℚ) < nearest q + 1 := by linarith
  exact Nat.le_of_lt_succ (by exact_mod_cast this)

/-! ## The power of two in front -/

/-- A quotient lies within one power of two of the quotient of the powers of two below its parts. -/
theorem quotient_bounds (hn : 0 < n) (hd : 0 < d) :
    (2 : ℚ) ^ ((n.log2 : Int) - d.log2 - 1) < n / d ∧
      (n : ℚ) / d < 2 ^ ((n.log2 : Int) - d.log2 + 1) := by
  have hd' : (0 : ℚ) < d := by exact_mod_cast hd
  have hnlow : (2 : ℚ) ^ n.log2 ≤ n := by exact_mod_cast Nat.log2_self_le hn.ne'
  have hnhigh : (n : ℚ) < 2 ^ (n.log2 + 1) := by exact_mod_cast Nat.lt_log2_self
  have hdlow : (2 : ℚ) ^ d.log2 ≤ d := by exact_mod_cast Nat.log2_self_le hd.ne'
  have hdhigh : (d : ℚ) < 2 ^ (d.log2 + 1) := by exact_mod_cast Nat.lt_log2_self
  constructor
  · rw [lt_div_iff₀ hd']
    calc (2 : ℚ) ^ ((n.log2 : Int) - d.log2 - 1) * d
        < 2 ^ ((n.log2 : Int) - d.log2 - 1) * 2 ^ (d.log2 + 1) := by gcongr
      _ = 2 ^ n.log2 := by
        rw [← zpow_natCast, ← zpow_add₀ two_ne_zero, ← zpow_natCast]
        congr 1
        push_cast
        ring
      _ ≤ n := hnlow
  · rw [div_lt_iff₀ hd']
    calc (n : ℚ) < 2 ^ (n.log2 + 1) := hnhigh
      _ = 2 ^ ((n.log2 : Int) - d.log2 + 1) * 2 ^ d.log2 := by
        rw [← zpow_natCast, ← zpow_natCast, ← zpow_add₀ two_ne_zero]
        congr 1
        push_cast
        ring
      _ ≤ 2 ^ ((n.log2 : Int) - d.log2 + 1) * d := by gcongr

theorem unit_eq (hn : 0 < n) (hd : 0 < d) : unit n d = Int.log 2 ((n : ℚ) / d) - 52 := by
  have hq : (0 : ℚ) < n / d := by positivity
  obtain ⟨hlow, hhigh⟩ := quotient_bounds hn hd
  have hlog : (n.log2 : Int) - d.log2 - 1 ≤ Int.log 2 ((n : ℚ) / d) :=
    (Int.zpow_le_iff_le_log one_lt_two hq).1 (by exact_mod_cast hlow.le)
  have hlog' : Int.log 2 ((n : ℚ) / d) < (n.log2 : Int) - d.log2 + 1 :=
    (Int.lt_zpow_iff_log_lt one_lt_two hq).1 (by exact_mod_cast hhigh)
  generalize hbits : (n.log2 : Int) - d.log2 = l at hlog hlog'
  have hpos : (0 : ℚ) < (scaleDown n d (l - 52)).2 := by exact_mod_cast scaleDown_pos hd (l - 52)
  have hleading : (leadingWeight : ℚ) = 2 ^ (52 : Int) := by norm_num [leadingWeight]
  have hsplit : (scaleDown n d (l - 52)).1 < leadingWeight * (scaleDown n d (l - 52)).2 ↔
      Int.log 2 ((n : ℚ) / d) < l := by
    rw [← Int.lt_zpow_iff_log_lt one_lt_two hq, ← Nat.cast_lt (α := ℚ), Nat.cast_mul,
      ← div_lt_iff₀ hpos, scaleDown_div, div_lt_iff₀ (by positivity), hleading,
      ← zpow_add₀ two_ne_zero, add_sub_cancel]
    norm_cast
  rw [unit, hbits]
  dsimp only
  split
  · next h =>
    have := hsplit.1 h
    omega
  · next h =>
    have := mt hsplit.2 h
    omega

/-! ## Rounding -/

/-- The bits below the sign of the double nearest to a number that is not negative. -/
def rounded (q : ℚ) : Nat :=
  if q = 0 then 0
  else
    let e := max (Int.log 2 q - 52) (-1074)
    min infinityMagnitude ((e + 1074).toNat * leadingWeight + nearest (q / 2 ^ e))

theorem round_eq (n : Nat) (hd : 0 < d) : round n d = rounded (n / d) := by
  have hd' : (d : ℚ) ≠ 0 := by positivity
  rw [round, rounded]
  by_cases hn : n = 0
  · simp [hn]
  · have hq : (n : ℚ) / d ≠ 0 := div_ne_zero (by exact_mod_cast hn) hd'
    rw [if_neg hn, if_neg hq, unit_eq (Nat.pos_of_ne_zero hn) hd]
    dsimp only
    rw [roundQuotient_eq _ (scaleDown_pos hd _), scaleDown_div]

/-! ## Values of doubles -/

/-- The absolute value of a finite double. -/
def value (x : Binary64) : ℚ := x.significand * 2 ^ x.exponent

theorem magnitude_eq (x : Binary64) :
    x.magnitude = (x.exponent + 1074).toNat * leadingWeight + x.significand := by
  simp only [exponent, significand, leadingWeight]
  split <;> omega

theorem significand_pos (h : 0 < x.magnitude) : 0 < x.significand := by
  simp only [significand, leadingWeight]
  split <;> omega

theorem significand_lt (x : Binary64) : x.significand < 2 * leadingWeight := by
  simp only [significand, leadingWeight]
  split <;> omega

theorem neg_le_exponent (x : Binary64) : -1074 ≤ x.exponent := by
  simp only [exponent, leadingWeight]
  split <;> omega

/-- A double has 53 bits, unless its exponent is the least one. -/
theorem leadingWeight_le_significand (h : -1074 < x.exponent) : leadingWeight ≤ x.significand := by
  simp only [exponent, significand, leadingWeight] at h ⊢
  split at h
  · omega
  · rw [if_neg (by assumption)]
    omega

theorem exponent_le (h : x.magnitude < infinityMagnitude) : x.exponent ≤ 971 := by
  simp only [exponent, leadingWeight, infinityMagnitude] at h ⊢
  split <;> omega

theorem quotient_snd_pos (x : Binary64) : 0 < x.quotient.2 := scaleDown_pos Nat.one_pos _

theorem quotient_div (x : Binary64) : (x.quotient.1 : ℚ) / x.quotient.2 = x.value := by
  rw [quotient, scaleDown_div, value, Nat.cast_one, div_one, zpow_neg, div_inv_eq_mul]

theorem value_pos (h : 0 < x.magnitude) : 0 < x.value := by
  have : (0 : ℚ) < x.significand := by exact_mod_cast significand_pos h
  rw [value]
  positivity

theorem value_lt (h : x.magnitude < infinityMagnitude) : x.value < 2 ^ (1024 : Int) := by
  have hbits : (x.significand : ℚ) < 2 ^ (53 : Int) := by
    have : (x.significand : ℚ) < (2 * leadingWeight : Nat) := by exact_mod_cast x.significand_lt
    exact this.trans_eq (by norm_num)
  calc x.value < 2 ^ (53 : Int) * 2 ^ x.exponent := by
        rw [value]
        gcongr
    _ = 2 ^ (53 + x.exponent) := (zpow_add₀ two_ne_zero _ _).symm
    _ ≤ 2 ^ (1024 : Int) := zpow_le_zpow_right₀ one_le_two (by have := exponent_le h; omega)

theorem le_value (h : 0 < x.magnitude) : 2 ^ (-1074 : Int) ≤ x.value := by
  have hbits : (1 : ℚ) ≤ x.significand := by exact_mod_cast significand_pos h
  calc (2 : ℚ) ^ (-1074 : Int) ≤ 2 ^ x.exponent :=
        zpow_le_zpow_right₀ one_le_two x.neg_le_exponent
    _ ≤ x.value := le_mul_of_one_le_left (by positivity) hbits

/-! ## What is near to a double -/

theorem log_mul_two_zpow (hq : 0 < q) (e : Int) : Int.log 2 (q * 2 ^ e) = Int.log 2 q + e := by
  have hscaled : 0 < q * 2 ^ e := by positivity
  have hlow : (2 : ℚ) ^ Int.log 2 q ≤ q := by exact_mod_cast Int.zpow_log_le_self one_lt_two hq
  have hhigh : q < 2 ^ (Int.log 2 q + 1) := by
    exact_mod_cast Int.lt_zpow_succ_log_self one_lt_two q
  refine le_antisymm (Int.lt_add_one_iff.1 ?_) ?_
  · rw [← Int.lt_zpow_iff_log_lt one_lt_two hscaled, add_right_comm, Nat.cast_two,
      zpow_add₀ two_ne_zero]
    gcongr
  · rw [← Int.zpow_le_iff_le_log one_lt_two hscaled, Nat.cast_two, zpow_add₀ two_ne_zero]
    gcongr

/-- A number with 53 bits before the point is rounded at the point; so is one with fewer bits, in
units of the least double. -/
theorem rounded_mul_two_zpow {e : Int} (hq : 0 < q) (he : -1074 ≤ e) (hlt : q < 2 ^ 53)
    (hfull : 2 ^ 52 ≤ q ∨ e = -1074) : rounded (q * 2 ^ e) =
      min infinityMagnitude ((e + 1074).toNat * leadingWeight + nearest q) := by
  have hscaled : 0 < q * 2 ^ e := by positivity
  have hhigh : Int.log 2 q < 53 := by
    rw [← Int.lt_zpow_iff_log_lt one_lt_two hq]
    exact_mod_cast hlt
  have hlow : 52 ≤ Int.log 2 q ∨ e = -1074 := by
    rw [← Int.zpow_le_iff_le_log one_lt_two hq]
    exact_mod_cast hfull
  have hunit : max (Int.log 2 (q * 2 ^ e) - 52) (-1074) = e := by
    rw [log_mul_two_zpow hq]
    omega
  rw [rounded, if_neg hscaled.ne', hunit]
  dsimp only
  rw [mul_div_cancel_right₀ q (by positivity)]

/-- A number is rounded to a double from which it differs by less than one part in `2 ^ 54`. -/
theorem rounded_of_near (hpos : 0 < x.magnitude) (hfinite : x.magnitude < infinityMagnitude)
    (hnear : |q - x.value| < x.value / 2 ^ 54) : rounded q = x.magnitude := by
  have hunit : (0 : ℚ) < 2 ^ x.exponent := by positivity
  have hleast := x.neg_le_exponent
  have hfull := x.magnitude_eq
  have hone : (1 : ℚ) ≤ x.significand := by exact_mod_cast significand_pos hpos
  have hbits : (x.significand : ℚ) + 1 ≤ 2 ^ 53 := by
    have h : x.significand + 1 ≤ 2 * leadingWeight := x.significand_lt
    have : ((x.significand + 1 : Nat) : ℚ) ≤ (2 * leadingWeight : Nat) := by exact_mod_cast h
    exact_mod_cast this
  -- In units of the double the number is `r`, which is near to the significand.
  obtain ⟨r, rfl⟩ : ∃ r, q = r * 2 ^ x.exponent := ⟨q / 2 ^ x.exponent, by field_simp⟩
  have hr : |r - x.significand| < x.significand / 2 ^ 54 := by
    rw [value, ← sub_mul, abs_mul, abs_of_pos hunit, mul_div_right_comm] at hnear
    exact lt_of_mul_lt_mul_right hnear hunit.le
  obtain ⟨hlow, hhigh⟩ := abs_lt.1 hr
  have hrpos : 0 < r := by linarith only [hone, hlow]
  have hrlt : r < 2 ^ 53 := by linarith only [hbits, hhigh]
  by_cases hbelow : 2 ^ 52 ≤ r ∨ x.exponent = -1074
  · have hnearest : nearest r = x.significand := nearest_of_near (by linarith only [hr, hbits])
    rw [rounded_mul_two_zpow hrpos hleast hrlt hbelow, hnearest, ← hfull]
    exact min_eq_right hfinite.le
  · -- Right below a power of two, the number has one bit more behind the point.
    obtain ⟨hless, hnormal⟩ := not_or.1 hbelow
    have hless' := not_le.1 hless
    have hleading : x.significand = leadingWeight := by
      have hge := leadingWeight_le_significand (x := x) (by omega)
      have hlt : (x.significand : ℚ) < 2 ^ 52 + 1 := by linarith only [hlow, hless', hbits]
      have : x.significand < leadingWeight + 1 := by exact_mod_cast hlt
      omega
    have htwice : nearest (2 * r) = 2 * leadingWeight := by
      refine nearest_of_near ?_
      rw [hleading] at hr
      push_cast
      rw [← mul_sub, abs_mul, abs_two]
      norm_num at hr ⊢
      linarith only [hr]
    have hhalf : r * 2 ^ x.exponent = 2 * r * 2 ^ (x.exponent - 1) := by
      rw [zpow_sub_one₀ two_ne_zero]
      field_simp
    have hsum : (x.exponent - 1 + 1074).toNat * leadingWeight + 2 * leadingWeight =
        x.magnitude := by
      simp only [leadingWeight] at hleading hfull ⊢
      omega
    rw [hleading] at hlow
    norm_num at hlow
    rw [hhalf, rounded_mul_two_zpow (by linarith) (by omega) (by linarith)
      (Or.inl (by linarith only [hlow])), htwice, hsum]
    exact min_eq_right hfinite.le

/-! ## The range of the normal doubles -/

theorem least_le_iff (hq : 0 < q) : (2 : ℚ) ^ (-1022 : Int) ≤ q ↔ -1074 ≤ Int.log 2 q - 52 := by
  rw [← Nat.cast_two, Int.zpow_le_iff_le_log one_lt_two hq]
  omega

theorem leadingWeight_le_rounded (h : (2 : ℚ) ^ (-1022 : Int) ≤ q) :
    leadingWeight ≤ rounded q := by
  have hq : 0 < q := lt_of_lt_of_le (by positivity) h
  have hunit := (least_le_iff hq).1 h
  have hbits : leadingWeight ≤ nearest (q / 2 ^ (Int.log 2 q - 52)) := by
    refine le_nearest ?_
    rw [le_div_iff₀ (by positivity)]
    calc ((leadingWeight : Nat) : ℚ) * 2 ^ (Int.log 2 q - 52)
        = 2 ^ (52 : Int) * 2 ^ (Int.log 2 q - 52) := by norm_num
      _ = 2 ^ Int.log 2 q := by
        rw [← zpow_add₀ two_ne_zero]
        congr 1
        ring
      _ ≤ q := by exact_mod_cast Int.zpow_log_le_self one_lt_two hq
  rw [rounded, if_neg hq.ne', max_eq_left hunit]
  exact le_min (by decide) (hbits.trans (Nat.le_add_left _ _))

/-- Below the normal doubles every number is rounded in the unit of the least double. -/
theorem rounded_of_lt_least (hq : 0 < q) (h : q < 2 ^ (-1022 : Int)) :
    rounded q = nearest (q / 2 ^ (-1074 : Int)) ∧
      nearest (q / 2 ^ (-1074 : Int)) ≤ leadingWeight := by
  have hunit : Int.log 2 q - 52 ≤ -1074 := by
    have := mt (least_le_iff hq).2 (not_le.2 h)
    omega
  have hle : nearest (q / 2 ^ (-1074 : Int)) ≤ leadingWeight := by
    refine nearest_le (by positivity) ?_
    rw [div_le_iff₀ (by positivity)]
    refine h.le.trans_eq ?_
    rw [show (-1022 : Int) = 52 + -1074 by rfl, zpow_add₀ two_ne_zero]
    norm_num
  refine ⟨?_, hle⟩
  rw [rounded, if_neg hq.ne', max_eq_right hunit]
  simp only [Int.reduceNeg, Int.reduceAdd, Int.toNat_zero, Nat.zero_mul, Nat.zero_add]
  exact min_eq_right (hle.trans (by decide))

theorem inRange_of_le (hd : 0 < d) (h : (2 : ℚ) ^ (-1022 : Int) ≤ n / d)
    (hfinite : rounded ((n : ℚ) / d) < infinityMagnitude) (finest : Int) :
    inRange finest n d = true := by
  have hq : (0 : ℚ) < n / d := lt_of_lt_of_le (by positivity) h
  have hn : 0 < n := by
    rcases Nat.eq_zero_or_pos n with rfl | hn
    · simp at hq
    · exact hn
  have hunit : -1074 ≤ unit n d := by rw [unit_eq hn hd, ← least_le_iff hq]; exact h
  rw [inRange, round_eq n hd, decide_eq_true hfinite, decide_eq_true hunit]
  simp

/-- A quotient of which something stands behind every bit is no double. -/
theorem not_isSubnormal (hd : 0 < d) (hunit : unit n d ≤ 0)
    (hinexact : ∀ k m : Nat, (n : ℚ) / d * 2 ^ k ≠ m) (finest : Int) :
    isSubnormal finest n d = false := by
  have hmod : (scaleDown n d (unit n d - 1)).1 % (scaleDown n d (unit n d - 1)).2 ≠ 0 := by
    intro hmod
    obtain ⟨m, hm⟩ := Nat.dvd_of_mod_eq_zero hmod
    have hpos : (0 : ℚ) < (scaleDown n d (unit n d - 1)).2 := by
      exact_mod_cast scaleDown_pos hd _
    refine hinexact (1 - unit n d).toNat m ?_
    calc (n : ℚ) / d * 2 ^ (1 - unit n d).toNat
        = n / d / 2 ^ (unit n d - 1) := by
          rw [← zpow_natCast, Int.toNat_of_nonneg (by omega), div_eq_mul_inv _ (_ ^ _),
            ← zpow_neg, neg_sub]
      _ = m := by
          rw [← scaleDown_div, hm, Nat.cast_mul]
          exact mul_div_cancel_left₀ _ hpos.ne'
  rw [isSubnormal]
  dsimp only
  rw [beq_eq_false_iff_ne.2 hmod]
  rfl

/-- What is not rounded to the least normal double is not rounded to it with one bit more. -/
theorem nearest_two_mul_ne (hq : 0 ≤ q) (h : nearest q < leadingWeight) :
    nearest (2 * q) ≠ 2 * leadingWeight := by
  intro heq
  have htwice := (abs_le.1 (nearest_near (q := 2 * q) (by positivity))).2
  have honce := (abs_le.1 (nearest_near hq)).1
  have hbelow : (nearest q : ℚ) ≤ 2 ^ 52 - 1 := by
    have : (nearest q : ℚ) + 1 ≤ leadingWeight := by exact_mod_cast Nat.succ_le_of_lt h
    norm_num at this ⊢
    linarith
  rw [heq] at htwice
  push_cast at htwice
  linarith

/-- A quotient that is rounded to something below the normal doubles, and is no quotient by a power
of two, is out of range. -/
theorem not_inRange (hd : 0 < d) (hn : 0 < n) (h : rounded ((n : ℚ) / d) < leadingWeight)
    (hinexact : ∀ k m : Nat, (n : ℚ) / d * 2 ^ k ≠ m) (finest : Int) :
    inRange finest n d = false := by
  have hq : (0 : ℚ) < n / d := by positivity
  have hless : (n : ℚ) / d < 2 ^ (-1022 : Int) :=
    not_le.1 fun hle => absurd (leadingWeight_le_rounded hle) (not_le.2 h)
  have hunit : ¬ -1074 ≤ unit n d := by
    rw [unit_eq hn hd, ← least_le_iff hq]
    exact not_le.2 hless
  have hround : roundQuotient (scaleDown n d (-1075)).1 (scaleDown n d (-1075)).2 ≠
      2 * leadingWeight := by
    have hhalf : (n : ℚ) / d / 2 ^ (-1075 : Int) = 2 * (n / d / 2 ^ (-1074 : Int)) := by
      rw [show (-1075 : Int) = -1074 - 1 by rfl, zpow_sub_one₀ two_ne_zero]
      field_simp
    rw [(rounded_of_lt_least hq hless).1] at h
    rw [roundQuotient_eq _ (scaleDown_pos hd _), scaleDown_div, hhalf]
    exact nearest_two_mul_ne (by positivity) h
  have hn' : (n == 0) = false := beq_eq_false_iff_ne.2 hn.ne'
  rw [inRange, hn', decide_eq_false hunit, not_isSubnormal hd (by omega) hinexact]
  dsimp only
  rw [beq_eq_false_iff_ne.2 hround]
  simp

end FactGraph.Binary64
