import Mathlib
import FactGraph.Proofs.Encoding
import FactGraph.Proofs.Rounding

/-!
# Significant digits of doubles

The significant digits of a number are found by way of a guess at its order of magnitude that is off
by one at most (`leadingPower_eq`), and are as near to the number as their count allows
(`approximates_significantDigits`). Seventeen digits of a double are near enough to be rounded to it
(`readsBack_seventeen`), so that the digits of its text are rounded to it whatever their count
(`rounded_printed`).
-/

namespace FactGraph.Binary64

variable {n d count : Nat} {q : ℚ} {x : Binary64}

/-! ## Powers of two and ten -/

/-- The logarithm of two to base ten lies between `59 / 196` and `28 / 93`. -/
theorem two_zpow_le_ten_zpow {k p : Int} (hlow : 28 * k ≤ 93 * p) (hhigh : 59 * k ≤ 196 * p) :
    (2 : ℚ) ^ k ≤ 10 ^ p := by
  rcases le_total 0 k with hk | hk
  · refine le_of_pow_le_pow_left₀ (n := 93) (by decide) (by positivity) ?_
    calc ((2 : ℚ) ^ k) ^ 93 = (2 ^ 93) ^ k := by
          rw [← zpow_natCast, ← zpow_natCast, ← zpow_mul, ← zpow_mul, mul_comm]
      _ ≤ (10 ^ 28) ^ k := by
          obtain ⟨m, rfl⟩ := Int.eq_ofNat_of_zero_le hk
          rw [zpow_natCast, zpow_natCast]
          gcongr
          norm_num
      _ = 10 ^ (28 * k) := by rw [← zpow_natCast, ← zpow_mul, Nat.cast_ofNat]
      _ ≤ 10 ^ (93 * p) := zpow_le_zpow_right₀ (by norm_num) hlow
      _ = (10 ^ p) ^ 93 := by rw [← zpow_natCast, ← zpow_mul, Nat.cast_ofNat, mul_comm]
  · refine le_of_pow_le_pow_left₀ (n := 196) (by decide) (by positivity) ?_
    calc ((2 : ℚ) ^ k) ^ 196 = (2 ^ 196) ^ k := by
          rw [← zpow_natCast, ← zpow_natCast, ← zpow_mul, ← zpow_mul, mul_comm]
      _ ≤ (10 ^ 59) ^ k := by
          obtain ⟨m, rfl⟩ : ∃ m : Nat, k = -m := ⟨(-k).toNat, by omega⟩
          rw [zpow_neg, zpow_neg, zpow_natCast, zpow_natCast]
          gcongr
          norm_num
      _ = 10 ^ (59 * k) := by rw [← zpow_natCast, ← zpow_mul, Nat.cast_ofNat]
      _ ≤ 10 ^ (196 * p) := zpow_le_zpow_right₀ (by norm_num) hhigh
      _ = (10 ^ p) ^ 196 := by rw [← zpow_natCast, ← zpow_mul, Nat.cast_ofNat, mul_comm]

theorem ten_zpow_le_two_zpow {k p : Int} (hlow : 93 * p ≤ 28 * k) (hhigh : 196 * p ≤ 59 * k) :
    (10 : ℚ) ^ p ≤ 2 ^ k := by
  have h := two_zpow_le_ten_zpow (k := -k) (p := -p) (by omega) (by omega)
  rwa [zpow_neg, zpow_neg, inv_le_inv₀ (by positivity) (by positivity)] at h

theorem decimalQuotient_snd_pos (digits : Nat) (power : Int) :
    0 < (decimalQuotient digits power).2 := by
  rw [decimalQuotient]
  split
  · exact Nat.one_pos
  · exact Nat.pow_pos (by decide)

theorem decimalQuotient_div (digits : Nat) (power : Int) :
    ((decimalQuotient digits power).1 : ℚ) / (decimalQuotient digits power).2 =
      digits * 10 ^ power := by
  rw [decimalQuotient]
  split
  · next h =>
    obtain ⟨k, rfl⟩ := Int.eq_ofNat_of_zero_le h
    have hpow : ((Nat.pow 10 k : Nat) : ℚ) = 10 ^ k := by norm_cast
    simp only [Int.toNat_natCast, Nat.cast_mul, hpow, zpow_natCast, Nat.cast_one, div_one]
  · next h =>
    obtain ⟨k, rfl⟩ : ∃ k : Nat, power = -k := ⟨(-power).toNat, by omega⟩
    have hpow : ((Nat.pow 10 k : Nat) : ℚ) = 10 ^ k := by norm_cast
    simp only [neg_neg, Int.toNat_natCast, hpow, zpow_neg, zpow_natCast]
    rfl

theorem roundDecimal_eq (digits : Nat) (power : Int) :
    roundDecimal digits power = rounded (digits * 10 ^ power) := by
  rw [← decimalQuotient_div]
  exact round_eq _ (decimalQuotient_snd_pos digits power)

/-! ## The first digit -/

theorem belowPower_iff (hd : 0 < d) (n : Nat) (power : Int) :
    belowPower n d power = true ↔ (n : ℚ) / d < 10 ^ power := by
  have hd' : (0 : ℚ) < d := by exact_mod_cast hd
  rw [belowPower, div_lt_iff₀ hd']
  split
  · next h =>
    obtain ⟨k, rfl⟩ := Int.eq_ofNat_of_zero_le h
    have hpow : ((Nat.pow 10 k : Nat) : ℚ) = 10 ^ k := by norm_cast
    rw [decide_eq_true_iff, ← Nat.cast_lt (α := ℚ), Nat.cast_mul, Int.toNat_natCast, hpow,
      zpow_natCast, mul_comm]
  · next h =>
    obtain ⟨k, rfl⟩ : ∃ k : Nat, power = -k := ⟨(-power).toNat, by omega⟩
    have hpow : ((Nat.pow 10 k : Nat) : ℚ) = 10 ^ k := by norm_cast
    rw [decide_eq_true_iff, ← Nat.cast_lt (α := ℚ), Nat.cast_mul, neg_neg, Int.toNat_natCast, hpow,
      zpow_neg, zpow_natCast, mul_comm _ (d : ℚ), ← div_eq_mul_inv, lt_div_iff₀ (by positivity)]

/-- The guess at the order of magnitude is off by one at most. -/
theorem leadingPower_eq (hn : 0 < n) (hd : 0 < d) (hlow : -1100 ≤ (n.log2 : Int) - d.log2)
    (hhigh : (n.log2 : Int) - d.log2 ≤ 1100) : leadingPower n d = Int.log 10 ((n : ℚ) / d) := by
  have hq : (0 : ℚ) < n / d := by positivity
  obtain ⟨habove, hbelow⟩ := quotient_bounds hn hd
  have hiff := belowPower_iff hd n
  rw [leadingPower]
  generalize (n.log2 : Int) - d.log2 = l at *
  generalize hguess : l * 30103 / 100000 = guess
  have hfirst : guess - 1 ≤ Int.log 10 ((n : ℚ) / d) := by
    refine (Int.zpow_le_iff_le_log (by decide) hq).1 ?_
    have hpower : (10 : ℚ) ^ (guess - 1) ≤ 2 ^ (l - 1) :=
      ten_zpow_le_two_zpow (by omega) (by omega)
    exact_mod_cast hpower.trans habove.le
  have hlast : Int.log 10 ((n : ℚ) / d) < guess + 2 := by
    refine (Int.lt_zpow_iff_log_lt (by decide) hq).1 ?_
    have hpower : (2 : ℚ) ^ (l + 1) ≤ 10 ^ (guess + 2) :=
      two_zpow_le_ten_zpow (by omega) (by omega)
    exact_mod_cast hbelow.trans_le hpower
  have hlog (p : Int) : (n : ℚ) / d < 10 ^ p ↔ Int.log 10 ((n : ℚ) / d) < p :=
    Int.lt_zpow_iff_log_lt (b := 10) (by decide) hq
  simp only [hiff, hlog]
  split
  · omega
  · split
    · omega
    · omega

/-! ## Significant digits -/

theorem significantDigits_eq (hd : 0 < d) (count n : Nat) : significantDigits count n d =
    if nearest ((n : ℚ) / d * 10 ^ ((count : Int) - 1 - leadingPower n d)) = 10 ^ count then
      (10 ^ (count - 1), leadingPower n d + 1)
    else
      (nearest ((n : ℚ) / d * 10 ^ ((count : Int) - 1 - leadingPower n d)), leadingPower n d) := by
  rw [significantDigits]
  generalize leadingPower n d = power
  have hdigits : (if 0 ≤ (count : Int) - 1 - power then
        roundQuotient (n * Nat.pow 10 ((count : Int) - 1 - power).toNat) d
      else roundQuotient n (d * Nat.pow 10 (-((count : Int) - 1 - power)).toNat)) =
      nearest ((n : ℚ) / d * 10 ^ ((count : Int) - 1 - power)) := by
    split
    · next h =>
      obtain ⟨k, hk⟩ := Int.eq_ofNat_of_zero_le h
      have hpow : ((Nat.pow 10 k : Nat) : ℚ) = 10 ^ k := by norm_cast
      rw [hk, Int.toNat_natCast, roundQuotient_eq _ hd, Nat.cast_mul, hpow, zpow_natCast,
        mul_div_right_comm]
    · next h =>
      obtain ⟨k, hk⟩ : ∃ k : Nat, (count : Int) - 1 - power = -k :=
        ⟨(-((count : Int) - 1 - power)).toNat, by omega⟩
      have hpow : ((Nat.pow 10 k : Nat) : ℚ) = 10 ^ k := by norm_cast
      have hpos : 0 < d * Nat.pow 10 k := Nat.mul_pos hd (Nat.pow_pos (by decide))
      rw [hk, neg_neg, Int.toNat_natCast, roundQuotient_eq _ hpos, Nat.cast_mul, hpow, zpow_neg,
        zpow_natCast, ← div_div, div_eq_mul_inv (_ / _)]
  rw [hdigits]
  rfl

/-- Whether digits are as near to a number as their count allows; the first one stands for
`10 ^ power`. -/
structure Approximates (count : Nat) (q : ℚ) (digits : Nat) (power : Int) : Prop where
  /-- The first digit is not zero. -/
  le : 10 ^ (count - 1) ≤ digits
  /-- There are not more digits. -/
  lt : digits < 10 ^ count
  /-- They are off by half a unit of the last digit at most. -/
  near : |digits * 10 ^ (power - ((count : Int) - 1)) - q| ≤ q / (2 * 10 ^ (count - 1))

/-- Rounding a number with the right order of magnitude gives its digits, or a power of ten with one
digit too many. -/
theorem approximates_nearest {k : Nat} {r : ℚ} (hlow : 10 ^ k ≤ r) (hhigh : r ≤ 10 ^ (k + 1))
    (power : Int) :
    (nearest r = 10 ^ (k + 1) →
      Approximates (k + 1) (r * 10 ^ (power - k)) (10 ^ k) (power + 1)) ∧
    (nearest r ≠ 10 ^ (k + 1) →
      Approximates (k + 1) (r * 10 ^ (power - k)) (nearest r) power) := by
  have hten : (10 : ℚ) ≠ 0 := by norm_num
  have hunit : (0 : ℚ) < 10 ^ (power - k) := by positivity
  have hr : 0 ≤ r := le_trans (by positivity) hlow
  have hdigits : 10 ^ k ≤ nearest r := le_nearest (by exact_mod_cast hlow)
  have hdigits' : nearest r ≤ 10 ^ (k + 1) := nearest_le hr (by exact_mod_cast hhigh)
  have hnear : |(nearest r : ℚ) * 10 ^ (power - k) - r * 10 ^ (power - k)| ≤
      r * 10 ^ (power - k) / (2 * 10 ^ k) := by
    rw [← sub_mul, abs_mul, abs_of_pos hunit, mul_div_right_comm]
    refine mul_le_mul_of_nonneg_right ((nearest_near hr).trans ?_) hunit.le
    rw [le_div_iff₀ (by positivity)]
    linarith
  constructor
  · intro hfull
    refine ⟨by simp, Nat.pow_lt_pow_right (by decide) (by omega), ?_⟩
    have hpower : power + 1 - (((k + 1 : Nat) : Int) - 1) = power - k + 1 := by omega
    have hsame : ((10 ^ k : Nat) : ℚ) * 10 ^ (power - k + 1) = nearest r * 10 ^ (power - k) := by
      rw [hfull, zpow_add_one₀ hten]
      push_cast
      ring
    rw [hpower, hsame]
    exact hnear
  · intro hfull
    have hpower : power - (((k + 1 : Nat) : Int) - 1) = power - k := by omega
    exact ⟨hdigits, lt_of_le_of_ne hdigits' hfull, by rw [hpower]; exact hnear⟩

theorem approximates_significantDigits (hn : 0 < n) (hd : 0 < d)
    (hlow : -1100 ≤ (n.log2 : Int) - d.log2) (hhigh : (n.log2 : Int) - d.log2 ≤ 1100)
    (hcount : 0 < count) :
    Approximates count (n / d) (significantDigits count n d).1 (significantDigits count n d).2 := by
  have hq : (0 : ℚ) < n / d := by positivity
  have hpower := leadingPower_eq hn hd hlow hhigh
  have hle : (10 : ℚ) ^ leadingPower n d ≤ n / d := by
    rw [hpower]
    exact_mod_cast Int.zpow_log_le_self (b := 10) (by decide) hq
  have hlt : (n : ℚ) / d < 10 ^ (leadingPower n d + 1) := by
    rw [hpower]
    exact_mod_cast Int.lt_zpow_succ_log_self (b := 10) (by decide) ((n : ℚ) / d)
  rw [significantDigits_eq hd]
  generalize leadingPower n d = power at hle hlt
  generalize (n : ℚ) / d = q at hle hlt
  obtain ⟨k, rfl⟩ : ∃ k, count = k + 1 := Nat.exists_eq_add_one_of_ne_zero hcount.ne'
  have hten : (10 : ℚ) ≠ 0 := by norm_num
  have hunit : (0 : ℚ) < 10 ^ (power - k) := by positivity
  -- The number is `r` units of the last digit.
  obtain ⟨r, rfl⟩ : ∃ r, q = r * 10 ^ (power - k) := ⟨q / 10 ^ (power - k), by field_simp⟩
  have hscaled : r * 10 ^ (power - k) * 10 ^ (((k + 1 : Nat) : Int) - 1 - power) = r := by
    have hinverse : power - k + (((k + 1 : Nat) : Int) - 1 - power) = 0 := by omega
    rw [mul_assoc, ← zpow_add₀ hten, hinverse, zpow_zero, mul_one]
  have hrlow : (10 : ℚ) ^ k ≤ r := by
    refine le_of_mul_le_mul_right ?_ hunit
    rwa [← zpow_natCast, ← zpow_add₀ hten, add_sub_cancel]
  have hrhigh : r ≤ 10 ^ (k + 1) := by
    refine le_of_mul_le_mul_right ?_ hunit
    have hsum : ((k + 1 : Nat) : Int) + (power - k) = power + 1 := by omega
    rw [← zpow_natCast, ← zpow_add₀ hten, hsum]
    exact hlt.le
  obtain ⟨hfull, hothers⟩ := approximates_nearest hrlow hrhigh power
  rw [hscaled]
  by_cases h : nearest r = 10 ^ (k + 1)
  · rw [if_pos h]
    exact hfull h
  · rw [if_neg h]
    exact hothers h

/-! ## The digits of a double -/

theorem quotient_fst_pos (hpos : 0 < x.magnitude) : 0 < x.quotient.1 := by
  have hvalue := value_pos hpos
  rw [← quotient_div] at hvalue
  by_contra h
  rw [Nat.eq_zero_of_not_pos h] at hvalue
  simp at hvalue

theorem approximates_quotient (hpos : 0 < x.magnitude) (hfinite : x.magnitude < infinityMagnitude)
    (hcount : 0 < count) :
    Approximates count x.value (significantDigits count x.quotient.1 x.quotient.2).1
      (significantDigits count x.quotient.1 x.quotient.2).2 := by
  obtain ⟨habove, hbelow⟩ := quotient_bounds (quotient_fst_pos hpos) x.quotient_snd_pos
  rw [quotient_div] at habove hbelow
  have hhigh := (zpow_lt_zpow_iff_right₀ one_lt_two).1 (habove.trans (value_lt hfinite))
  have hlow := (zpow_lt_zpow_iff_right₀ one_lt_two).1 ((le_value hpos).trans_lt hbelow)
  rw [← quotient_div]
  exact approximates_significantDigits (quotient_fst_pos hpos) x.quotient_snd_pos (by omega)
    (by omega) hcount

theorem readsBack_iff (x : Binary64) (count : Nat) : x.readsBack count = true ↔
    rounded ((significantDigits count x.quotient.1 x.quotient.2).1 *
      10 ^ ((significantDigits count x.quotient.1 x.quotient.2).2 - ((count : Int) - 1))) =
        x.magnitude := by
  rw [← roundDecimal_eq, readsBack]
  exact beq_iff_eq

/-- Seventeen digits are off by less than one part in `2 ^ 54`. -/
theorem readsBack_seventeen (hpos : 0 < x.magnitude) (hfinite : x.magnitude < infinityMagnitude) :
    x.readsBack 17 = true := by
  have hcount : 0 < 17 := by decide
  have happrox := approximates_quotient hpos hfinite hcount
  have hvalue := value_pos hpos
  rw [readsBack_iff]
  refine rounded_of_near hpos hfinite (happrox.near.trans_lt ?_)
  gcongr
  norm_num

theorem readsBack_digitCount (hpos : 0 < x.magnitude) (hfinite : x.magnitude < infinityMagnitude) :
    x.readsBack x.digitCount = true := by
  rw [digitCount]
  split
  · assumption
  · split
    · assumption
    · exact readsBack_seventeen hpos hfinite

theorem digitCount_pos (x : Binary64) : 0 < x.digitCount := by
  rw [digitCount]
  split
  · decide
  · split <;> decide

theorem digitCount_le (x : Binary64) : x.digitCount ≤ 17 := by
  rw [digitCount]
  split
  · decide
  · split <;> decide

/-- The digits of the text of a double, and the power of ten of the first one. -/
def digits (x : Binary64) : Nat × Int := significantDigits x.digitCount x.quotient.1 x.quotient.2

/-- The number that the digits of a double stand for. -/
def printed (x : Binary64) : ℚ := x.digits.1 * 10 ^ (x.digits.2 - ((x.digitCount : Int) - 1))

theorem approximates_digits (hpos : 0 < x.magnitude) (hfinite : x.magnitude < infinityMagnitude) :
    Approximates x.digitCount x.value x.digits.1 x.digits.2 :=
  approximates_quotient hpos hfinite x.digitCount_pos

theorem rounded_printed (hpos : 0 < x.magnitude) (hfinite : x.magnitude < infinityMagnitude) :
    rounded x.printed = x.magnitude :=
  (readsBack_iff x x.digitCount).1 (readsBack_digitCount hpos hfinite)

theorem printed_pos (hpos : 0 < x.magnitude) (hfinite : x.magnitude < infinityMagnitude) :
    0 < x.printed := by
  have hle := (approximates_digits hpos hfinite).le
  have hdigits : (0 : ℚ) < x.digits.1 := by
    exact_mod_cast lt_of_lt_of_le (Nat.pow_pos (by decide)) hle
  rw [printed]
  positivity

namespace Approximates

variable {digits : Nat} {power : Int}

/-- The first digit alone is no more than twice the number. -/
theorem ten_zpow_le (h : Approximates count q digits power) (hcount : 0 < count) (hq : 0 < q) :
    10 ^ power ≤ 2 * q := by
  have hdigits : (10 : ℚ) ^ ((count : Int) - 1) ≤ digits := by
    have : ((count - 1 : Nat) : Int) = (count : Int) - 1 := by omega
    rw [← this, zpow_natCast]
    exact_mod_cast h.le
  have hnear := (abs_le.1 h.near).2
  have hsmall : q / (2 * 10 ^ (count - 1)) ≤ q := by
    refine div_le_self hq.le ?_
    have : (1 : ℚ) ≤ 10 ^ (count - 1) := one_le_pow₀ (by norm_num)
    linarith
  calc (10 : ℚ) ^ power = 10 ^ ((count : Int) - 1) * 10 ^ (power - ((count : Int) - 1)) := by
        rw [← zpow_add₀ (by norm_num), add_sub_cancel]
    _ ≤ digits * 10 ^ (power - ((count : Int) - 1)) := by gcongr
    _ ≤ 2 * q := by linarith

/-- The number is less than twice what could be said with one digit more. -/
theorem lt_ten_zpow (h : Approximates count q digits power) (hq : 0 < q) :
    q / 2 < 10 ^ (power + 1) := by
  have hdigits : (digits : ℚ) < 10 ^ (count : Int) := by
    rw [zpow_natCast]
    exact_mod_cast h.lt
  have hnear := (abs_le.1 h.near).1
  have hsmall : q / (2 * 10 ^ (count - 1)) ≤ q / 2 := by
    have : (1 : ℚ) ≤ 10 ^ (count - 1) := one_le_pow₀ (by norm_num)
    gcongr
    linarith
  calc q / 2 ≤ digits * 10 ^ (power - ((count : Int) - 1)) := by linarith
    _ < 10 ^ (count : Int) * 10 ^ (power - ((count : Int) - 1)) := by gcongr
    _ = 10 ^ (power + 1) := by
        rw [← zpow_add₀ (by norm_num)]
        congr 1
        ring

/-- A number with few digits far behind the point is no quotient by a power of two, since that many
fives do not go into its digits. -/
theorem inexact (h : Approximates count q digits power) (hcount : count ≤ 17)
    (hpower : power - ((count : Int) - 1) ≤ -25) (k m : Nat) :
    (digits : ℚ) * 10 ^ (power - ((count : Int) - 1)) * 2 ^ k ≠ m := by
  obtain ⟨j, hj⟩ : ∃ j : Nat, power - ((count : Int) - 1) = -j :=
    ⟨(-(power - ((count : Int) - 1))).toNat, by omega⟩
  rw [hj, zpow_neg, zpow_natCast, ← div_eq_mul_inv, div_mul_eq_mul_div, Ne,
    div_eq_iff (by positivity)]
  intro heq
  have heq' : digits * 2 ^ k = m * 10 ^ j := by exact_mod_cast heq
  have hten : 5 ^ j ∣ m * 10 ^ j := by
    rw [show 10 = 5 * 2 by rfl, mul_pow]
    exact Dvd.intro_left (m * 2 ^ j) (by ring)
  have hfive : 5 ^ j ∣ digits := by
    refine Nat.Coprime.dvd_of_dvd_mul_right ?_ (heq' ▸ hten)
    exact Nat.Coprime.pow j k (by decide)
  have hpos : 0 < digits := lt_of_lt_of_le (Nat.pow_pos (by decide)) h.le
  have hle : 5 ^ 25 ≤ digits :=
    (Nat.pow_le_pow_right (by decide) (by omega)).trans (Nat.le_of_dvd hpos hfive)
  have hlt : digits < 10 ^ 17 := h.lt.trans_le (Nat.pow_le_pow_right (by decide) hcount)
  omega

end Approximates

theorem digits_snd_bounds (hpos : 0 < x.magnitude) (hfinite : x.magnitude < infinityMagnitude) :
    -330 < x.digits.2 ∧ x.digits.2 < 320 := by
  have happrox := approximates_digits hpos hfinite
  have hvalue := value_pos hpos
  have hten : (1 : ℚ) < 10 := by norm_num
  constructor
  · have hpower : (10 : ℚ) ^ (-329 : Int) < 10 ^ (x.digits.2 + 1) := by
      calc (10 : ℚ) ^ (-329 : Int) ≤ 2 ^ (-1075 : Int) :=
            ten_zpow_le_two_zpow (by decide) (by decide)
        _ = 2 ^ (-1074 : Int) / 2 := zpow_sub_one₀ two_ne_zero (-1074)
        _ ≤ x.value / 2 := by
            have := le_value hpos
            gcongr
        _ < 10 ^ (x.digits.2 + 1) := happrox.lt_ten_zpow hvalue
    have := (zpow_lt_zpow_iff_right₀ hten).1 hpower
    omega
  · have hpower : (10 : ℚ) ^ x.digits.2 < 10 ^ (320 : Int) := by
      calc (10 : ℚ) ^ x.digits.2 ≤ 2 * x.value := happrox.ten_zpow_le x.digitCount_pos hvalue
        _ < 2 * 2 ^ (1024 : Int) := by
            have := value_lt hfinite
            gcongr
        _ = 2 ^ (1025 : Int) := (zpow_one_add₀ two_ne_zero 1024).symm
        _ ≤ 10 ^ (320 : Int) := two_zpow_le_ten_zpow (by decide) (by decide)
    exact (zpow_lt_zpow_iff_right₀ hten).1 hpower

theorem value_lt_least (h : x.magnitude < leadingWeight) : x.value < 2 ^ (-1022 : Int) := by
  have hbits : (x.magnitude : ℚ) < 2 ^ (52 : Int) := by
    have : (x.magnitude : ℚ) < (leadingWeight : Nat) := by exact_mod_cast h
    exact this.trans_eq (by norm_num)
  calc x.value = x.magnitude * 2 ^ (-1074 : Int) := by
        rw [value, significand, exponent, if_pos h, if_pos h]
    _ < 2 ^ (52 : Int) * 2 ^ (-1074 : Int) := by gcongr
    _ = 2 ^ (-1022 : Int) := (zpow_add₀ two_ne_zero 52 (-1074)).symm

/-- What is printed for a double below the normal ones is no quotient by a power of two. -/
theorem printed_inexact (hpos : 0 < x.magnitude) (h : x.magnitude < leadingWeight) (k m : Nat) :
    x.printed * 2 ^ k ≠ m := by
  have hfinite : x.magnitude < infinityMagnitude := h.trans (by decide)
  have happrox := approximates_digits hpos hfinite
  have hpower : (10 : ℚ) ^ x.digits.2 < 10 ^ (-300 : Int) := by
    calc (10 : ℚ) ^ x.digits.2 ≤ 2 * x.value :=
          happrox.ten_zpow_le x.digitCount_pos (value_pos hpos)
      _ < 2 * 2 ^ (-1022 : Int) := by
          have := value_lt_least h
          gcongr
      _ = 2 ^ (-1021 : Int) := (zpow_one_add₀ two_ne_zero (-1022)).symm
      _ ≤ 10 ^ (-300 : Int) := two_zpow_le_ten_zpow (by decide) (by decide)
  have hten : (1 : ℚ) < 10 := by norm_num
  have hlast := (zpow_lt_zpow_iff_right₀ hten).1 hpower
  have hcount := x.digitCount_pos
  exact happrox.inexact x.digitCount_le (by omega) k m

/-- A double is its sign and what stands below. -/
theorem ofMagnitude_magnitude (x : Binary64) : ofMagnitude x.isNegative x.magnitude = x := by
  have hlt := x.bits.toNat_lt
  have hsum : (if x.isNegative then signWeight + x.magnitude else x.magnitude) = x.bits.toNat := by
    simp only [isNegative, magnitude, signWeight, decide_eq_true_eq]
    split <;> omega
  rw [ofMagnitude, hsum, UInt64.ofNat_toNat, ofBits_bits]

theorem two_zpow_le_of_le {m a b : Nat} (h : 10 ^ a ≤ m * 2 ^ b) :
    (2 : ℚ) ^ (-(b : Int)) ≤ m * 10 ^ (-(a : Int)) := by
  rw [zpow_neg, zpow_neg, zpow_natCast, zpow_natCast, ← div_eq_mul_inv, inv_eq_one_div,
    div_le_div_iff₀ (by positivity) (by positivity), one_mul]
  exact_mod_cast h

/-- The least normal double is printed with a text above it. -/
theorem least_le_printed_leadingWeight (h : x.magnitude = leadingWeight) :
    (2 : ℚ) ^ (-1022 : Int) ≤ x.printed := by
  have hdigits : ∀ negative, (ofMagnitude negative leadingWeight).digits =
      (22250738585072014, -308) ∧ (ofMagnitude negative leadingWeight).digitCount = 17 := by
    decide +kernel
  have hweights : 10 ^ 324 ≤ 22250738585072014 * 2 ^ 1022 := by decide +kernel
  have hle := two_zpow_le_of_le hweights
  obtain ⟨hpair, hcount⟩ := hdigits x.isNegative
  rw [← h, ofMagnitude_magnitude] at hpair hcount
  have hpower : (-308 : Int) - (((17 : Nat) : Int) - 1) = -((324 : Nat) : Int) := by decide
  have hleast : (-1022 : Int) = -((1022 : Nat) : Int) := by decide
  rw [printed, hpair, hcount, hpower, hleast]
  exact hle

/-- What is printed for a normal double is not less than the least one. -/
theorem least_le_printed (h : leadingWeight ≤ x.magnitude)
    (hfinite : x.magnitude < infinityMagnitude) : (2 : ℚ) ^ (-1022 : Int) ≤ x.printed := by
  rcases h.eq_or_lt with heq | hlt
  · exact least_le_printed_leadingWeight heq.symm
  · have hpos : 0 < x.magnitude := lt_of_le_of_lt (Nat.zero_le _) hlt
    by_contra hless
    obtain ⟨hround, hle⟩ := rounded_of_lt_least (printed_pos hpos hfinite) (not_le.1 hless)
    rw [← hround, rounded_printed hpos hfinite] at hle
    exact absurd hle (not_le.2 hlt)

end FactGraph.Binary64
