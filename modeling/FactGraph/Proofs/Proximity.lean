import FactGraph.Proofs.Doubles
import FactGraph.Proofs.Nearness

/-!
# Rounding goes to the nearest double

A number that is not negative is rounded to the finite double next to it, and to the one with the
even significand where two are equally near (`Binary64.IsNearest`). There is one such double
(`Binary64.isNearest_iff`). So are the digits of a numeral, in base ten and in base sixteen, as long
as their value is in range (`Numeral.isNearest_roundDecimal`, `Numeral.isNearest_roundBinary`).
-/

namespace FactGraph

namespace Binary64

variable {q : ℚ} {x y : Binary64} {m : Nat} {negative : Bool}

/-- Whether a double has a sign and is the finite one whose absolute value is nearest to a number,
the one with the even significand if there are two. -/
structure IsNearest (negative : Bool) (q : ℚ) (x : Binary64) : Prop where
  /-- The double has the sign. -/
  isNegative : x.isNegative = negative
  /-- The double is finite. -/
  finite : x.magnitude < infinityMagnitude
  /-- No finite double is nearer. -/
  le : ∀ y : Binary64, y.magnitude < infinityMagnitude → |x.value - q| ≤ |y.value - q|
  /-- Another double that is as near leaves the even one. -/
  even : ∀ y : Binary64, y.magnitude < infinityMagnitude → |x.value - q| = |y.value - q| →
    y.value ≠ x.value → x.significand % 2 = 0

/-! ## Natural numbers -/

/-- In the middle between two natural numbers the even one is taken. -/
theorem nearest_even (hq : 0 ≤ q) (h : |(nearest q : ℚ) - q| = 1 / 2) : nearest q % 2 = 0 := by
  have hlow := Nat.floor_le hq
  have hhigh := Nat.lt_floor_add_one q
  rw [nearest] at h ⊢
  split_ifs at h ⊢ with hless hmore heven
  · rw [abs_sub_comm, abs_of_nonneg (by linarith)] at h
    linarith
  · rw [abs_of_nonneg (by push_cast; linarith)] at h
    push_cast at h
    linarith
  · exact heven
  · omega

/-- No natural number is nearer than the nearest one, and the even one is taken if another is as
near. -/
theorem nearest_isNearest (hq : 0 ≤ q) (hm : m ≠ nearest q) :
    |(nearest q : ℚ) - q| ≤ |(m : ℚ) - q| ∧
      (|(nearest q : ℚ) - q| = |(m : ℚ) - q| → nearest q % 2 = 0) := by
  have hhalf := nearest_near hq
  have hone : (1 : ℚ) ≤ |(nearest q : ℚ) - m| := by
    have hint : (1 : Int) ≤ |(nearest q : Int) - m| := by
      rw [le_abs]
      omega
    exact_mod_cast hint
  have htriangle := abs_sub_le (nearest q : ℚ) q m
  rw [abs_sub_comm q] at htriangle
  exact ⟨by linarith, fun heq => nearest_even hq (by linarith)⟩

/-! ## Doubles -/

/-- In units of the last bit of what a number is rounded to, other doubles are natural numbers, or
they lie below the numbers with as many bits. -/
theorem scaled_value {e : Int} (y : Binary64) (he : e = -1074 ∨ (2 : ℚ) ^ 52 ≤ q / 2 ^ e) :
    (∃ m : Nat, y.value = m * 2 ^ e) ∨ (y.value < 2 ^ 52 * 2 ^ e ∧ (2 : ℚ) ^ 52 ≤ q / 2 ^ e) := by
  rcases le_or_gt e y.exponent with hle | hlt
  · obtain ⟨k, hk⟩ := Int.le.dest hle
    refine .inl ⟨y.significand * 2 ^ k, ?_⟩
    rw [value, ← hk, zpow_add₀ two_ne_zero, zpow_natCast]
    push_cast
    ring
  · have hleast := y.neg_le_exponent
    refine .inr ⟨?_, he.resolve_left (by omega)⟩
    have hbits : (y.significand : ℚ) < 2 ^ 53 := by
      have h : (y.significand : ℚ) < (2 * leadingWeight : Nat) := by exact_mod_cast y.significand_lt
      exact h.trans_eq (by norm_num)
    have hunit : (2 : ℚ) ^ y.exponent ≤ 2 ^ (e - 1) := zpow_le_zpow_right₀ one_le_two (by omega)
    calc y.value < 2 ^ 53 * 2 ^ y.exponent := by
          rw [value]
          gcongr
      _ ≤ 2 ^ 53 * 2 ^ (e - 1) := by gcongr
      _ = 2 ^ 52 * 2 ^ e := by
          rw [zpow_sub_one₀ two_ne_zero]
          ring

/-- Distances in other units. -/
theorem abs_scaled_sub {e : Int} (r : ℚ) : |r * 2 ^ e - q| = |r - q / 2 ^ e| * 2 ^ e := by
  have hunit : (0 : ℚ) < 2 ^ e := by positivity
  rw [← abs_of_pos hunit, ← abs_mul, abs_of_pos hunit, sub_mul, div_mul_cancel₀ q hunit.ne']

theorem significand_mod_two (x : Binary64) : x.significand % 2 = x.magnitude % 2 := by
  have h := x.magnitude_eq
  simp only [leadingWeight] at h
  omega

/-- What a positive number is rounded to is nearest. -/
theorem isNearest_of_pos (hq : 0 < q) (hfinite : rounded q < infinityMagnitude)
    (hx : x.magnitude = rounded q) (y : Binary64) (hy : y.value ≠ x.value) :
    |x.value - q| ≤ |y.value - q| ∧ (|x.value - q| = |y.value - q| → x.significand % 2 = 0) := by
  obtain ⟨e, he, hmagnitude, hvalue⟩ := value_of_rounded hq hfinite hx
  have hunit : (0 : ℚ) < 2 ^ e := by positivity
  have hr : 0 ≤ q / 2 ^ e := by positivity
  have hfull : e = -1074 ∨ (2 : ℚ) ^ 52 ≤ q / 2 ^ e :=
    he.symm.imp id fun heq => le_scaled hq heq.le
  rw [hvalue, abs_scaled_sub]
  rcases scaled_value y hfull with ⟨m, hm⟩ | ⟨hlow, hhigh⟩
  · have hne : m ≠ nearest (q / 2 ^ e) := by
      rintro rfl
      exact hy (hm.trans hvalue.symm)
    obtain ⟨hle, heven⟩ := nearest_isNearest hr hne
    rw [hm, abs_scaled_sub]
    refine ⟨by gcongr, fun heq => ?_⟩
    have hparity := heven (mul_right_cancel₀ hunit.ne' heq)
    rw [significand_mod_two, hmagnitude]
    simp only [leadingWeight]
    omega
  · -- The least number with as many bits is nearer than a lesser double.
    have hleast : |(nearest (q / 2 ^ e) : ℚ) - q / 2 ^ e| ≤ q / 2 ^ e - 2 ^ 52 := by
      have hleading : |((2 ^ 52 : Nat) : ℚ) - q / 2 ^ e| = q / 2 ^ e - 2 ^ 52 := by
        rw [Nat.cast_pow, Nat.cast_ofNat, abs_sub_comm, abs_of_nonneg (by linarith)]
      rw [← hleading]
      by_cases hne : 2 ^ 52 = nearest (q / 2 ^ e)
      · rw [hne]
      · exact (nearest_isNearest hr hne).1
    have hfar : |(nearest (q / 2 ^ e) : ℚ) - q / 2 ^ e| * 2 ^ e < |y.value - q| := by
      calc |(nearest (q / 2 ^ e) : ℚ) - q / 2 ^ e| * 2 ^ e
          ≤ (q / 2 ^ e - 2 ^ 52) * 2 ^ e := by gcongr
        _ = q - 2 ^ 52 * 2 ^ e := by rw [sub_mul, div_mul_cancel₀ q hunit.ne']
        _ < q - y.value := by linarith
        _ ≤ |y.value - q| := by
          rw [abs_sub_comm]
          exact le_abs_self _
    exact ⟨hfar.le, fun heq => absurd heq hfar.ne⟩

/-- What a number is rounded to is nearest. -/
theorem isNearest_ofMagnitude (negative : Bool) (hq : 0 ≤ q)
    (hfinite : rounded q < infinityMagnitude) :
    IsNearest negative q (ofMagnitude negative (rounded q)) := by
  have hx := magnitude_ofMagnitude negative hfinite.le
  generalize hname : ofMagnitude negative (rounded q) = x at hx
  have hnear (y : Binary64) (hy : y.value ≠ x.value) : |x.value - q| ≤ |y.value - q| ∧
      (|x.value - q| = |y.value - q| → x.significand % 2 = 0) := by
    rcases hq.eq_or_lt with rfl | hq
    · have hzero : x.magnitude = 0 := by simp [hx, rounded]
      simp [value, significand, hzero]
    · exact isNearest_of_pos hq hfinite hx y hy
  refine ⟨?_, hx ▸ hfinite, fun y _ => ?_, fun y _ heq hne => (hnear y hne).2 heq⟩
  · rw [← hname, isNegative_ofMagnitude negative hfinite.le]
  · by_cases hy : y.value = x.value
    · rw [hy]
    · exact (hnear y hy).1

/-! ## There is one nearest double -/

theorem value_lt_value (hy : y.magnitude < infinityMagnitude) (h : x.magnitude < y.magnitude) :
    x.value < y.value := by
  by_contra hle
  have hmono := rounded_mono y.value_nonneg (not_lt.1 hle)
  rw [rounded_value hy, rounded_value (h.trans hy)] at hmono
  omega

/-- Of two doubles on both sides of a number, one is not nearest or there is one between them. -/
theorem IsNearest.magnitude_le (hx : IsNearest negative q x) (hy : IsNearest negative q y) :
    y.magnitude ≤ x.magnitude := by
  by_contra hlt
  have hlt := not_le.1 hlt
  have hvalue := value_lt_value hy.finite hlt
  have heq : |x.value - q| = |y.value - q| := le_antisymm (hx.le y hy.finite) (hy.le x hx.finite)
  have hxeven := hx.even y hy.finite heq hvalue.ne'
  have hyeven := hy.even x hx.finite heq.symm hvalue.ne
  rw [significand_mod_two] at hxeven hyeven
  -- The double behind the lesser one is not the greater one, as both are even.
  have hbelow : x.magnitude + 1 < infinityMagnitude := by
    have := hy.finite
    omega
  have hbetween := magnitude_ofMagnitude negative hbelow.le
  generalize ofMagnitude negative (x.magnitude + 1) = z at hbetween
  have hxz := value_lt_value (x := x) (y := z) (by omega) (by omega)
  have hzy := value_lt_value (x := z) (y := y) hy.finite (by omega)
  have hle := hx.le z (by omega)
  rcases abs_eq_abs.1 heq with hsame | hopposite
  · linarith
  · have hhalf : |x.value - q| = (y.value - x.value) / 2 := by
      rw [abs_of_nonpos (by linarith)]
      linarith
    rw [hhalf] at hle
    exact absurd hle (not_le.2 (abs_lt.2 ⟨by linarith, by linarith⟩))

/-- The nearest double is the one to which a number is rounded. -/
theorem isNearest_iff (hq : 0 ≤ q) (hfinite : rounded q < infinityMagnitude) :
    IsNearest negative q x ↔ x = ofMagnitude negative (rounded q) := by
  have hrounded := isNearest_ofMagnitude negative hq hfinite
  constructor
  · intro hx
    have hmagnitude := le_antisymm (hrounded.magnitude_le hx) (hx.magnitude_le hrounded)
    rw [← x.ofMagnitude_magnitude, hx.isNegative, hmagnitude,
      magnitude_ofMagnitude negative hfinite.le]
  · rintro rfl
    exact hrounded

end Binary64

/-! ## Numerals -/

namespace Numeral

open Binary64

variable {negative : Bool} {x : Binary64}

theorem isNearest_zero : IsNearest negative 0 x ↔ x = ofMagnitude negative 0 := by
  have hzero : rounded 0 = 0 := by simp [rounded]
  rw [isNearest_iff le_rfl (by rw [hzero]; decide), hzero]

/-- A quotient in range is rounded to the nearest double. -/
theorem isNearest_roundQuotient {finest : Int} {n d : Nat} (hd : 0 < d)
    (h : (roundQuotient negative finest n d).inRange = true) :
    IsNearest negative (n / d) x ↔ x = (roundQuotient negative finest n d).value := by
  have hfinite : round n d < infinityMagnitude := by
    simp only [roundQuotient, inRange, Bool.or_eq_true, Bool.and_eq_true, beq_iff_eq,
      decide_eq_true_eq] at h
    rcases h with rfl | h
    · rw [Binary64.round, if_pos rfl]
      decide
    · exact h.1
  rw [round_eq n hd] at hfinite
  rw [isNearest_iff (by positivity) hfinite, roundQuotient, round_eq n hd]

/-- Decimal digits with a power of ten are rounded to the nearest double if they are in range. -/
theorem isNearest_roundDecimal {digits : Text} {power : Int}
    (h : (roundDecimal negative digits power).inRange = true) :
    IsNearest negative (decimalValue digits * 10 ^ power) x ↔
      x = (roundDecimal negative digits power).value := by
  rw [← decimalValue_dropWhile]
  rw [roundDecimal] at h ⊢
  dsimp only at h ⊢
  generalize digits.dropWhile (· == '0'.toUInt8) = digits at h ⊢
  split_ifs at h ⊢ with hempty
  · rw [List.isEmpty_iff.1 hempty, decimalValue_nil, Nat.cast_zero, zero_mul, isNearest_zero]
  · rw [← decimalQuotient_div]
    exact isNearest_roundQuotient (decimalQuotient_snd_pos _ _) h

/-- A number with a power of two is rounded to the nearest double if it is in range. -/
theorem isNearest_roundBinary {digits : Nat} {power : Int}
    (h : (roundBinary negative digits power).inRange = true) :
    IsNearest negative (digits * 2 ^ power) x ↔ x = (roundBinary negative digits power).value := by
  rw [roundBinary] at h ⊢
  dsimp only at h ⊢
  split_ifs at h ⊢ with hzero
  · rw [hzero, Nat.cast_zero, zero_mul, isNearest_zero]
  · have hquotient := scaleDown_div digits 1 (-power)
    rw [Nat.cast_one, div_one, zpow_neg, div_inv_eq_mul] at hquotient
    rw [← hquotient]
    exact isNearest_roundQuotient (scaleDown_pos Nat.one_pos _) h

end Numeral
end FactGraph
