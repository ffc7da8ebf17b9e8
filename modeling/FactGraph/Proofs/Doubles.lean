import Mathlib
import FactGraph.Proofs.Digits
import FactGraph.Proofs.Numeral

/-!
# Texts of doubles are read back

The text of a finite double is a decimal numeral in each of its layouts (`HasDigits.writes`), and
the digits in it are the significant digits of the double, but for zeros in front of them and
behind. So the double is read back, and out of range if it lies between zero and the normal doubles
(`float?_toText`).
-/

namespace FactGraph

namespace Numeral

open Text

variable {digits : Text} {power : Int}

/-! ## Rounding what is printed -/

theorem decimalValue_dropWhile (t : Text) :
    decimalValue (t.dropWhile (· == zero)) = decimalValue t := by
  induction t with
  | nil => rfl
  | cons c t ih =>
    by_cases hc : c = zero
    · subst hc
      rw [List.dropWhile_cons_of_pos (by simp), ih, decimalValue_zero_cons]
    · rw [List.dropWhile_cons_of_neg (by simpa using hc)]

/-- Digits that stand for what is printed for a double are rounded to the double. Below the normal
doubles they are out of range. -/
theorem roundDecimal_of_printed {x : Binary64} (hpos : 0 < x.magnitude)
    (hfinite : x.magnitude < Binary64.infinityMagnitude)
    (hvalue : (decimalValue digits : ℚ) * 10 ^ power = x.printed)
    (hlow : -400 ≤ ((digits.dropWhile (· == zero)).length : Int) + power)
    (hhigh : ((digits.dropWhile (· == zero)).length : Int) + power ≤ 400) (negative : Bool) :
    roundDecimal negative digits power = ⟨Binary64.ofMagnitude negative x.magnitude,
      decide (Binary64.leadingWeight ≤ x.magnitude)⟩ := by
  have hprinted := Binary64.printed_pos hpos hfinite
  rw [← decimalValue_dropWhile] at hvalue
  rw [roundDecimal]
  dsimp only
  generalize digits.dropWhile (· == zero) = digits at *
  have hne : digits.isEmpty = false := by
    cases digits with
    | nil => simp [← hvalue] at hprinted
    | cons c digits => rfl
  have hdpos := Binary64.decimalQuotient_snd_pos (decimalValue digits) power
  have hdiv := Binary64.decimalQuotient_div (decimalValue digits) power
  rw [hvalue] at hdiv
  rw [hne, if_neg Bool.false_ne_true, if_neg (not_lt.2 hhigh), if_neg (not_lt.2 hlow),
    roundQuotient, Binary64.round_eq _ hdpos, hdiv, Binary64.rounded_printed hpos hfinite]
  congr 1
  by_cases hnormal : Binary64.leadingWeight ≤ x.magnitude
  · rw [decide_eq_true hnormal]
    refine Binary64.inRange_of_le hdpos ?_ ?_ _
    · rw [hdiv]
      exact Binary64.least_le_printed hnormal hfinite
    · rwa [hdiv, Binary64.rounded_printed hpos hfinite]
  · rw [decide_eq_false hnormal]
    have hnpos : 0 < (Binary64.decimalQuotient (decimalValue digits) power).1 := by
      by_contra hzero
      rw [Nat.eq_zero_of_not_pos hzero] at hdiv
      simp [← hdiv] at hprinted
    refine Binary64.not_inRange hdpos hnpos ?_ ?_ _
    · rw [hdiv, Binary64.rounded_printed hpos hfinite]
      exact not_le.1 hnormal
    · rw [hdiv]
      exact Binary64.printed_inexact hpos (not_le.1 hnormal)

end Numeral

namespace Binary64

variable {x : Binary64}

open Text

/-! ## The digits of a text -/

theorem length_ofNat {n count : Nat} (hcount : 0 < count) (hle : 10 ^ (count - 1) ≤ n)
    (hlt : n < 10 ^ count) : (Text.ofNat n).length = count := by
  have hiff {k : Nat} (hk : 0 < k) : (Text.ofNat n).length ≤ k ↔ n < 10 ^ k := by
    rw [Text.ofNat, List.length_map]
    exact Nat.length_toDigits_le_iff (by decide) hk
  refine le_antisymm ((hiff hcount).2 hlt) ?_
  by_contra hless
  have hne := List.length_pos_of_ne_nil (ofNat_ne_nil n)
  have hcount' : 0 < count - 1 := by omega
  exact absurd ((hiff hcount').1 (by omega)) (not_lt.2 hle)

theorem dropTrailingZeros_append (t : Text) :
    ∃ k, t = dropTrailingZeros t ++ List.replicate k zero := by
  refine ⟨(t.reverse.takeWhile (· == zero)).length, ?_⟩
  have hzeros : t.reverse.takeWhile (· == zero) =
      List.replicate (t.reverse.takeWhile (· == zero)).length zero := by
    refine List.eq_replicate_of_mem fun c hc => ?_
    simpa using List.mem_takeWhile_imp hc
  have hsplit := congrArg List.reverse (List.takeWhile_append_dropWhile (p := (· == zero))
    (l := t.reverse))
  rw [List.reverse_append, List.reverse_reverse, hzeros, List.reverse_replicate] at hsplit
  rw [dropTrailingZeros]
  exact hsplit.symm

/-- What is known of the digits of a double and of the zeros at their end, which are not printed. -/
structure HasDigits (x : Binary64) (c : UInt8) (short : Text) (zeros : Nat) : Prop where
  /-- All digits. -/
  text : Text.ofNat x.digits.1 = c :: short ++ List.replicate zeros zero
  /-- The digits in front of the zeros at the end. -/
  dropped : dropTrailingZeros (Text.ofNat x.digits.1) = c :: short
  /-- The first digit is not zero. -/
  ne_zero : c ≠ zero
  /-- They are digits. -/
  isDigit : ∀ b ∈ c :: short, Text.isDigit b = true
  /-- There are as many as the double needs. -/
  length : short.length + 1 + zeros = x.digitCount
  /-- They give the number that is printed. -/
  value : (Numeral.decimalValue (c :: short) : ℚ) * 10 ^ (x.digits.2 - short.length) = x.printed

theorem exists_hasDigits (hpos : 0 < x.magnitude) (hfinite : x.magnitude < infinityMagnitude) :
    ∃ c short zeros, x.HasDigits c short zeros := by
  have happrox := approximates_digits hpos hfinite
  have hlength := length_ofNat x.digitCount_pos happrox.le happrox.lt
  have hvalue := Numeral.decimalValue_ofNat x.digits.1
  have hdigits : ∀ b ∈ Text.ofNat x.digits.1, Text.isDigit b = true := fun b hb =>
    isDigit_of_mem_ofNat hb
  obtain ⟨zeros, htext⟩ := dropTrailingZeros_append (Text.ofNat x.digits.1)
  generalize hshort : dropTrailingZeros (Text.ofNat x.digits.1) = short at htext
  rw [htext] at hlength hvalue hdigits
  cases short with
  | nil =>
    -- Nothing but zeros would be a number without digits.
    have hzero := Numeral.decimalValue_append_zeros [] zeros
    rw [Numeral.decimalValue_nil, Nat.zero_mul, hvalue] at hzero
    have := lt_of_lt_of_le (Nat.pow_pos (by decide)) happrox.le
    omega
  | cons c short =>
    have hlength' : short.length + 1 + zeros = x.digitCount := by
      rw [← hlength, List.length_append, List.length_cons, List.length_replicate]
    refine ⟨c, short, zeros, htext, hshort, ?_, ?_, hlength', ?_⟩
    · -- Behind a zero there would be fewer digits than the number has.
      rintro rfl
      rw [List.cons_append] at hvalue hdigits
      rw [Numeral.decimalValue_zero_cons] at hvalue
      have hless := Numeral.decimalValue_lt fun b hb => hdigits b (List.mem_cons_of_mem _ hb)
      have hcount : (short ++ List.replicate zeros zero).length = x.digitCount - 1 := by
        simp only [List.length_append, List.length_replicate]
        omega
      rw [hvalue, hcount] at hless
      exact absurd happrox.le (not_le.2 hless)
    · exact fun b hb => hdigits b (List.mem_append_left _ hb)
    · have hten : (10 : ℚ) ≠ 0 := by norm_num
      rw [Numeral.decimalValue_append_zeros] at hvalue
      have hpower : x.digits.2 - short.length =
          zeros + (x.digits.2 - ((x.digitCount : Int) - 1)) := by omega
      rw [printed, ← hvalue, hpower, zpow_add₀ hten, zpow_natCast]
      push_cast
      ring

namespace HasDigits

variable {c : UInt8} {short : Text} {zeros : Nat}

/-- Zeros in front of the digits and behind them do not change what they are rounded to. -/
theorem roundDecimal_eq (h : x.HasDigits c short zeros) (hpos : 0 < x.magnitude)
    (hfinite : x.magnitude < infinityMagnitude) (a b : Nat) (negative : Bool) :
    Numeral.roundDecimal negative (List.replicate a zero ++ (c :: short ++ List.replicate b zero))
      (x.digits.2 - short.length - b) =
        ⟨ofMagnitude negative x.magnitude, decide (leadingWeight ≤ x.magnitude)⟩ := by
  have hten : (10 : ℚ) ≠ 0 := by norm_num
  obtain ⟨hlow, hhigh⟩ := digits_snd_bounds hpos hfinite
  have hdrop : (List.replicate a zero ++ (c :: short ++ List.replicate b zero)).dropWhile
      (· == zero) = c :: short ++ List.replicate b zero := by
    rw [List.dropWhile_append_of_pos (by simp), List.cons_append,
      List.dropWhile_cons_of_neg (by simpa using h.ne_zero)]
  have hlength : ((c :: short ++ List.replicate b zero).length : Int) =
      short.length + 1 + b := by
    rw [List.length_append, List.length_cons, List.length_replicate]
    push_cast
    rfl
  refine Numeral.roundDecimal_of_printed hpos hfinite ?_ ?_ ?_ negative
  · rw [Numeral.decimalValue_zeros_append, Numeral.decimalValue_append_zeros, ← h.value,
      zpow_sub₀ hten, zpow_natCast]
    push_cast
    field_simp
  · rw [hdrop, hlength]
    omega
  · rw [hdrop, hlength]
    omega

end HasDigits

/-! ## Layouts -/

theorem isMarked_of_mem {t : Text} {b : UInt8} (hb : b = '.'.toUInt8 ∨ b = 'e'.toUInt8)
    (h : b ∈ t) : isMarked t = true := by
  rw [isMarked, List.any_eq_true]
  refine ⟨b, h, ?_⟩
  rcases hb with rfl | rfl <;> decide

theorem isMarked_digits {t : Text} (h : ∀ b ∈ t, Text.isDigit b = true) : isMarked t = false := by
  have hplain : ∀ b : UInt8, Text.isDigit b = true →
      (b == '.'.toUInt8 || b == 'e'.toUInt8 || b == 'E'.toUInt8) = false := by decide +kernel
  rw [isMarked, List.any_eq_false]
  intro b hb
  rw [hplain b (h b hb)]
  exact Bool.false_ne_true

/-- A text with a fraction of zero behind it, unless it has a point or an exponent. -/
def completed (t : Text) : Text := if isMarked t then t else t ++ ".0"

theorem toText_eq (hfinite : x.magnitude < infinityMagnitude) : x.toText =
    if x.isNegative then '-'.toUInt8 :: completed x.absoluteText
    else completed x.absoluteText := by
  have hnan : x.isNaN = false := decide_eq_false hfinite.not_gt
  have hinfinite : x.isInfinite = false := beq_eq_false_iff_ne.2 hfinite.ne
  have hsign : isMarked ('-'.toUInt8 :: x.absoluteText) = isMarked x.absoluteText := rfl
  rw [toText, hnan, hinfinite]
  cases x.isNegative with
  | false => rfl
  | true =>
    simp only [Bool.false_eq_true, if_false, if_true, hsign, completed]
    split <;> rfl

theorem completed_of_marked {t : Text} (h : isMarked t = true) : completed t = t := by
  rw [completed, if_pos h]

section Layouts

open Numeral

variable {whole fraction : Text}

theorem isDigit_zeros (k : Nat) : ∀ b ∈ List.replicate k zero, Text.isDigit b = true := by
  intro b hb
  rw [List.eq_of_mem_replicate hb]
  rfl

theorem writes_scientific (hne : whole ≠ []) (hwhole : ∀ b ∈ whole, Text.isDigit b = true)
    (hfraction : ∀ b ∈ fraction, Text.isDigit b = true) (p : Int) :
    Writes (whole ++ fraction) (p - fraction.length)
      (completed (whole ++ pointed fraction ++ 'e'.toUInt8 :: exponentText p)) := by
  rw [completed_of_marked (isMarked_of_mem (.inr rfl) (by simp)), List.append_assoc]
  exact .numeral hne hwhole hfraction (.power p)

theorem writes_pointed (hne : whole ≠ []) (hwhole : ∀ b ∈ whole, Text.isDigit b = true)
    (hfraction : ∀ b ∈ fraction, Text.isDigit b = true) (hsome : fraction ≠ []) :
    Writes (whole ++ fraction) (-fraction.length) (completed (whole ++ pointed fraction)) := by
  have hpointed : pointed fraction = '.'.toUInt8 :: fraction := by simp [pointed, hsome]
  have hmarked : isMarked (whole ++ pointed fraction) = true :=
    isMarked_of_mem (.inl rfl) (by simp [hpointed])
  have hwrites := Writes.numeral hne hwhole hfraction .nothing
  rw [List.append_nil, zero_sub] at hwrites
  rwa [completed_of_marked hmarked]

/-- Digits alone get a fraction of zero. -/
theorem writes_whole (hne : whole ≠ []) (hwhole : ∀ b ∈ whole, Text.isDigit b = true) :
    Writes (whole ++ [zero]) (-1) (completed whole) := by
  have hend : Text.ofString ".0" = pointed [zero] ++ [] := rfl
  rw [completed, isMarked_digits hwhole, if_neg Bool.false_ne_true, hend]
  exact .numeral hne hwhole (isDigit_zeros 1) .nothing

variable {c : UInt8} {short : Text} {zeros : Nat}

/-- Zeros stand between the point and the digits. -/
theorem HasDigits.writes_behind (h : x.HasDigits c short zeros) (k : Nat) : Writes
    (List.replicate (k + 1) zero ++ (c :: short ++ List.replicate 0 zero))
    (-(k + 1 : Nat) - short.length - (0 : Nat))
    (completed (zero :: pointed (List.replicate k zero ++ c :: short))) := by
  have hfraction : ∀ b ∈ List.replicate k zero ++ c :: short, Text.isDigit b = true := by
    intro b hb
    rcases List.mem_append.1 hb with hb | hb
    · exact isDigit_zeros k b hb
    · exact h.isDigit b hb
  have hwrites := writes_pointed (List.cons_ne_nil zero []) (isDigit_zeros 1) hfraction (by simp)
  have hpower : -((List.replicate k zero ++ c :: short).length : Int) =
      -(k + 1 : Nat) - short.length - (0 : Nat) := by
    rw [List.length_append, List.length_replicate, List.length_cons]
    push_cast
    ring
  rw [hpower] at hwrites
  simpa [List.replicate_succ] using hwrites

/-- The point stands between two digits. -/
theorem HasDigits.writes_between (h : x.HasDigits c short zeros) {k : Nat}
    (hk : k < short.length) : Writes
      (List.replicate 0 zero ++ (c :: short ++ List.replicate 0 zero))
      (k - short.length - (0 : Nat))
      (completed ((c :: short ++ List.replicate zeros zero).take (k + 1) ++
        pointed ((c :: short).drop (k + 1)))) := by
  have htake : (c :: short ++ List.replicate zeros zero).take (k + 1) = c :: short.take k := by
    rw [List.cons_append, List.take_succ_cons, List.take_append_of_le_length hk.le]
  have hwhole : ∀ b ∈ c :: short.take k, Text.isDigit b = true := by
    intro b hb
    rcases List.mem_cons.1 hb with rfl | hb
    · exact h.isDigit b List.mem_cons_self
    · exact h.isDigit b (List.mem_cons_of_mem c (List.mem_of_mem_take hb))
  have hfraction : ∀ b ∈ short.drop k, Text.isDigit b = true := fun b hb =>
    h.isDigit b (List.mem_cons_of_mem c (List.mem_of_mem_drop hb))
  have hsome : short.drop k ≠ [] := by
    rw [Ne, List.drop_eq_nil_iff]
    omega
  have hwrites := writes_pointed (List.cons_ne_nil c _) hwhole hfraction hsome
  have hpower : -((short.drop k).length : Int) = k - short.length - (0 : Nat) := by
    rw [List.length_drop]
    omega
  rw [hpower] at hwrites
  rw [htake, List.drop_succ_cons]
  simpa using hwrites

/-- The point stands behind the digits and perhaps some zeros. -/
theorem HasDigits.writes_before (h : x.HasDigits c short zeros) {k : Nat}
    (hk : short.length ≤ k) (hk' : k < short.length + 1 + zeros) : Writes
      (List.replicate 0 zero ++ (c :: short ++ List.replicate (k + 1 - short.length) zero))
      (k - short.length - (k + 1 - short.length : Nat))
      (completed ((c :: short ++ List.replicate zeros zero).take (k + 1) ++
        pointed ((c :: short).drop (k + 1)))) := by
  have htake : (c :: short ++ List.replicate zeros zero).take (k + 1) =
      c :: short ++ List.replicate (k - short.length) zero := by
    rw [List.take_append, List.take_of_length_le (by simpa using hk), List.take_replicate,
      List.length_cons]
    congr 2
    omega
  have hdrop : (c :: short).drop (k + 1) = [] := List.drop_eq_nil_of_le (by simpa using hk)
  have hwhole : ∀ b ∈ c :: short ++ List.replicate (k - short.length) zero,
      Text.isDigit b = true := by
    intro b hb
    rcases List.mem_append.1 hb with hb | hb
    · exact h.isDigit b hb
    · exact isDigit_zeros _ b hb
  have hwrites := writes_whole (by simp) hwhole
  have hcount : k + 1 - short.length = k - short.length + 1 := by omega
  have hpower : (k : Int) - short.length - (k + 1 - short.length : Nat) = -1 := by omega
  rw [htake, hdrop, hpower, hcount, List.replicate_succ']
  simpa [pointed] using hwrites

/-- Digits are written with a power of ten, behind zeros, or around a point. -/
theorem HasDigits.writes (h : x.HasDigits c short zeros) : ∃ a b, Writes
    (List.replicate a zero ++ (c :: short ++ List.replicate b zero))
    (x.digits.2 - short.length - b)
    (completed (digitsText x.digitCount (Text.ofNat x.digits.1) x.digits.2)) := by
  have hlength := h.length
  rw [digitsText, h.dropped, h.text]
  by_cases hscientific : x.digits.2 < -4 ∨ (x.digitCount : Int) ≤ x.digits.2
  · rw [if_pos (by simpa using hscientific)]
    have hfirst : ∀ b ∈ [c], Text.isDigit b = true := fun b hb =>
      h.isDigit b (List.mem_singleton.1 hb ▸ List.mem_cons_self)
    have hwrites := writes_scientific (List.cons_ne_nil c []) hfirst
      (fun b hb => h.isDigit b (List.mem_cons_of_mem c hb)) x.digits.2
    exact ⟨0, 0, by simpa using hwrites⟩
  rw [if_neg (by simpa using hscientific)]
  by_cases hnegative : x.digits.2 < 0
  · obtain ⟨k, hk⟩ : ∃ k : Nat, x.digits.2 = -(k + 1 : Nat) := ⟨(-x.digits.2 - 1).toNat, by omega⟩
    have hcount : (-x.digits.2 - 1).toNat = k := by omega
    rw [if_pos hnegative, hcount, hk]
    exact ⟨k + 1, 0, h.writes_behind k⟩
  obtain ⟨k, hk⟩ : ∃ k : Nat, x.digits.2 = k := Int.eq_ofNat_of_zero_le (by omega)
  rw [if_neg hnegative, hk, Int.toNat_natCast]
  by_cases hinside : k < short.length
  · exact ⟨0, 0, h.writes_between hinside⟩
  · exact ⟨0, k + 1 - short.length, h.writes_before (by omega) (by omega)⟩

end Layouts

/-! ## Texts -/

/-- The text of a finite double without its sign is a decimal numeral that is rounded to the double,
and out of range if it lies between zero and the normal doubles. -/
theorem exists_writes (hfinite : x.magnitude < infinityMagnitude) : ∃ digits power,
    Numeral.Writes digits power (completed x.absoluteText) ∧ ∀ negative,
      Numeral.roundDecimal negative digits power = ⟨ofMagnitude negative x.magnitude,
        decide (x.magnitude = 0 ∨ leadingWeight ≤ x.magnitude)⟩ := by
  by_cases hzero : x.magnitude = 0
  · refine ⟨[zero] ++ [zero], -1, ?_, fun negative => ?_⟩
    · rw [absoluteText, if_pos hzero]
      exact writes_whole (List.cons_ne_nil zero []) (isDigit_zeros 1)
    · simp [hzero, Numeral.roundDecimal]
  · have hpos := Nat.pos_of_ne_zero hzero
    obtain ⟨c, short, zeros, h⟩ := exists_hasDigits hpos hfinite
    obtain ⟨a, b, hwrites⟩ := h.writes
    have habsolute : x.absoluteText =
        digitsText x.digitCount (Text.ofNat x.digits.1) x.digits.2 := by
      rw [absoluteText, if_neg hzero]
      rfl
    rw [← habsolute] at hwrites
    refine ⟨_, _, hwrites, fun negative => ?_⟩
    simp only [h.roundDecimal_eq hpos hfinite, hzero, false_or]

/-- The text of a finite double is read to its end as the double. -/
theorem float?_toText (hfinite : x.magnitude < infinityMagnitude) :
    Numeral.float? x.toText = some ⟨⟨x, decide (x.magnitude = 0 ∨ leadingWeight ≤ x.magnitude)⟩,
      x.toText.length⟩ := by
  obtain ⟨digits, power, hwrites, hround⟩ := exists_writes hfinite
  obtain ⟨hplain, hminus⟩ := hwrites.float?
  have hx := x.ofMagnitude_magnitude
  rw [toText_eq hfinite]
  cases hsign : x.isNegative with
  | false =>
    rw [hsign] at hx
    rw [if_neg Bool.false_ne_true, hplain, hround, hx]
  | true =>
    rw [hsign] at hx
    rw [if_pos rfl, hminus, hround, hx, List.length_cons]

/-- The text of a finite double is not one of those of the other doubles. -/
theorem toText_ne (hfinite : x.magnitude < infinityMagnitude) :
    x.toText ≠ "NaN" ∧ x.toText ≠ "INF" ∧ x.toText ≠ "-INF" := by
  obtain ⟨digits, power, hwrites, -⟩ := exists_writes hfinite
  obtain ⟨c, rest, htext, hc, -⟩ := hwrites.exists_cons
  have hletters : c ≠ 'N'.toUInt8 ∧ c ≠ 'I'.toUInt8 ∧ c ≠ '-'.toUInt8 := by
    refine ⟨?_, ?_, ?_⟩ <;>
    · rintro rfl
      exact absurd hc (by decide)
  have hnan : Text.ofString "NaN" = 'N'.toUInt8 :: Text.ofString "aN" := rfl
  have hinf : Text.ofString "INF" = 'I'.toUInt8 :: Text.ofString "NF" := rfl
  have hminus : Text.ofString "-INF" = '-'.toUInt8 :: Text.ofString "INF" := rfl
  have hsigns : '-'.toUInt8 ≠ 'N'.toUInt8 ∧ '-'.toUInt8 ≠ 'I'.toUInt8 := by decide
  rw [toText_eq hfinite, htext, hminus, hnan, hinf]
  cases x.isNegative with
  | false => simp [hletters]
  | true => simp [hletters, hsigns]

end Binary64
end FactGraph
