import Mathlib.Data.FinEnum
import Mathlib.Data.List.TakeWhile
import Mathlib.Tactic.Ring
import FactGraph.Numeral

/-!
# Numerals are read back

The digits of a text in base sixteen stand for the text (`unhex?_hex`), and the decimal numeral of
an integer is read as the integer, to its end (`integer?_ofInt`). A numeral with a fraction behind a
point and a power of ten behind a mark is read to its end as its digits and one power of ten, to
which they are rounded (`Writes.float?`).
-/

namespace FactGraph

namespace Text

/-- What stands before the first byte outside a class is what is taken while bytes are in the class. -/
theorem takeWhile_append {p : UInt8 → Bool} {t rest : Text} (h : ∀ c ∈ t, p c = true)
    (hrest : ∀ c ∈ rest.head?, p c = false) : (t ++ rest).takeWhile p = t := by
  rw [List.takeWhile_append_of_pos h]
  cases rest with
  | nil => simp
  | cons c rest => simp [hrest c rfl]

theorem dropWhile_append {p : UInt8 → Bool} {t rest : Text} (h : ∀ c ∈ t, p c = true)
    (hrest : ∀ c ∈ rest.head?, p c = false) : (t ++ rest).dropWhile p = rest := by
  rw [List.dropWhile_append_of_pos h]
  cases rest with
  | nil => simp
  | cons c rest => simp [hrest c rfl]

/-- A text falls into what is taken while bytes are in a class and what is left. -/
theorem exists_eq_takeWhile_append (p : UInt8 → Bool) (t : Text) :
    ∃ rest, t = t.takeWhile p ++ rest ∧ t.drop (t.takeWhile p).length = rest ∧
      (∀ c ∈ t.takeWhile p, p c = true) ∧ ∀ c ∈ rest.head?, p c = false := by
  have hdrop : t.drop (t.takeWhile p).length = t.dropWhile p :=
    List.append_cancel_left ((List.prefix_iff_eq_append.1 (List.takeWhile_prefix p)).trans
      List.takeWhile_append_dropWhile.symm)
  refine ⟨t.dropWhile p, List.takeWhile_append_dropWhile.symm, hdrop,
    fun c hc => List.mem_takeWhile_imp hc, fun c hc => ?_⟩
  have hhead := List.head?_dropWhile_not p t
  rw [Option.mem_def.1 hc] at hhead
  exact hhead

/-! ## Base sixteen -/

/-- The digits of a byte have the values of its halves, which make up the byte. -/
theorem hexDigits_byte : ∀ b : UInt8, hexValue? (hexDigit (b >>> 4)) = some (b >>> 4) ∧
    hexValue? (hexDigit (b &&& 0x0F)) = some (b &&& 0x0F) ∧ b >>> 4 <<< 4 ||| b &&& 0x0F = b := by
  decide +kernel

theorem unhex?_hex (t : Text) : unhex? (hex t) = some t := by
  induction t with
  | nil => rfl
  | cons b t ih =>
    obtain ⟨hhigh, hlow, hbyte⟩ := hexDigits_byte b
    have hcons : hex (b :: t) = hexDigit (b >>> 4) :: hexDigit (b &&& 0x0F) :: hex t := rfl
    simp [hcons, unhex?, hhigh, hlow, hbyte, ih]

/-- What holds of both digits of every byte holds of all digits of a text. -/
theorem forall_mem_hex {P : UInt8 → Prop}
    (h : ∀ b : UInt8, P (hexDigit (b >>> 4)) ∧ P (hexDigit (b &&& 0x0F))) {t : Text} {c : UInt8}
    (hc : c ∈ hex t) : P c := by
  obtain ⟨b, -, hb⟩ := List.mem_flatMap.1 hc
  simp only [hexByte, List.mem_cons, List.not_mem_nil, or_false] at hb
  rcases hb with rfl | rfl
  · exact (h b).1
  · exact (h b).2

/-! ## Base ten -/

/-- The digit that stands for nothing. -/
abbrev zero : UInt8 := '0'.toUInt8

theorem toNat_toUInt8 {c : Char} (h : c.isDigit = true) : c.toUInt8.toNat = c.toNat := by
  have hle : c.toNat ≤ 57 := by
    simp only [Char.isDigit, Bool.and_eq_true, decide_eq_true_eq] at h
    exact h.2
  simp only [Char.toUInt8, UInt32.toNat_toUInt8]
  exact Nat.mod_eq_of_lt (Nat.lt_of_le_of_lt hle (by decide))

theorem isDigit_toUInt8 {c : Char} (h : c.isDigit = true) : isDigit c.toUInt8 = true := by
  have hnat := toNat_toUInt8 h
  simp only [Char.isDigit, Bool.and_eq_true, decide_eq_true_eq] at h
  simp only [isDigit, Bool.and_eq_true, decide_eq_true_eq, UInt8.le_iff_toNat_le, hnat]
  exact h

theorem isDigit_of_mem_toDigits {n : Nat} {c : Char} (h : c ∈ Nat.toDigits 10 n) :
    c.isDigit = true :=
  Nat.isDigit_of_mem_toDigits (by decide) (by decide) h

theorem isDigit_of_mem_ofNat {n : Nat} {b : UInt8} (h : b ∈ ofNat n) : isDigit b = true := by
  obtain ⟨c, hc, rfl⟩ := List.mem_map.1 h
  exact isDigit_toUInt8 (isDigit_of_mem_toDigits hc)

theorem not_mem_ofNat {b : UInt8} (h : isDigit b = false) (n : Nat) : b ∉ ofNat n := fun hb =>
  absurd (isDigit_of_mem_ofNat hb) (by simp [h])

theorem ofNat_ne_nil (n : Nat) : ofNat n ≠ [] := by
  rw [ofNat, Ne, List.map_eq_nil_iff]
  exact Nat.toDigits_ne_nil

end Text

namespace Numeral

open Text

theorem decimalValue_ofNat (n : Nat) : decimalValue (Text.ofNat n) = n := by
  have hdigits : (Text.ofNat n).map (fun b => (b - '0'.toUInt8).toNat) =
      (Nat.toDigits 10 n).map fun c => c.toNat - '0'.toNat := by
    rw [Text.ofNat, List.map_map]
    refine List.map_congr_left fun c hc => ?_
    have hdigit := isDigit_of_mem_toDigits hc
    have hle : 48 ≤ c.toUInt8 := by
      have := isDigit_toUInt8 hdigit
      simp only [isDigit, Bool.and_eq_true, decide_eq_true_eq] at this
      exact this.1
    exact (UInt8.toNat_sub_of_le _ _ hle).trans (by rw [toNat_toUInt8 hdigit]; rfl)
  rw [decimalValue, ofDigits_eq_foldr, List.map_reverse, hdigits, List.foldr_reverse,
    List.foldl_map]
  conv_rhs => rw [← Nat.ofDigitChars_ten_toDigits (n := n), Nat.ofDigitChars_eq_foldl]
  exact List.foldl_ext _ _ _ fun v c _ => Nat.add_comm _ _

/-- A digit is neither white space nor a sign. -/
theorem plain_of_isDigit : ∀ b : UInt8, isDigit b = true →
    isSpace b = false ∧ (b == '-'.toUInt8) = false ∧ (b == '+'.toUInt8) = false := by
  decide +kernel

/-- A numeral has no white space in front, and no sign unless there is a minus sign. -/
theorem signed?_digits {digits : Text} (hne : digits ≠ []) (h : ∀ b ∈ digits, isDigit b = true) :
    signed? digits = some ⟨(false, decimalValue digits), digits.length⟩ ∧
      signed? ('-'.toUInt8 :: digits) = some ⟨(true, decimalValue digits), digits.length + 1⟩ := by
  obtain ⟨c, rest, rfl⟩ := List.exists_cons_of_ne_nil hne
  have htake : (c :: rest).takeWhile isDigit = c :: rest := List.takeWhile_eq_self_iff.2 h
  obtain ⟨hspace, hminus, hplus⟩ := plain_of_isDigit c (h c List.mem_cons_self)
  constructor
  · simp [signed?, splitSign, hspace, hminus, hplus, htake]
  · have : isSpace '-'.toUInt8 = false := rfl
    simp [signed?, splitSign, this, htake]

end Numeral

/-- Different numbers have different numerals. -/
theorem Text.ofNat_injective {m n : Nat} (h : ofNat m = ofNat n) : m = n := by
  rw [← Numeral.decimalValue_ofNat m, h, Numeral.decimalValue_ofNat]

namespace Numeral

open Text

variable {digits whole fraction mark : Text} {power : Int}

/-- The numeral of an integer is read to its end. -/
theorem integer?_ofInt (n : Int) :
    integer? (Text.ofInt n) = some ⟨n, (Text.ofInt n).length⟩ := by
  obtain ⟨hplain, hminus⟩ := signed?_digits (Text.ofNat_ne_nil n.natAbs)
    fun b hb => Text.isDigit_of_mem_ofNat hb
  rw [Text.ofInt, integer?]
  split
  · have hvalue : -(n.natAbs : Int) = n := by omega
    rw [hminus, Option.map_some, decimalValue_ofNat]
    simp only [hvalue, if_true, List.length_cons]
  · have hvalue : (n.natAbs : Int) = n := by omega
    rw [hplain, Option.map_some, decimalValue_ofNat]
    simp only [hvalue, Bool.false_eq_true, if_false]

theorem fitsInt64_toInt (n : Int64) : fitsInt64 n.toInt = true := by
  rw [fitsInt64, decide_eq_true n.minValue_le_toInt, decide_eq_true n.toInt_le, Bool.and_self]

/-! ## Values of digits -/

theorem foldr_prepend (base value : Nat) (digits : List Nat) :
    digits.foldr (prepend base) value =
      digits.foldr (prepend base) 0 + base ^ digits.length * value := by
  induction digits with
  | nil => simp
  | cons d digits ih =>
    rw [List.foldr_cons, List.foldr_cons, ih, List.length_cons, Nat.pow_succ]
    simp only [prepend]
    ring

theorem ofDigits_append (base : Nat) (value : UInt8 → Nat) (s t : Text) :
    ofDigits base ((s ++ t).reverse.map value) =
      ofDigits base (s.reverse.map value) * base ^ t.length +
        ofDigits base (t.reverse.map value) := by
  simp only [ofDigits_eq_foldr, List.reverse_append, List.map_append, List.foldr_append]
  rw [foldr_prepend, List.length_map, List.length_reverse]
  ring

theorem hexValue_append (s t : Text) :
    hexValue (s ++ t) = hexValue s * 16 ^ t.length + hexValue t :=
  ofDigits_append 16 _ s t

@[simp] theorem hexValue_nil : hexValue [] = 0 := by simp [hexValue, ofDigits]

theorem hexValue_cons {c v : UInt8} (h : hexValue? c = some v) (t : Text) :
    hexValue (c :: t) = v.toNat * 16 ^ t.length + hexValue t := by
  have hc : hexValue [c] = v.toNat := by simp [hexValue, ofDigits, h]
  rw [← List.singleton_append, hexValue_append, hc]

theorem decimalValue_append (s t : Text) :
    decimalValue (s ++ t) = decimalValue s * 10 ^ t.length + decimalValue t :=
  ofDigits_append 10 _ s t

@[simp] theorem decimalValue_nil : decimalValue [] = 0 := by
  simp [decimalValue, ofDigits]

theorem decimalValue_zero_cons (t : Text) : decimalValue (zero :: t) = decimalValue t := by
  have hone : decimalValue [zero] = 0 := by decide +kernel
  rw [← List.singleton_append, decimalValue_append, hone, Nat.zero_mul, Nat.zero_add]

theorem decimalValue_zeros_append (k : Nat) (t : Text) :
    decimalValue (List.replicate k zero ++ t) = decimalValue t := by
  induction k with
  | zero => rfl
  | succ k ih => rw [List.replicate_succ, List.cons_append, decimalValue_zero_cons, ih]

theorem decimalValue_append_zeros (t : Text) (k : Nat) :
    decimalValue (t ++ List.replicate k zero) = decimalValue t * 10 ^ k := by
  have hzeros := decimalValue_zeros_append k []
  rw [List.append_nil, decimalValue_nil] at hzeros
  rw [decimalValue_append, hzeros, List.length_replicate, Nat.add_zero]

theorem decimalValue_lt (h : ∀ c ∈ digits, isDigit c = true) :
    decimalValue digits < 10 ^ digits.length := by
  have hdigit : ∀ c : UInt8, isDigit c = true → decimalValue [c] < 10 := by decide +kernel
  induction digits with
  | nil => simp
  | cons c digits ih =>
    have hc := hdigit c (h c List.mem_cons_self)
    have hrest := ih fun b hb => h b (List.mem_cons_of_mem c hb)
    rw [← List.singleton_append, decimalValue_append, List.length_append, Nat.pow_add]
    calc decimalValue [c] * 10 ^ digits.length + decimalValue digits
        < (decimalValue [c] + 1) * 10 ^ digits.length := by
          rw [Nat.add_mul, Nat.one_mul]
          omega
      _ ≤ 10 ^ [c].length * 10 ^ digits.length := Nat.mul_le_mul_right _ hc

/-! ## Parts of a decimal numeral -/

/-- A power of ten is written behind a mark, or not at all if it is zero. -/
inductive Marks : Text → Int → Prop
  /-- Nothing is written. -/
  | nothing : Marks [] 0
  /-- The power is written behind its mark. -/
  | power (p : Int) : Marks ('e'.toUInt8 :: Binary64.exponentText p) p

theorem exponent_exponentText (p : Int) : exponent 'e'.toUInt8 ('e'.toUInt8 ::
    Binary64.exponentText p) = (p, ('e'.toUInt8 :: Binary64.exponentText p).length) := by
  obtain ⟨digits, htext, hdigits, hne, hvalue⟩ : ∃ digits, (Binary64.exponentText p =
      (if p < 0 then '-'.toUInt8 else '+'.toUInt8) :: digits) ∧
      (∀ c ∈ digits, isDigit c = true) ∧ digits ≠ [] ∧ decimalValue digits = p.natAbs := by
    refine ⟨_, rfl, ?_, ?_, ?_⟩
    · intro c hc
      split at hc
      · rcases List.mem_cons.1 hc with rfl | hc
        · rfl
        · exact isDigit_of_mem_ofNat hc
      · exact isDigit_of_mem_ofNat hc
    · split
      · exact List.cons_ne_nil _ _
      · exact ofNat_ne_nil _
    · split
      · rw [decimalValue_zero_cons, decimalValue_ofNat]
      · exact decimalValue_ofNat _
  have hall : digits.takeWhile isDigit = digits := List.takeWhile_eq_self_iff.2 hdigits
  have hmark : toLower 'e'.toUInt8 = 'e'.toUInt8 := by decide
  rw [htext]
  by_cases hp : p < 0
  · have hvalue' : -((decimalValue digits : Nat) : Int) = p := by omega
    simp [exponent, splitSign, hp, hall, hmark, hne, hvalue']
    omega
  · have hvalue' : ((decimalValue digits : Nat) : Int) = p := by omega
    have hplus : '+'.toUInt8 ≠ '-'.toUInt8 := by decide
    simp [exponent, splitSign, hp, hall, hmark, hne, hvalue', hplus]
    omega

theorem Marks.exponent (h : Marks mark power) :
    exponent 'e'.toUInt8 mark = (power, mark.length) := by
  cases h with
  | nothing => rfl
  | power => exact exponent_exponentText power

theorem Marks.head (h : Marks mark power) : ∀ c ∈ mark.head?, c = 'e'.toUInt8 := by
  cases h with
  | nothing => simp
  | power => simp

/-- A decimal numeral without a sign: its digits, the power of ten that they are multiplied by, and
its text. -/
inductive Writes : Text → Int → Text → Prop
  /-- A fraction may follow behind a point, and then a power of ten. -/
  | numeral {whole fraction mark : Text} {power : Int} (hne : whole ≠ [])
    (hwhole : ∀ c ∈ whole, isDigit c = true) (hfraction : ∀ c ∈ fraction, isDigit c = true)
    (hmark : Marks mark power) :
    Writes (whole ++ fraction) (power - fraction.length)
      (whole ++ (Binary64.pointed fraction ++ mark))

theorem mantissa?_pointed (hne : whole ≠ []) (hwhole : ∀ c ∈ whole, isDigit c = true)
    (hfraction : ∀ c ∈ fraction, isDigit c = true) (h : Marks mark power) :
    mantissa? isDigit (whole ++ (Binary64.pointed fraction ++ mark)) =
      some (whole, fraction, (whole ++ Binary64.pointed fraction).length) := by
  have hpoint : isDigit '.'.toUInt8 = false := by decide
  have htake : (whole ++ (Binary64.pointed fraction ++ mark)).takeWhile isDigit = whole := by
    refine takeWhile_append hwhole ?_
    cases fraction with
    | nil =>
      intro c hc
      rw [h.head c hc]
      rfl
    | cons d fraction => simpa [Binary64.pointed] using hpoint
  rw [mantissa?, htake]
  dsimp only
  rw [List.drop_left]
  cases fraction with
  | nil =>
    cases mark with
    | nil => simp [Binary64.pointed, hne]
    | cons c mark =>
      have hletter : 'e'.toUInt8 ≠ '.'.toUInt8 := by decide
      simp [Binary64.pointed, hne, h.head c rfl, hletter]
  | cons d fraction =>
    have hmark : ∀ c ∈ mark.head?, isDigit c = false := by
      intro c hc
      rw [h.head c hc]
      rfl
    have hall := takeWhile_append hfraction hmark
    rw [List.cons_append] at hall
    simp [Binary64.pointed, hall]
    omega

theorem Writes.decimal? {t : Text} (h : Writes digits power t) (negative : Bool) :
    decimal? negative t = some ⟨roundDecimal negative digits power, t.length⟩ := by
  cases h with
  | numeral hne hwhole hfraction hmark =>
    rw [Numeral.decimal?, mantissa?_pointed hne hwhole hfraction hmark, Option.map_some]
    dsimp only
    rw [← List.append_assoc, List.drop_left, hmark.exponent, ← List.length_append]

/-- A numeral begins with a digit, and no letter that could be the mark of base sixteen follows. -/
theorem Writes.exists_cons {t : Text} (h : Writes digits power t) : ∃ c rest, t = c :: rest ∧
    isDigit c = true ∧ ∀ b ∈ rest.head?, toLower b ≠ 'x'.toUInt8 := by
  cases h with
  | @numeral whole fraction mark _ hne hwhole _ hmark =>
    have hdigit : ∀ b : UInt8, isDigit b = true → toLower b ≠ 'x'.toUInt8 := by decide +kernel
    obtain ⟨c, whole, rfl⟩ := List.exists_cons_of_ne_nil hne
    refine ⟨c, _, rfl, hwhole c List.mem_cons_self, ?_⟩
    intro b hb
    cases whole with
    | cons d whole =>
      obtain rfl : d = b := Option.some.inj hb
      exact hdigit d (hwhole d (by simp))
    | nil =>
      cases fraction with
      | cons d fraction =>
        obtain rfl : '.'.toUInt8 = b := Option.some.inj hb
        decide
      | nil =>
        rw [hmark.head b hb]
        decide

theorem startsWithWord_eq_false {w c : UInt8} (h : toLower c ≠ w) (ws rest : Text) :
    startsWithWord (w :: ws) (c :: rest) = false := by
  simp [startsWithWord, h]

theorem ofString_infinity : Text.ofString "infinity" = 'i'.toUInt8 :: Text.ofString "nfinity" := rfl

theorem ofString_inf : Text.ofString "inf" = 'i'.toUInt8 :: Text.ofString "nf" := rfl

theorem ofString_nan : Text.ofString "nan" = 'n'.toUInt8 :: Text.ofString "an" := rfl

/-- What begins with a digit or a point is no word. -/
theorem special?_eq_none {c : UInt8} (h : isDigit c = true ∨ c = '.'.toUInt8) (negative : Bool)
    (rest : Text) : special? negative (c :: rest) = none := by
  have hletters : ∀ b : UInt8, isDigit b = true ∨ b = '.'.toUInt8 →
      toLower b ≠ 'i'.toUInt8 ∧ toLower b ≠ 'n'.toUInt8 := by decide +kernel
  obtain ⟨hi, hn⟩ := hletters c h
  simp [special?, ofString_infinity, ofString_inf, ofString_nan, startsWithWord_eq_false hi,
    startsWithWord_eq_false hn]

theorem hexadecimal?_eq_none {c : UInt8} {rest : Text}
    (h : ∀ b ∈ rest.head?, toLower b ≠ 'x'.toUInt8) (negative : Bool) :
    hexadecimal? negative (c :: rest) = none := by
  cases rest with
  | nil => rfl
  | cons b rest =>
    rw [hexadecimal?, if_pos]
    simp [h b rfl]

/-- A decimal numeral is read to its end, with a minus sign in front or without a sign. -/
theorem Writes.float? {t : Text} (h : Writes digits power t) :
    float? t = some ⟨roundDecimal false digits power, t.length⟩ ∧
      float? ('-'.toUInt8 :: t) = some ⟨roundDecimal true digits power, t.length + 1⟩ := by
  obtain ⟨c, rest, rfl, hc, hrest⟩ := h.exists_cons
  obtain ⟨hspace, hminus, hplus⟩ := plain_of_isDigit c hc
  have hvalue (negative : Bool) : (special? negative (c :: rest) <|>
      hexadecimal? negative (c :: rest) <|> Numeral.decimal? negative (c :: rest)) =
        some ⟨roundDecimal negative digits power, (c :: rest).length⟩ := by
    rw [special?_eq_none (.inl hc), hexadecimal?_eq_none hrest, h.decimal?]
    rfl
  constructor
  · have hsplit : splitSign ((c :: rest).dropWhile isSpace) = (false, c :: rest) := by
      simp [splitSign, hspace, hminus, hplus]
    rw [Numeral.float?, hsplit]
    dsimp only
    rw [hvalue, Option.map_some, Nat.sub_self, Nat.zero_add]
  · have hspace' : isSpace '-'.toUInt8 = false := rfl
    have hsplit : splitSign (('-'.toUInt8 :: c :: rest).dropWhile isSpace) = (true, c :: rest) := by
      simp [splitSign, hspace']
    rw [Numeral.float?, hsplit]
    dsimp only
    rw [hvalue, Option.map_some]
    simp [Nat.add_comm]

end Numeral
end FactGraph
