import FactGraph.Proofs.Counts
import FactGraph.Proofs.Doubles

/-!
# Floating point numerals

What is read to its end as a floating point number is white space, a sign and one of four forms: a
decimal numeral, a numeral in base sixteen, an infinity, or the value that is not a number with a
note behind it (`Numeral.Literal`). The forms are told apart by their first bytes, so that each is
read as what it is (`Numeral.float?_eq_some_length`).
-/

namespace FactGraph

namespace Numeral

open Text

variable {isMember : UInt8 → Bool} {mark : UInt8} {t digits : Text} {negative : Bool} {power : Int}
  {places n : Nat}

/-! ## Forms -/

/-- A sign, or none. -/
inductive Sign : Bool → Text → Prop
  /-- There is no sign. -/
  | none : Sign false []
  /-- There is a plus sign. -/
  | plus : Sign false ['+'.toUInt8]
  /-- There is a minus sign. -/
  | minus : Sign true ['-'.toUInt8]

/-- Digits, of which some may stand behind a point, and how many do. -/
inductive Mantissa (isMember : UInt8 → Bool) : Text → Text → Nat → Prop
  /-- There is no point. -/
  | whole {digits : Text} (hne : digits ≠ []) (hdigits : ∀ c ∈ digits, isMember c = true) :
      Mantissa isMember digits digits 0
  /-- There is a point, with a digit on one side of it. -/
  | pointed {whole fraction : Text} (hne : whole ++ fraction ≠ [])
      (hwhole : ∀ c ∈ whole, isMember c = true) (hfraction : ∀ c ∈ fraction, isMember c = true) :
      Mantissa isMember (whole ++ '.'.toUInt8 :: fraction) (whole ++ fraction) fraction.length

/-- A power behind its mark, or nothing. -/
inductive Exponent (mark : UInt8) : Text → Int → Prop
  /-- There is no power. -/
  | none : Exponent mark [] 0
  /-- The mark is in either case, and the power has digits. -/
  | power {c : UInt8} {negative : Bool} {sign digits : Text} (hmark : toLower c = mark)
      (hsign : Sign negative sign) (hne : digits ≠ []) (hdigits : ∀ c ∈ digits, isDigit c = true) :
      Exponent mark (c :: (sign ++ digits))
        (if negative then -(decimalValue digits : Int) else decimalValue digits)

/-- The digits of a numeral, how many of them stand behind its point, and the power behind its
mark. -/
inductive Scientific (isMember : UInt8 → Bool) (mark : UInt8) : Text → Text → Nat → Int → Prop
  /-- The power stands behind the digits. -/
  | numeral {mantissa exponent digits : Text} {places : Nat} {power : Int}
      (hmantissa : Mantissa isMember mantissa digits places)
      (hexponent : Exponent mark exponent power) :
      Scientific isMember mark (mantissa ++ exponent) digits places power

/-- A note, or none: letters, digits and underscores in parentheses. -/
inductive Note : Text → Prop
  /-- There is no note. -/
  | none : Note []
  /-- There is a note. -/
  | parentheses {letters : Text} (h : ∀ c ∈ letters, isWord c = true) :
      Note ('('.toUInt8 :: (letters ++ [')'.toUInt8]))

/-- What stands for a floating point number behind a sign, and the number. -/
inductive Literal (negative : Bool) : Text → Rounded → Prop
  /-- The word for an infinity, in either case. -/
  | infinity {word : Text}
      (h : word.map toLower = Text.ofString "infinity" ∨ word.map toLower = Text.ofString "inf") :
      Literal negative word ⟨Binary64.infinity negative, true⟩
  /-- The word for what is not a number, in either case, with a note. -/
  | nan {word note : Text} (h : word.map toLower = Text.ofString "nan") (hnote : Note note) :
      Literal negative (word ++ note) ⟨Binary64.nan, true⟩
  /-- A numeral in base sixteen, with a power of two. -/
  | hexadecimal {x : UInt8} {body digits : Text} {places : Nat} {power : Int}
      (hx : toLower x = 'x'.toUInt8)
      (h : Scientific isHexDigit 'p'.toUInt8 body digits places power) :
      Literal negative ('0'.toUInt8 :: x :: body)
        (roundBinary negative (hexValue digits) (power - 4 * places))
  /-- A decimal numeral, with a power of ten. -/
  | decimal {body digits : Text} {places : Nat} {power : Int}
      (h : Scientific isDigit 'e'.toUInt8 body digits places power) :
      Literal negative body (roundDecimal negative digits (power - places))

/-! ## Signs -/

/-- A byte that is no sign. -/
def Signless (c : UInt8) : Prop := c ≠ '-'.toUInt8 ∧ c ≠ '+'.toUInt8

theorem splitSign_append {sign : Text} (hsign : Sign negative sign)
    (h : ∀ c ∈ t.head?, Signless c) : splitSign (sign ++ t) = (negative, t) := by
  cases hsign with
  | none =>
    cases t with
    | nil => rfl
    | cons c t =>
      obtain ⟨hminus, hplus⟩ := h c rfl
      simp [splitSign, hminus, hplus]
  | plus => rfl
  | minus => rfl

theorem exists_sign {rest : Text} (h : splitSign t = (negative, rest)) :
    ∃ sign, Sign negative sign ∧ t = sign ++ rest := by
  rcases splitSign_eq h with ⟨rfl, rfl | rfl⟩ | ⟨rfl, rfl⟩
  · exact ⟨[], .none, rfl⟩
  · exact ⟨_, .plus, rfl⟩
  · exact ⟨_, .minus, rfl⟩

theorem Denotes.exists_sign (h : Denotes negative t n) : ∃ blanks sign digits,
    t = blanks ++ (sign ++ digits) ∧ (∀ c ∈ blanks, isSpace c = true) ∧ Sign negative sign ∧
      ∀ c ∈ digits, isDigit c = true := by
  cases h with
  | plain hblanks _ hdigits => exact ⟨_, [], _, rfl, hblanks, .none, hdigits⟩
  | plus hblanks _ hdigits => exact ⟨_, _, _, rfl, hblanks, .plus, hdigits⟩
  | minus hblanks _ hdigits => exact ⟨_, _, _, rfl, hblanks, .minus, hdigits⟩

theorem signless_of_isDigit {c : UInt8} (h : isDigit c = true) : Signless c := by
  obtain ⟨-, hminus, hplus⟩ := plain_of_isDigit c h
  exact ⟨by simpa using hminus, by simpa using hplus⟩

/-! ## Numerals -/

theorem Exponent.head (h : Exponent mark t power) : ∀ c ∈ t.head?, toLower c = mark := by
  cases h with
  | none => simp
  | power hmark => simpa using hmark

/-- A text is read to its end as a power if it is one. -/
theorem exponent_eq_length : exponent mark t = (power, t.length) ↔ Exponent mark t power := by
  cases t with
  | nil =>
    rw [exponent, List.length_nil, Prod.mk.injEq, and_iff_left rfl]
    constructor
    · rintro rfl
      exact .none
    · intro h
      cases h
      rfl
  | cons c rest =>
    rw [exponent]
    obtain ⟨negative, body, hsplit⟩ : ∃ negative body, splitSign rest = (negative, body) :=
      ⟨_, _, rfl⟩
    rw [hsplit]
    dsimp only
    constructor
    · intro h
      split at h
      · simp at h
      · next hmark =>
        obtain ⟨sign, hsign, rfl⟩ := exists_sign hsplit
        simp only [Bool.or_eq_true, bne_iff_ne, ne_eq, not_or, not_not, Prod.mk.injEq,
          List.length_cons, List.length_append] at h hmark
        -- Nothing is left behind the digits.
        have hall : body.takeWhile isDigit = body :=
          (List.takeWhile_prefix isDigit).eq_of_length (by omega)
        rw [hall] at h hmark
        obtain ⟨rfl, -⟩ := h
        exact .power hmark.1 hsign (by simpa using hmark.2) (List.takeWhile_eq_self_iff.1 hall)
    · intro h
      cases h with
      | @power _ negative' sign digits hmark hsign hne hdigits =>
        rw [splitSign_append hsign fun c hc => signless_of_isDigit
          (hdigits c (List.mem_of_mem_head? hc)), Prod.mk.injEq] at hsplit
        obtain ⟨rfl, rfl⟩ := hsplit
        rw [List.takeWhile_eq_self_iff.2 hdigits, if_neg (by simp [hmark, hne])]
        simp only [List.length_cons, List.length_append, Prod.mk.injEq, true_and]
        omega

/-- Digits are read up to what is none of them. -/
theorem mantissa?_append {mantissa rest : Text} (h : Mantissa isMember mantissa digits places)
    (hpoint : isMember '.'.toUInt8 = false)
    (hrest : ∀ c ∈ rest.head?, isMember c = false ∧ c ≠ '.'.toUInt8) :
    ∃ whole fraction, mantissa? isMember (mantissa ++ rest) =
      some (whole, fraction, mantissa.length) ∧ whole ++ fraction = digits ∧
        fraction.length = places := by
  cases h with
  | whole hne hdigits =>
    refine ⟨digits, [], ?_, List.append_nil _, rfl⟩
    rw [mantissa?, takeWhile_append hdigits fun c hc => (hrest c hc).1]
    dsimp only
    rw [List.drop_left]
    cases rest with
    | nil => simp [hne]
    | cons c rest => simp [hne, (hrest c rfl).2]
  | @pointed whole fraction hne hwhole hfraction =>
    refine ⟨whole, fraction, ?_, rfl, rfl⟩
    rw [List.append_assoc, List.cons_append, mantissa?,
      takeWhile_append hwhole (by simpa using hpoint)]
    dsimp only
    rw [List.drop_left]
    simp only [beq_self_eq_true, if_true, takeWhile_append hfraction fun c hc => (hrest c hc).1]
    rw [if_neg (by simpa using hne), List.length_append, List.length_cons]
    simp only [Option.some.injEq, Prod.mk.injEq, true_and]
    omega

theorem exists_mantissa {whole fraction : Text} {length : Nat}
    (h : mantissa? isMember t = some (whole, fraction, length)) : ∃ mantissa rest,
      t = mantissa ++ rest ∧ mantissa.length = length ∧
        Mantissa isMember mantissa (whole ++ fraction) fraction.length := by
  rw [mantissa?] at h
  obtain ⟨rest, ht, hdrop, hwhole, -⟩ := exists_eq_takeWhile_append isMember t
  dsimp only at h
  rw [hdrop] at h
  generalize t.takeWhile isMember = front at ht hwhole h
  subst ht
  cases rest with
  | nil =>
    dsimp only at h
    split at h
    · cases h
    · next hne =>
      cases h
      exact ⟨whole, [], rfl, rfl, by simpa using .whole (by simpa using hne) hwhole⟩
  | cons c rest =>
    dsimp only at h
    by_cases hc : c = '.'.toUInt8
    · obtain ⟨after, hrest, -, hfraction, -⟩ := exists_eq_takeWhile_append isMember rest
      rw [hc, beq_self_eq_true, if_pos rfl, if_pos rfl] at h
      generalize rest.takeWhile isMember = behind at hrest hfraction h
      split at h
      · cases h
      · next hne =>
        cases h
        refine ⟨whole ++ '.'.toUInt8 :: fraction, after, by simp [hc, hrest], ?_,
          .pointed (by simpa using hne) hwhole hfraction⟩
        rw [List.length_append, List.length_cons]
        omega
    · simp only [beq_false_of_ne hc, Bool.false_eq_true, if_false] at h
      split at h
      · cases h
      · next hne =>
        cases h
        exact ⟨whole, c :: rest, rfl, rfl, by simpa using .whole (by simpa using hne) hwhole⟩

/-- The bytes that end the digits of a numeral are none of them. -/
structure Ends (isMember : UInt8 → Bool) (mark : UInt8) : Prop where
  /-- The point is no digit. -/
  point : isMember '.'.toUInt8 = false
  /-- The mark is no digit, and not the point. -/
  mark : ∀ c, toLower c = mark → isMember c = false ∧ c ≠ '.'.toUInt8

/-- A text is read to its end as digits and a power if it is a numeral. -/
theorem scientific_iff (hends : Ends isMember mark) :
    (∃ whole fraction length more, mantissa? isMember t = some (whole, fraction, length) ∧
      exponent mark (t.drop length) = (power, more) ∧ length + more = t.length ∧
        whole ++ fraction = digits ∧ fraction.length = places) ↔
      Scientific isMember mark t digits places power := by
  constructor
  · rintro ⟨whole, fraction, length, more, hread, hexponent, hlength, rfl, rfl⟩
    obtain ⟨mantissa, rest, rfl, rfl, hmantissa⟩ := exists_mantissa hread
    rw [List.length_append, Nat.add_left_cancel_iff] at hlength
    rw [List.drop_left, hlength] at hexponent
    exact .numeral hmantissa (exponent_eq_length.1 hexponent)
  · rintro ⟨hmantissa, hexponent⟩
    obtain ⟨whole, fraction, hread, hdigits, hplaces⟩ :=
      mantissa?_append hmantissa hends.point fun c hc => hends.mark c (hexponent.head c hc)
    refine ⟨whole, fraction, _, _, hread, ?_, (List.length_append ..).symm, hdigits, hplaces⟩
    rw [List.drop_left]
    exact exponent_eq_length.2 hexponent

theorem ends_decimal : Ends isDigit 'e'.toUInt8 where
  point := by decide
  mark := by decide +kernel

theorem ends_hexadecimal : Ends isHexDigit 'p'.toUInt8 where
  point := by decide
  mark := by decide +kernel

variable {r : Rounded}

theorem decimal?_eq_some : decimal? negative t = some ⟨r, t.length⟩ ↔
    ∃ digits places power, Scientific isDigit 'e'.toUInt8 t digits places power ∧
      r = roundDecimal negative digits (power - places) := by
  simp only [← scientific_iff ends_decimal, decimal?, Option.map_eq_some_iff]
  constructor
  · rintro ⟨⟨whole, fraction, length⟩, hmantissa, h⟩
    simp only [Reading.mk.injEq] at h
    obtain ⟨rfl, hlength⟩ := h
    exact ⟨_, _, _, ⟨whole, fraction, length, _, hmantissa, rfl, hlength, rfl, rfl⟩, rfl⟩
  · rintro ⟨_, _, power, ⟨whole, fraction, length, more, hmantissa, hexponent, hlength, rfl, rfl⟩,
      rfl⟩
    exact ⟨_, hmantissa, by simp only [hexponent, hlength]⟩

theorem hexadecimal?_eq_some : hexadecimal? negative t = some ⟨r, t.length⟩ ↔
    ∃ x body digits places power, t = '0'.toUInt8 :: x :: body ∧ toLower x = 'x'.toUInt8 ∧
      Scientific isHexDigit 'p'.toUInt8 body digits places power ∧
        r = roundBinary negative (hexValue digits) (power - 4 * places) := by
  simp only [← scientific_iff ends_hexadecimal]
  constructor
  · intro h
    match t with
    | [] | [_] => cases h
    | zero :: x :: body =>
      rw [hexadecimal?] at h
      split at h
      · cases h
      · next hmarks =>
        simp only [Bool.or_eq_true, bne_iff_ne, ne_eq, not_or, not_not] at hmarks
        obtain ⟨⟨whole, fraction, length⟩, hmantissa, h⟩ := Option.map_eq_some_iff.1 h
        simp only [Reading.mk.injEq, List.length_cons] at h
        obtain ⟨rfl, hlength⟩ := h
        exact ⟨x, body, _, _, _, by rw [hmarks.1], hmarks.2,
          ⟨whole, fraction, length, (exponent 'p'.toUInt8 (body.drop length)).2, hmantissa, rfl,
            by omega, rfl, rfl⟩, rfl⟩
  · rintro ⟨x, body, _, _, power, rfl, hx, ⟨whole, fraction, length, more, hmantissa, hexponent,
      hlength, rfl, rfl⟩, rfl⟩
    rw [hexadecimal?, if_neg (by simp [hx]), hmantissa, Option.map_some]
    simp only [hexponent, List.length_cons, Option.some.injEq, Reading.mk.injEq, true_and]
    omega

/-! ## Words -/

theorem noteLength_eq_length : noteLength t = t.length ↔ Note t := by
  cases t with
  | nil => simp [noteLength, Note.none]
  | cons c rest =>
    obtain ⟨after, hrest, hdrop, hletters, -⟩ := exists_eq_takeWhile_append isWord rest
    rw [noteLength, hdrop]
    constructor
    · generalize rest.takeWhile isWord = letters at hrest hletters
      intro h
      split at h
      · next hclosed =>
        simp only [Bool.and_eq_true, beq_iff_eq, List.head?_eq_some_iff] at hclosed
        obtain ⟨rfl, tail, rfl⟩ := hclosed
        have hlength := congrArg List.length hrest
        rw [List.length_append, List.length_cons] at hlength
        rw [List.length_cons] at h
        obtain rfl := List.length_eq_zero_iff.1 (show tail.length = 0 by omega)
        exact hrest ▸ .parentheses hletters
      · cases h
    · intro h
      cases h with
      | @parentheses letters h =>
        have hall : (letters ++ [')'.toUInt8]).takeWhile isWord = letters :=
          takeWhile_append h (by simp; decide)
        rw [hall] at hrest ⊢
        obtain rfl := List.append_cancel_left hrest
        simp

theorem startsWithWord_eq_true {word : Text} : startsWithWord word t = true ↔
    ∃ front rest, t = front ++ rest ∧ front.map toLower = word := by
  rw [startsWithWord, beq_iff_eq]
  constructor
  · intro h
    exact ⟨_, _, (List.take_append_drop word.length t).symm, h⟩
  · rintro ⟨front, rest, rfl, rfl⟩
    rw [List.length_map, List.take_left]

theorem special?_nan {word note : Text} (h : word.map toLower = Text.ofString "nan") :
    special? negative (word ++ note) = some ⟨⟨Binary64.nan, true⟩, 3 + noteLength note⟩ := by
  have hlength : word.length = 3 := (List.length_map toLower).symm.trans (congrArg List.length h)
  obtain ⟨c, rest, rfl⟩ := List.exists_cons_of_length_pos (show 0 < word.length by omega)
  have hc : toLower c ≠ 'i'.toUInt8 := by
    rw [ofString_nan, List.map_cons, List.cons.injEq] at h
    rw [h.1]
    decide
  have hstarts := startsWithWord_eq_true.2 ⟨c :: rest, note, rfl, h⟩
  rw [special?, ofString_infinity, ofString_inf, List.cons_append, startsWithWord_eq_false hc,
    startsWithWord_eq_false hc, ← List.cons_append, hstarts, ← hlength, List.drop_left]
  rfl

/-- A text is read to its end as a word for an infinity or for what is not a number. -/
theorem special?_eq_some : special? negative t = some ⟨r, t.length⟩ ↔
    ((t.map toLower = Text.ofString "infinity" ∨ t.map toLower = Text.ofString "inf") ∧
      r = ⟨Binary64.infinity negative, true⟩) ∨
    ∃ word note, t = word ++ note ∧ word.map toLower = Text.ofString "nan" ∧ Note note ∧
      r = ⟨Binary64.nan, true⟩ := by
  have hinfinity : (Text.ofString "infinity").length = 8 := rfl
  have hinf : (Text.ofString "inf").length = 3 := rfl
  have hnan : (Text.ofString "nan").length = 3 := rfl
  have hwhole {word : Text} (hstarts : startsWithWord word t = true)
      (hlength : word.length = t.length) : t.map toLower = word := by
    obtain ⟨front, rest, rfl, rfl⟩ := startsWithWord_eq_true.1 hstarts
    rw [List.length_map, List.length_append] at hlength
    rw [List.length_eq_zero_iff.1 (show rest.length = 0 by omega), List.append_nil]
  constructor
  · intro h
    rw [special?] at h
    split_ifs at h with hstarts hstarts hstarts
    · simp only [Option.some.injEq, Reading.mk.injEq] at h
      exact .inl ⟨.inl (hwhole hstarts (hinfinity.trans h.2)), h.1.symm⟩
    · simp only [Option.some.injEq, Reading.mk.injEq] at h
      exact .inl ⟨.inr (hwhole hstarts (hinf.trans h.2)), h.1.symm⟩
    · obtain ⟨word, note, rfl, hword⟩ := startsWithWord_eq_true.1 hstarts
      have hlength : word.length = 3 := by rw [← List.length_map toLower, hword, hnan]
      simp only [Option.some.injEq, Reading.mk.injEq] at h
      rw [← hlength, List.drop_left, List.length_append, Nat.add_left_cancel_iff,
        noteLength_eq_length] at h
      exact .inr ⟨word, note, rfl, hword, h.2, h.1.symm⟩
  · rintro (⟨hword | hword, rfl⟩ | ⟨word, note, rfl, hword, hnote, rfl⟩)
    · have hlength : t.length = 8 := by rw [← List.length_map toLower, hword, hinfinity]
      have hstarts := startsWithWord_eq_true.2 ⟨t, [], (List.append_nil t).symm, hword⟩
      rw [special?, if_pos hstarts, hlength]
    · have hlength : t.length = 3 := by rw [← List.length_map toLower, hword, hinf]
      have hstarts := startsWithWord_eq_true.2 ⟨t, [], (List.append_nil t).symm, hword⟩
      have hshort : ¬ startsWithWord (Text.ofString "infinity") t = true := by
        rw [startsWithWord_eq_true]
        rintro ⟨front, rest, rfl, hfront⟩
        rw [← List.length_map toLower, List.map_append, hfront, List.length_append, hinfinity]
          at hlength
        omega
      rw [special?, if_neg hshort, if_pos hstarts, hlength]
    · rw [special?_nan hword, noteLength_eq_length.2 hnote, List.length_append,
        ← hnan, ← hword, List.length_map]

/-! ## Literals -/

theorem Mantissa.exists_cons (h : Mantissa isMember t digits places) :
    ∃ c rest, t = c :: rest ∧ (isMember c = true ∨ c = '.'.toUInt8) := by
  cases h with
  | whole hne hdigits =>
    obtain ⟨c, rest, rfl⟩ := List.exists_cons_of_ne_nil hne
    exact ⟨c, rest, rfl, .inl (hdigits c List.mem_cons_self)⟩
  | @pointed whole fraction _ hwhole =>
    cases whole with
    | nil => exact ⟨_, _, rfl, .inr rfl⟩
    | cons c whole => exact ⟨c, _, rfl, .inl (hwhole c List.mem_cons_self)⟩

/-- The bytes of a numeral are its digits, its point, its mark and signs. -/
theorem Scientific.mem (h : Scientific isMember mark t digits places power) : ∀ c ∈ t,
    isMember c = true ∨ isDigit c = true ∨ toLower c = mark ∨ c ∈ Text.ofString ".+-" := by
  obtain ⟨hmantissa, hexponent⟩ := h
  have hmarks : '.'.toUInt8 ∈ Text.ofString ".+-" ∧ '+'.toUInt8 ∈ Text.ofString ".+-" ∧
      '-'.toUInt8 ∈ Text.ofString ".+-" := by decide
  intro c hc
  rcases List.mem_append.1 hc with hc | hc
  · cases hmantissa with
    | whole _ hdigits => exact .inl (hdigits c hc)
    | pointed _ hwhole hfraction =>
      rcases List.mem_append.1 hc with hc | hc
      · exact .inl (hwhole c hc)
      · rcases List.mem_cons.1 hc with rfl | hc
        · exact .inr (.inr (.inr hmarks.1))
        · exact .inl (hfraction c hc)
  · cases hexponent with
    | none => cases hc
    | power hmark hsign _ hdigits =>
      rcases List.mem_cons.1 hc with rfl | hc
      · exact .inr (.inr (.inl hmark))
      · rcases List.mem_append.1 hc with hc | hc
        · cases hsign with
          | none => cases hc
          | plus => exact .inr (.inr (.inr (List.mem_singleton.1 hc ▸ hmarks.2.1)))
          | minus => exact .inr (.inr (.inr (List.mem_singleton.1 hc ▸ hmarks.2.2)))
        · exact .inr (.inl (hdigits c hc))

theorem Scientific.exists_cons (h : Scientific isMember mark t digits places power) :
    ∃ c rest, t = c :: rest ∧ (isMember c = true ∨ c = '.'.toUInt8) := by
  obtain ⟨hmantissa, -⟩ := h
  obtain ⟨c, rest, rfl, hc⟩ := hmantissa.exists_cons
  exact ⟨c, _, rfl, hc⟩

/-- What stands for a number behind a sign begins with no white space and with no sign. -/
theorem Literal.exists_cons (h : Literal negative t r) :
    ∃ c rest, t = c :: rest ∧ isSpace c = false ∧ Signless c := by
  have hword {c : UInt8} (hc : toLower c = 'i'.toUInt8 ∨ toLower c = 'n'.toUInt8) :
      isSpace c = false ∧ Signless c := by
    revert c
    simp only [Signless]
    decide +kernel
  have hnumeral {c : UInt8} (hc : isDigit c = true ∨ c = '.'.toUInt8) :
      isSpace c = false ∧ Signless c := by
    revert c
    simp only [Signless]
    decide +kernel
  cases h with
  | infinity h =>
    rw [ofString_infinity, ofString_inf, List.map_eq_cons_iff, List.map_eq_cons_iff] at h
    rcases h with ⟨c, rest, rfl, hc, -⟩ | ⟨c, rest, rfl, hc, -⟩ <;>
      exact ⟨c, rest, rfl, hword (.inl hc)⟩
  | nan h =>
    rw [ofString_nan, List.map_eq_cons_iff] at h
    obtain ⟨c, rest, rfl, hc, -⟩ := h
    exact ⟨c, _, rfl, hword (.inr hc)⟩
  | hexadecimal => exact ⟨_, _, rfl, hnumeral (.inl (by decide))⟩
  | decimal h =>
    obtain ⟨c, rest, rfl, hc⟩ := h.exists_cons
    exact ⟨c, rest, rfl, hnumeral hc⟩

/-- A decimal numeral is no word and no numeral in base sixteen. -/
theorem Scientific.not_special (h : Scientific isDigit 'e'.toUInt8 t digits places power) :
    special? negative t = none ∧ hexadecimal? negative t = none := by
  have hmark : ∀ c : UInt8, isDigit c = true ∨ isDigit c = true ∨ toLower c = 'e'.toUInt8 ∨
      c ∈ Text.ofString ".+-" → toLower c ≠ 'x'.toUInt8 := by decide +kernel
  have hmem := h.mem
  obtain ⟨c, rest, rfl, hc⟩ := h.exists_cons
  refine ⟨special?_eq_none hc negative rest,
    hexadecimal?_eq_none (fun b hb => hmark b (hmem b ?_)) negative⟩
  exact List.mem_cons_of_mem c (List.mem_of_mem_head? hb)

/-- What stands for a number behind a sign is read as the number. -/
theorem literal_iff : Literal negative t r ↔ (special? negative t <|> hexadecimal? negative t <|>
    decimal? negative t) = some ⟨r, t.length⟩ := by
  constructor
  · rintro (hword | ⟨hword, hnote⟩ | ⟨hx, h⟩ | h)
    · rw [special?_eq_some.2 (.inl ⟨hword, rfl⟩)]
      rfl
    · rw [special?_eq_some.2 (.inr ⟨_, _, rfl, hword, hnote, rfl⟩)]
      rfl
    · rw [special?_eq_none (.inl (by decide)),
        hexadecimal?_eq_some.2 ⟨_, _, _, _, _, rfl, hx, h, rfl⟩]
      rfl
    · rw [h.not_special.1, h.not_special.2, decimal?_eq_some.2 ⟨_, _, _, h, rfl⟩]
      rfl
  · intro h
    cases hspecial : special? negative t with
    | some r' =>
      rw [hspecial] at h
      obtain rfl : r' = ⟨r, t.length⟩ := Option.some.inj h
      rcases special?_eq_some.1 hspecial with ⟨hword, rfl⟩ | ⟨word, note, rfl, hword, hnote, rfl⟩
      · exact .infinity hword
      · exact .nan hword hnote
    | none =>
      rw [hspecial] at h
      cases hhexadecimal : hexadecimal? negative t with
      | some r' =>
        rw [hhexadecimal] at h
        obtain rfl : r' = ⟨r, t.length⟩ := Option.some.inj h
        obtain ⟨x, body, digits, places, power, rfl, hx, hbody, rfl⟩ :=
          hexadecimal?_eq_some.1 hhexadecimal
        exact .hexadecimal hx hbody
      | none =>
        rw [hhexadecimal] at h
        obtain ⟨digits, places, power, hbody, rfl⟩ := decimal?_eq_some.1 h
        exact .decimal hbody

/-- A text is read to its end as a floating point number if it is white space, a sign and one of the
forms of such numbers. -/
theorem float?_eq_some_length : float? t = some ⟨r, t.length⟩ ↔
    ∃ blanks negative sign body, t = blanks ++ (sign ++ body) ∧
      (∀ c ∈ blanks, isSpace c = true) ∧ Sign negative sign ∧ Literal negative body r := by
  rw [float?]
  constructor
  · intro h
    obtain ⟨negative, body, hsplit⟩ : ∃ negative body,
        splitSign (t.dropWhile isSpace) = (negative, body) := ⟨_, _, rfl⟩
    obtain ⟨sign, hsign, hdrop⟩ := exists_sign hsplit
    have ht : t = t.takeWhile isSpace ++ (sign ++ body) := by
      rw [← hdrop, List.takeWhile_append_dropWhile]
    have hlength := congrArg List.length ht
    rw [List.length_append, List.length_append] at hlength
    rw [hsplit] at h
    obtain ⟨⟨r', used⟩, hread, h⟩ := Option.map_eq_some_iff.1 h
    simp only [Reading.mk.injEq] at h
    obtain ⟨rfl, hused⟩ := h
    obtain rfl : used = body.length := by omega
    exact ⟨_, negative, sign, body, ht, fun c hc => List.mem_takeWhile_imp hc, hsign,
      literal_iff.2 hread⟩
  · rintro ⟨blanks, negative, sign, body, rfl, hblanks, hsign, hbody⟩
    obtain ⟨c, rest, hcons, hspace, hsignless⟩ := hbody.exists_cons
    have hhead : ∀ c ∈ body.head?, isSpace c = false ∧ Signless c := by
      rw [hcons]
      rintro _ ⟨⟩
      exact ⟨hspace, hsignless⟩
    have hplain : ∀ c ∈ (sign ++ body).head?, isSpace c = false := by
      cases hsign with
      | none => exact fun c hc => (hhead c hc).1
      | plus => simp; decide
      | minus => simp; decide
    rw [dropWhile_append hblanks hplain, splitSign_append hsign fun c hc => (hhead c hc).2]
    dsimp only
    rw [literal_iff.1 hbody, Option.map_some, List.length_append, List.length_append]
    simp only [Option.some.injEq, Reading.mk.injEq, true_and]
    omega

end Numeral
end FactGraph
