import FactGraph.Proofs.Floating
import FactGraph.Proofs.Proximity

/-!
# Objects on the command line

A word that is no node, no quoted text and no truth value (`Cli.Bare`) is taken for a number if it
is read to its end as one, and for a string otherwise. White space and a sign may stand in front of
both kinds of numbers. Digits are an integer if 64 bits hold it. A double needs a point or a letter
that looks like an exponent somewhere, and then may be a decimal numeral, a numeral in base sixteen
or a note on what is not a number (`Cli.Double`); what it stands for is rounded to the nearest
double (`Cli.object_of_bare`).
-/

namespace FactGraph.Cli

open Numeral Text

variable {word t : Text} {negative : Bool} {x : Binary64} {v : Value} {m : Nat} {n : Int64}

/-- A word that is no node, no quoted text and no truth value. A word of a command line has no zero
byte, which would end it. -/
structure Bare (word : Text) : Prop where
  /-- No byte is zero. -/
  nonzero : 0 ∉ word
  /-- The mark of blank nodes is not in front. -/
  unmarked : ¬ Text.ofString "_:" <+: word
  /-- There are no angle brackets around a name. -/
  unbracketed : ∀ name, word ≠ bracket name
  /-- There are no quotation marks around a text. -/
  unquoted : ∀ t, word ≠ '"'.toUInt8 :: (t ++ ['"'.toUInt8])
  /-- The word is not the one for what is true. -/
  ne_true : word ≠ "true"
  /-- The word is not the one for what is false. -/
  ne_false : word ≠ "false"

/-- What stands for a double behind a sign: a numeral in range, of which the nearest double is
taken, or a note on what is not a number. -/
inductive Double (negative : Bool) : Text → Binary64 → Prop
  /-- A decimal numeral, with a power of ten. -/
  | decimal {body digits : Text} {places : Nat} {power : Int} {x : Binary64}
      (h : Scientific isDigit 'e'.toUInt8 body digits places power)
      (hrange : (roundDecimal negative digits (power - places)).inRange = true)
      (hx : Binary64.IsNearest negative (decimalValue digits * 10 ^ (power - places)) x) :
      Double negative body x
  /-- A numeral in base sixteen, with a power of two. -/
  | hexadecimal {c : UInt8} {body digits : Text} {places : Nat} {power : Int} {x : Binary64}
      (hc : toLower c = 'x'.toUInt8)
      (h : Scientific isHexDigit 'p'.toUInt8 body digits places power)
      (hrange : (roundBinary negative (hexValue digits) (power - 4 * places)).inRange = true)
      (hx : Binary64.IsNearest negative (hexValue digits * 2 ^ (power - 4 * places)) x) :
      Double negative ('0'.toUInt8 :: c :: body) x
  /-- The word for what is not a number, in either case, with letters in parentheses. -/
  | nan {word letters : Text} (h : word.map toLower = Text.ofString "nan")
      (hletters : ∀ c ∈ letters, isWord c = true) :
      Double negative (word ++ '('.toUInt8 :: (letters ++ [')'.toUInt8])) Binary64.nan

/-! ## Bare words -/

theorem isBetween_iff {first last : Char} : isBetween first last word = true ↔
    ∃ t, word = first.toUInt8 :: (t ++ [last.toUInt8]) := by
  constructor
  · intro h
    simp only [isBetween, Bool.and_eq_true, decide_eq_true_eq, beq_iff_eq] at h
    obtain ⟨⟨hlength, hfirst⟩, hlast⟩ := h
    obtain ⟨rest, rfl⟩ := List.head?_eq_some_iff.1 hfirst
    rcases List.eq_nil_or_concat rest with rfl | ⟨t, c, rfl⟩
    · simp at hlength
    · rw [List.concat_eq_append, ← List.cons_append, List.getLast?_concat,
        Option.some.injEq] at hlast
      exact ⟨t, by rw [List.concat_eq_append, hlast]⟩
  · rintro ⟨t, rfl⟩
    have hlast := List.getLast?_concat (l := first.toUInt8 :: t) (a := last.toUInt8)
    rw [List.cons_append] at hlast
    simp [isBetween, hlast]

theorem bare_iff : Bare word ↔ 0 ∉ word ∧ ¬ Text.ofString "_:" <+: word ∧
    isBetween '<' '>' word = false ∧ isBetween '"' '"' word = false ∧ word ≠ "true" ∧
      word ≠ "false" := by
  simp only [← Bool.not_eq_true, isBetween_iff, not_exists]
  exact ⟨fun ⟨h₁, h₂, h₃, h₄, h₅, h₆⟩ => ⟨h₁, h₂, h₃, h₄, h₅, h₆⟩,
    fun ⟨h₁, h₂, h₃, h₄, h₅, h₆⟩ => ⟨h₁, h₂, h₃, h₄, h₅, h₆⟩⟩

instance : DecidablePred Bare := fun _ => decidable_of_iff _ bare_iff.symm

theorem Bare.object_eq (h : Bare word) :
    object word = .ok ((number? word).getD (.string word)) := by
  obtain ⟨-, hmark, hbracketed, hquoted, htrue, hfalse⟩ := bare_iff.1 h
  rw [← List.isPrefixOf_iff_prefix, Bool.not_eq_true] at hmark
  simp [object, hbracketed, hquoted, hmark, htrue, hfalse]

/-! ## Marks -/

theorem isMarked_append (s t : Text) :
    Binary64.isMarked (s ++ t) = (Binary64.isMarked s || Binary64.isMarked t) := List.any_append

theorem isMarked_blanks (h : ∀ c ∈ t, isSpace c = true) : Binary64.isMarked t = false := by
  have hplain : ∀ c : UInt8, isSpace c = true →
      (c == '.'.toUInt8 || c == 'e'.toUInt8 || c == 'E'.toUInt8) = false := by decide +kernel
  rw [Binary64.isMarked, List.any_eq_false]
  intro c hc
  simp [hplain c (h c hc)]

theorem isMarked_sign {sign : Text} (h : Sign negative sign) : Binary64.isMarked sign = false := by
  cases h <;> decide

/-- No integer has a byte that looks like a point or an exponent. -/
theorem isMarked_of_denotes (h : Denotes negative word m) : Binary64.isMarked word = false := by
  obtain ⟨blanks, sign, digits, rfl, hblanks, hsign, hdigits⟩ := h.exists_sign
  rw [isMarked_append, isMarked_append, isMarked_blanks hblanks, isMarked_sign hsign,
    Binary64.isMarked_digits hdigits]
  rfl

/-- No word for a number has a byte that looks like a point or an exponent. -/
theorem isMarked_word (h : t.map toLower = Text.ofString "infinity" ∨
    t.map toLower = Text.ofString "inf" ∨ t.map toLower = Text.ofString "nan") :
    Binary64.isMarked t = false := by
  have hletters : ∀ c : UInt8, toLower c ∈ Text.ofString "infinityan" →
      (c == '.'.toUInt8 || c == 'e'.toUInt8 || c == 'E'.toUInt8) = false := by
    decide +kernel
  have hsub : ∀ word ∈ [Text.ofString "infinity", Text.ofString "inf", Text.ofString "nan"],
      ∀ c ∈ word, c ∈ Text.ofString "infinityan" := by decide +kernel
  rw [Binary64.isMarked, List.any_eq_false]
  intro c hc
  have hword : t.map toLower ∈ [Text.ofString "infinity", Text.ofString "inf",
      Text.ofString "nan"] := by simpa using h
  simp [hletters c (hsub _ hword _ (List.mem_map_of_mem hc))]

/-! ## Integers -/

theorem integer?_eq_some : integer? word = some v ↔ ∃ negative m n, Denotes negative word m ∧
    n.toInt = (if negative then -(m : Int) else m) ∧ v = .integer n := by
  simp only [integer?, Numeral.integer?, bind, Option.bind_eq_some_iff, Option.map_eq_some_iff,
    denotes_iff]
  constructor
  · rintro ⟨_, ⟨⟨⟨negative, m⟩, used⟩, hread, rfl⟩, h⟩
    dsimp only at h
    generalize hz : (if negative then -(m : Int) else m) = z at h
    split at h
    · next hfits =>
      simp only [Bool.and_eq_true, beq_iff_eq, fitsInt64, decide_eq_true_eq] at hfits
      obtain ⟨rfl, hlow, hhigh⟩ := hfits
      rw [Int64.toInt_maxValue] at hhigh
      have htoInt : (Int64.ofInt z).toInt = z := Int64.toInt_ofInt_of_le hlow (by omega)
      exact ⟨negative, m, _, hread, htoInt.trans hz.symm, (Option.some.inj h).symm⟩
    · cases h
  · rintro ⟨negative, m, n, hread, hn, rfl⟩
    refine ⟨_, ⟨_, hread, rfl⟩, ?_⟩
    dsimp only
    rw [← hn, fitsInt64_toInt, Int64.ofInt_toInt]
    simp

/-! ## Doubles -/

theorem float?_eq_some : float? word = some v ↔ Binary64.isMarked word = true ∧
    ∃ r : Rounded, Numeral.float? word = some ⟨r, word.length⟩ ∧ r.inRange = true ∧
      v = .float r.value := by
  rw [float?]
  split
  · next hmarked =>
    simp only [bind, Option.bind_eq_some_iff, hmarked, true_and]
    constructor
    · rintro ⟨⟨r, used⟩, hread, h⟩
      split at h
      · next hrange =>
        simp only [Bool.and_eq_true, beq_iff_eq] at hrange
        obtain ⟨rfl, hrange⟩ := hrange
        exact ⟨r, hread, hrange, (Option.some.inj h).symm⟩
      · cases h
    · rintro ⟨r, hread, hrange, rfl⟩
      exact ⟨_, hread, by simp [hrange]⟩
  · next hmarked => simp [hmarked]

/-- What stands for a number in range behind a sign, with a byte that looks like a point or an
exponent, stands for a double. -/
theorem double_iff (hmarked : Binary64.isMarked t = true) :
    Double negative t x ↔ ∃ r, Literal negative t r ∧ r.inRange = true ∧ x = r.value := by
  constructor
  · rintro (⟨h, hrange, hx⟩ | ⟨hc, h, hrange, hx⟩ | ⟨h, hletters⟩)
    · exact ⟨_, .decimal h, hrange, (isNearest_roundDecimal hrange).1 hx⟩
    · exact ⟨_, .hexadecimal hc h, hrange, (isNearest_roundBinary hrange).1 hx⟩
    · exact ⟨_, .nan h (.parentheses hletters), rfl, rfl⟩
  · rintro ⟨r, h, hrange, rfl⟩
    cases h with
    | infinity hword =>
      rw [isMarked_word (hword.imp id .inl)] at hmarked
      cases hmarked
    | nan hword hnote =>
      cases hnote with
      | none =>
        rw [List.append_nil, isMarked_word (.inr (.inr hword))] at hmarked
        cases hmarked
      | parentheses hletters => exact .nan hword hletters
    | hexadecimal hc h => exact .hexadecimal hc h hrange ((isNearest_roundBinary hrange).2 rfl)
    | decimal h => exact .decimal h hrange ((isNearest_roundDecimal hrange).2 rfl)

/-! ## Objects -/

/-- No word is both an integer and a double, so that it does not matter which is tried first. -/
theorem number?_eq_some :
    number? word = some v ↔ integer? word = some v ∨ float? word = some v := by
  have hnone (h : float? word = some v) : integer? word = none := by
    rw [Option.eq_none_iff_forall_ne_some]
    intro v' hinteger
    obtain ⟨negative, m, n, hdenotes, -⟩ := integer?_eq_some.1 hinteger
    have hmarked := (float?_eq_some.1 h).1
    rw [isMarked_of_denotes hdenotes] at hmarked
    cases hmarked
  rw [number?]
  constructor
  · intro h
    cases hinteger : integer? word with
    | none => exact .inr (by simpa [hinteger] using h)
    | some v' => exact .inl (by simpa [hinteger] using h)
  · rintro (h | h)
    · rw [h]
      rfl
    · rw [hnone h, h]
      rfl

theorem number?_eq_integer : number? word = some (.integer n) ↔
    ∃ negative m, Denotes negative word m ∧ n.toInt = if negative then -(m : Int) else m := by
  have hfloat : float? word ≠ some (.integer n) := by
    rw [Ne, float?_eq_some]
    rintro ⟨-, r, -, -, h⟩
    cases h
  rw [number?_eq_some, or_iff_left hfloat, integer?_eq_some]
  refine exists_congr fun negative => exists_congr fun m => ?_
  constructor
  · rintro ⟨_, hdenotes, hn, h⟩
    cases h
    exact ⟨hdenotes, hn⟩
  · rintro ⟨hdenotes, hn⟩
    exact ⟨n, hdenotes, hn, rfl⟩

theorem number?_eq_float : number? word = some (.float x) ↔ Binary64.isMarked word = true ∧
    ∃ blanks negative sign body, word = blanks ++ (sign ++ body) ∧
      (∀ c ∈ blanks, isSpace c = true) ∧ Sign negative sign ∧ Double negative body x := by
  have hinteger : integer? word ≠ some (.float x) := by
    rw [Ne, integer?_eq_some]
    rintro ⟨negative, m, n, -, -, h⟩
    cases h
  have hbody {blanks sign body : Text} {negative : Bool} (hmarked : Binary64.isMarked word = true)
      (h : word = blanks ++ (sign ++ body)) (hblanks : ∀ c ∈ blanks, isSpace c = true)
      (hsign : Sign negative sign) : Binary64.isMarked body = true := by
    rwa [h, isMarked_append, isMarked_append, isMarked_blanks hblanks, isMarked_sign hsign,
      Bool.false_or, Bool.false_or] at hmarked
  rw [number?_eq_some, or_iff_right hinteger, float?_eq_some]
  simp only [float?_eq_some_length, Value.float.injEq]
  refine and_congr_right fun hmarked => ?_
  constructor
  · rintro ⟨r, ⟨blanks, negative, sign, body, h, hblanks, hsign, hliteral⟩, hrange, hx⟩
    exact ⟨blanks, negative, sign, body, h, hblanks, hsign,
      (double_iff (hbody hmarked h hblanks hsign)).2 ⟨r, hliteral, hrange, hx⟩⟩
  · rintro ⟨blanks, negative, sign, body, h, hblanks, hsign, hdouble⟩
    obtain ⟨r, hliteral, hrange, hx⟩ := (double_iff (hbody hmarked h hblanks hsign)).1 hdouble
    exact ⟨r, ⟨blanks, negative, sign, body, h, hblanks, hsign, hliteral⟩, hrange, hx⟩

/-- A bare word is an integer if it denotes one that 64 bits hold: white space, a sign and digits.
It is a double if it has a point or a letter that may be the mark of an exponent, and is white
space, a sign and a numeral in range, in base ten or sixteen, to whose value no finite double is
nearer, or a note on what is not a number. Otherwise it is a string. -/
theorem object_of_bare (hword : Bare word) :
    (∀ n : Int64, object word = .ok (.integer n) ↔
      ∃ negative m, Denotes negative word m ∧ n.toInt = if negative then -(m : Int) else m) ∧
    (∀ x : Binary64, object word = .ok (.float x) ↔ Binary64.isMarked word = true ∧
      ∃ blanks negative sign body, word = blanks ++ (sign ++ body) ∧
        (∀ c ∈ blanks, isSpace c = true) ∧ Sign negative sign ∧ Double negative body x) ∧
    ((∃ n, object word = .ok (.integer n)) ∨ (∃ x, object word = .ok (.float x)) ∨
      object word = .ok (.string word)) := by
  have hnumber {v : Value} (hv : v ≠ .string word) :
      object word = .ok v ↔ number? word = some v := by
    rw [hword.object_eq, Except.ok.injEq]
    cases number? word with
    | none => simpa using hv.symm
    | some v' => simp
  refine ⟨fun n => (hnumber (by simp)).trans number?_eq_integer,
    fun x => (hnumber (by simp)).trans number?_eq_float, ?_⟩
  cases hv : number? word with
  | none => exact .inr (.inr (by rw [hword.object_eq, hv, Option.getD_none]))
  | some v =>
    rw [hword.object_eq, hv, Option.getD_some]
    rcases number?_eq_some.1 hv with h | h
    · obtain ⟨-, -, n, -, -, rfl⟩ := integer?_eq_some.1 h
      exact .inl ⟨n, rfl⟩
    · obtain ⟨-, r, -, -, rfl⟩ := float?_eq_some.1 h
      exact .inr (.inl ⟨r.value, rfl⟩)

/-- An integer behind white space, a numeral in base sixteen with a point, a note on what is not a
number, and a numeral in base sixteen without a mark. -/
theorem object_of_bare_words :
    let x : Binary64 := .ofBits 0xBFF8000000000000
    (Bare " 5" ∧ object " 5" = .ok (.integer 5) ∧ ∃ negative m, Denotes negative " 5" m ∧
      (5 : Int64).toInt = if negative then -(m : Int) else m) ∧
    (Bare "-0x1.8" ∧ object "-0x1.8" = .ok (.float x) ∧
      ∃ blanks negative sign body, Text.ofString "-0x1.8" = blanks ++ (sign ++ body) ∧
        (∀ c ∈ blanks, isSpace c = true) ∧ Sign negative sign ∧ Double negative body x) ∧
    (Bare "nan(e)" ∧ object "nan(e)" = .ok (.float .nan)) ∧
    (Bare "0x18" ∧ object "0x18" = .ok (.string "0x18")) := by
  intro x
  have hblank : Bare " 5" := by decide +kernel
  have hfive : object " 5" = .ok (.integer 5) := by decide +kernel
  have hsixteen : Bare "-0x1.8" := by decide +kernel
  have hx : object "-0x1.8" = .ok (.float x) := by decide +kernel
  exact ⟨⟨hblank, hfive, ((object_of_bare hblank).1 5).1 hfive⟩,
    ⟨hsixteen, hx, (((object_of_bare hsixteen).2.1 x).1 hx).2⟩, by decide +kernel,
    by decide +kernel⟩

end FactGraph.Cli
