import FactGraph.Proofs.Document
import FactGraph.Proofs.Fidelity
import FactGraph.Proofs.Fingerprint
import FactGraph.Proofs.Identifiers
import FactGraph.Search.Goal

/-!
# Texts of values

The first byte of the text of a value says how the rest is to be read (`Value.look`): names stand
between angle brackets, strings between quotation marks, blank nodes have digits of a fixed number,
and numerals have few bytes to choose from. So texts tell values apart, and where the byte that ends
terms in keys stands behind a text they can be told from what follows (`Value.detaches_text`). A
name is written as it is, though: it must not have an angle bracket with that byte behind it.
-/

namespace FactGraph

/-! ## Numerals -/

/-- Whether a byte may stand in the text of an integer or a double. -/
def Text.isNumeric (c : UInt8) : Bool :=
  isDigit c || ['+', '-', '.', 'e', 'N', 'a', 'I', 'F'].any fun mark => mark.toUInt8 == c

theorem Text.isNumeric_of_isDigit {c : UInt8} (h : isDigit c = true) : isNumeric c = true := by
  rw [isNumeric, h, Bool.true_or]

theorem Text.isNumeric_of_mem_ofNat {n : Nat} {c : UInt8} (h : c ∈ ofNat n) :
    isNumeric c = true := isNumeric_of_isDigit (isDigit_of_mem_ofNat h)

theorem Text.mem_ofInt {n : Int} {c : UInt8} (hc : c ∈ ofInt n) :
    isDigit c = true ∨ c = '-'.toUInt8 := by
  rw [ofInt] at hc
  split at hc
  · rcases List.mem_cons.1 hc with rfl | hc
    · exact .inr rfl
    · exact .inl (isDigit_of_mem_ofNat hc)
  · exact .inl (isDigit_of_mem_ofNat hc)

theorem Text.isNumeric_of_mem_ofInt {n : Int} {c : UInt8} (hc : c ∈ ofInt n) :
    isNumeric c = true := by
  rcases mem_ofInt hc with hdigit | rfl
  · exact isNumeric_of_isDigit hdigit
  · rfl

theorem Text.ofInt_injective {m n : Int} (h : ofInt m = ofInt n) : m = n := by
  have hm := Numeral.integer?_ofInt m
  rw [h, Numeral.integer?_ofInt] at hm
  simp only [Option.some.injEq, Numeral.Reading.mk.injEq] at hm
  exact hm.1.symm

namespace Binary64

open Text

variable {x : Binary64} {c : UInt8}

theorem isNumeric_of_mem_pointed {t : Text} (h : ∀ c ∈ t, isNumeric c = true) :
    ∀ c ∈ pointed t, isNumeric c = true := by
  intro c hc
  rw [pointed] at hc
  split at hc
  · cases hc
  · rcases List.mem_cons.1 hc with rfl | hc
    · rfl
    · exact h c hc

theorem isNumeric_of_mem_exponentText {power : Int} (hc : c ∈ exponentText power) :
    isNumeric c = true := by
  rcases List.mem_cons.1 hc with rfl | hc
  · split <;> rfl
  · split at hc
    · rcases List.mem_cons.1 hc with rfl | hc
      · rfl
      · exact isNumeric_of_mem_ofNat hc
    · exact isNumeric_of_mem_ofNat hc

theorem isNumeric_of_mem_digitsText {count : Nat} {digits : Text} {power : Int}
    (h : ∀ c ∈ digits, isNumeric c = true) (hc : c ∈ digitsText count digits power) :
    isNumeric c = true := by
  have hshort : ∀ c ∈ dropTrailingZeros digits, isNumeric c = true := by
    intro c hc
    rw [dropTrailingZeros, List.mem_reverse] at hc
    exact h c (List.mem_reverse.1 ((List.dropWhile_sublist _).subset hc))
  have hdrop (n : Nat) : ∀ c ∈ (dropTrailingZeros digits).drop n, isNumeric c = true :=
    fun c hc => hshort c (List.mem_of_mem_drop hc)
  rw [digitsText] at hc
  split at hc
  · rcases List.mem_append.1 hc with hc | hc
    · rcases List.mem_append.1 hc with hc | hc
      · exact hshort c (List.mem_of_mem_take hc)
      · exact isNumeric_of_mem_pointed (hdrop 1) c hc
    · rcases List.mem_cons.1 hc with rfl | hc
      · rfl
      · exact isNumeric_of_mem_exponentText hc
  · split at hc
    · rcases List.mem_cons.1 hc with rfl | hc
      · rfl
      · refine isNumeric_of_mem_pointed (fun c hc => ?_) c hc
        rcases List.mem_append.1 hc with hc | hc
        · rw [(List.mem_replicate.1 hc).2]
          rfl
        · exact hshort c hc
    · rcases List.mem_append.1 hc with hc | hc
      · exact h c (List.mem_of_mem_take hc)
      · exact isNumeric_of_mem_pointed (hdrop _) c hc

theorem isNumeric_of_mem_absoluteText (hc : c ∈ x.absoluteText) : isNumeric c = true := by
  rw [absoluteText] at hc
  split at hc
  · rw [List.mem_singleton.1 hc]
    rfl
  · exact isNumeric_of_mem_digitsText (fun _ => isNumeric_of_mem_ofNat) hc

/-- A double is not a number, infinite or finite. -/
theorem cases_magnitude (x : Binary64) :
    x = nan ∨ x = infinity x.isNegative ∨ x.magnitude < infinityMagnitude := by
  by_cases hnan : x.isNaN = true
  · exact .inl (eq_nan hnan)
  by_cases hinfinite : x.isInfinite = true
  · exact .inr (.inl (eq_infinity hinfinite))
  · have hnan' : ¬ infinityMagnitude < x.magnitude := by simpa [isNaN] using hnan
    have hinfinite' : x.magnitude ≠ infinityMagnitude := by simpa [isInfinite] using hinfinite
    exact .inr (.inr (by omega))

theorem toText_nan : nan.toText = ['N', 'a', 'N'].map Char.toUInt8 := rfl

theorem toText_infinity (negative : Bool) : (infinity negative).toText =
    ((if negative then ['-'] else []) ++ ['I', 'N', 'F']).map Char.toUInt8 := by
  cases negative <;> rfl

theorem isNumeric_of_mem_toText (hc : c ∈ x.toText) : isNumeric c = true := by
  have hnan : nan.toText.all isNumeric = true := rfl
  have hinfinite (negative : Bool) : (infinity negative).toText.all isNumeric = true := by
    cases negative <;> rfl
  have hmark : (ofString ".0").all isNumeric = true := rfl
  rcases x.cases_magnitude with hx | hx | hx
  · rw [hx] at hc
    exact List.all_eq_true.1 hnan c hc
  · rw [hx] at hc
    exact List.all_eq_true.1 (hinfinite _) c hc
  · have habsolute : ∀ c ∈ completed x.absoluteText, isNumeric c = true := by
      intro c hc
      rw [completed] at hc
      split at hc
      · exact isNumeric_of_mem_absoluteText hc
      · exact (List.mem_append.1 hc).elim isNumeric_of_mem_absoluteText (List.all_eq_true.1 hmark c)
    rw [toText_eq hx] at hc
    split at hc
    · rcases List.mem_cons.1 hc with rfl | hc
      · rfl
      · exact habsolute c hc
    · exact habsolute c hc

/-- Every double is read back from its text. -/
theorem value_float?_toText (x : Binary64) :
    (Numeral.float? x.toText).map (fun r => r.value.value) = some x := by
  rcases x.cases_magnitude with hx | hx | hx
  · rw [hx]
    rfl
  · rw [hx]
    cases x.isNegative <;> rfl
  · rw [float?_toText hx, Option.map_some]

theorem toText_injective : Function.Injective toText := by
  intro x y h
  have hx := x.value_float?_toText
  rw [h, value_float?_toText] at hx
  exact (Option.some.inj hx).symm

/-- The text of a double has a byte that no integer has in its text. -/
theorem exists_mem_toText (x : Binary64) :
    ∃ c ∈ x.toText, isDigit c = false ∧ c ≠ '-'.toUInt8 := by
  rcases x.cases_magnitude with hx | hx | hx
  · rw [hx, toText_nan]
    decide
  · rw [hx, toText_infinity]
    cases x.isNegative <;> decide
  · have hmark : isMarked (completed x.absoluteText) = true := by
      rw [completed]
      split
      · assumption
      · exact isMarked_of_mem (.inl rfl) (List.mem_append_right _ List.mem_cons_self)
    obtain ⟨c, hc, heq⟩ := List.any_eq_true.1 hmark
    refine ⟨c, ?_, ?_⟩
    · rw [toText_eq hx]
      split
      · exact List.mem_cons_of_mem _ hc
      · exact hc
    · simp only [Bool.or_eq_true, beq_iff_eq] at heq
      rcases heq with (rfl | rfl) | rfl <;> decide

theorem ofInt_ne_toText (x : Binary64) (n : Int) : Text.ofInt n ≠ x.toText := by
  intro heq
  obtain ⟨c, hc, hdigit, hminus⟩ := x.exists_mem_toText
  rw [← heq] at hc
  rcases mem_ofInt hc with hc | hc
  · rw [hdigit] at hc
    cases hc
  · exact hminus hc

end Binary64

/-! ## Looks -/

namespace Value

/-- How the text of a value is to be read. -/
inductive Look where
  /-- There is a name between angle brackets. -/
  | bracketed
  /-- There are the digits of a blank node. -/
  | blank
  /-- There is a string between quotation marks. -/
  | quoted
  /-- There is a numeral. -/
  | numeral
  /-- There is the word for a truth value. -/
  | word
deriving DecidableEq

/-- How a text is to be read that begins with a byte. -/
def lookOf (c : UInt8) : Look :=
  if c == '<'.toUInt8 then .bracketed
  else if c == '_'.toUInt8 then .blank
  else if c == '"'.toUInt8 then .quoted
  else if Text.isNumeric c then .numeral
  else .word

/-- How the text of a value is to be read. -/
def look : Value → Look
  | node (.named _) => .bracketed
  | node (.blank ..) => .blank
  | string _ => .quoted
  | integer _ => .numeral
  | float _ => .numeral
  | boolean _ => .word

theorem lookOf_of_isNumeric : ∀ c : UInt8, Text.isNumeric c = true →
    lookOf c = .numeral ∧ c ≠ '?'.toUInt8 ∧ c ≠ '*'.toUInt8 := by
  decide +kernel

theorem booleanText_true : booleanText true = ['t', 'r', 'u', 'e'].map Char.toUInt8 := rfl

theorem booleanText_false : booleanText false = ['f', 'a', 'l', 's', 'e'].map Char.toUInt8 := rfl

/-- Texts of values begin with a byte that tells how they are to be read, and that is none with
which a variable or a wildcard begins. -/
theorem exists_cons_toText (x : Value) : ∃ c rest, x.toText = c :: rest ∧ lookOf c = x.look ∧
    c ≠ '?'.toUInt8 ∧ c ≠ '*'.toUInt8 := by
  have hnumeric {t : Text} (hne : t ≠ []) (h : ∀ c ∈ t, Text.isNumeric c = true) :
      ∃ c rest, t = c :: rest ∧ lookOf c = .numeral ∧ c ≠ '?'.toUInt8 ∧ c ≠ '*'.toUInt8 := by
    obtain ⟨c, rest, rfl⟩ := List.exists_cons_of_ne_nil hne
    exact ⟨c, rest, rfl, lookOf_of_isNumeric c (h c List.mem_cons_self)⟩
  cases x with
  | node n =>
    cases n with
    | named name => exact ⟨_, _, rfl, rfl, by decide, by decide⟩
    | blank high low =>
      have htext : (Node.blank high low).toText = '_'.toUInt8 :: ':'.toUInt8 :: 'b'.toUInt8 ::
          (Word.hex64 high ++ Word.hex64 low) := by
        rw [Node.toText, ← Node.blankMark, Node.blankMark_eq]
        rfl
      exact ⟨_, _, htext, rfl, by decide, by decide⟩
  | string t => exact ⟨_, _, rfl, rfl, by decide, by decide⟩
  | integer n =>
    refine hnumeric (t := Text.ofInt n.toInt) ?_ fun c hc => Text.isNumeric_of_mem_ofInt hc
    rw [Text.ofInt]
    split
    · simp
    · exact Text.ofNat_ne_nil _
  | float x =>
    refine hnumeric (t := x.toText) ?_ fun c hc => Binary64.isNumeric_of_mem_toText hc
    obtain ⟨c, hc, -⟩ := x.exists_mem_toText
    exact List.ne_nil_of_mem hc
  | boolean b =>
    cases b with
    | true => exact ⟨_, _, booleanText_true, rfl, by decide, by decide⟩
    | false => exact ⟨_, _, booleanText_false, rfl, by decide, by decide⟩

/-! ## Texts in keys -/

/-- Whether the text of a value ends where its name does: no angle bracket in the name has the byte
behind it that ends terms in keys. -/
def Closed (x : Value) : Prop :=
  ∀ name ∈ x.name?, ¬ ['>'.toUInt8, Atom.keySeparator] <:+: name

instance : DecidablePred Closed := fun x => inferInstanceAs (Decidable (∀ name ∈ x.name?, _))

theorem closed_named {name : Text} :
    (Value.named name).Closed ↔ ¬ ['>'.toUInt8, Atom.keySeparator] <:+: name :=
  ⟨fun h => h name rfl, fun h _ heq => Option.some.inj heq ▸ h⟩

end Value

/-- What stands in front of the first separator can be read back. -/
theorem append_separator_inj {p q rest rest' : Text} {c : UInt8} (hp : c ∉ p) (hq : c ∉ q)
    (h : p ++ c :: rest = q ++ c :: rest') : p = q ∧ rest = rest' := by
  induction p generalizing q with
  | nil =>
    cases q with
    | nil => exact ⟨rfl, (List.cons.inj h).2⟩
    | cons b q => exact absurd (List.mem_cons.2 (Or.inl (List.cons.inj h).1)) hq
  | cons a p ih =>
    rw [List.mem_cons, not_or] at hp
    cases q with
    | nil => exact absurd (List.cons.inj h).1.symm hp.1
    | cons b q =>
      rw [List.mem_cons, not_or] at hq
      obtain ⟨hab, h⟩ := List.cons.inj h
      obtain ⟨hpq, hrest⟩ := ih hp.2 hq.2 h
      exact ⟨by rw [hab, hpq], hrest⟩

/-- What stands in front of the first occurrence of two different bytes in a row can be read
back. -/
theorem append_pair_inj {m n s t : Text} {c d : UInt8} (hcd : c ≠ d) (hm : ¬ [c, d] <:+: m)
    (hn : ¬ [c, d] <:+: n) (h : m ++ c :: d :: s = n ++ c :: d :: t) : m = n ∧ s = t := by
  have hshorter {m n s t : Text} (hn : ¬ [c, d] <:+: n) {rest : Text} (hrest : n = m ++ rest)
      (heq : c :: d :: s = rest ++ c :: d :: t) : m = n ∧ s = t := by
    match rest with
    | [] =>
      simp only [List.nil_append, List.cons.injEq, true_and] at heq
      exact ⟨by simp [hrest], heq⟩
    | [a] =>
      simp only [List.singleton_append, List.cons.injEq] at heq
      exact absurd heq.2.1.symm hcd
    | a :: b :: rest =>
      simp only [List.cons_append, List.cons.injEq] at heq
      obtain ⟨rfl, rfl, -⟩ := heq
      exact absurd ⟨m, rest, by simp [hrest]⟩ hn
  rcases List.append_eq_append_iff.1 h with ⟨rest, hrest, heq⟩ | ⟨rest, hrest, heq⟩
  · exact hshorter hn hrest heq
  · exact (hshorter hm hrest heq).imp Eq.symm Eq.symm

theorem Text.detaches_quote : Encoding.Detaches quote Set.univ := by
  intro m _ n _ s t h
  have hm := NTriples.Place.quoted_append m 0 s
  rw [h, NTriples.Place.quoted_append] at hm
  simp only [Except.ok.injEq, Prod.mk.injEq, NTriples.Place.mk.injEq] at hm
  exact ⟨hm.1.symm, hm.2.2.symm⟩

namespace Node

theorem toText_injective : Function.Injective toText := by
  intro m n h
  have hm := parse?_toText m
  rw [h, parse?_toText] at hm
  exact (Option.some.inj hm).symm

theorem length_toText_blank (high low : UInt64) : (blank high low).toText.length = 35 := by
  have hlength : (blankMark ++ Word.hex64 high ++ Word.hex64 low).length = 35 := by
    simp [blankMark_eq, Word.hex64, Text.hex, Text.hexByte, List.length_flatMap,
      Word.length_bigEndian]
  exact hlength

end Node

namespace Value

/-- The texts of values can be told from what stands behind the byte that ends them. -/
theorem detaches_text :
    Encoding.Detaches (fun x : Value => x.toText ++ [Atom.keySeparator]) {x | x.Closed} := by
  intro x hx y hy s t h
  simp only [List.append_assoc, List.singleton_append] at h
  have hlook : x.look = y.look := by
    obtain ⟨c, rest, htext, hc, -⟩ := x.exists_cons_toText
    obtain ⟨d, rest', htext', hd, -⟩ := y.exists_cons_toText
    rw [htext, htext', List.cons_append, List.cons_append, List.cons.injEq] at h
    rw [← hc, ← hd, h.1]
  have hseparator : Text.isNumeric Atom.keySeparator = false := rfl
  have hinteger (n : Int64) : Atom.keySeparator ∉ Text.ofInt n.toInt := fun hmem =>
    absurd (Text.isNumeric_of_mem_ofInt hmem) (by simp [hseparator])
  have hfloat (x : Binary64) : Atom.keySeparator ∉ x.toText := fun hmem =>
    absurd (Binary64.isNumeric_of_mem_toText hmem) (by simp [hseparator])
  have hword : ∀ b, Atom.keySeparator ∉ booleanText b := by
    rw [Bool.forall_bool, booleanText_true, booleanText_false]
    decide
  have hinj {a b : Bool} (htext : booleanText a = booleanText b) : a = b := by
    have hlength : ∀ a b, (booleanText a).length = (booleanText b).length → a = b := by
      simp [booleanText_true, booleanText_false]
    exact hlength a b (congrArg List.length htext)
  match x, y, hlook with
  | node (.named m), node (.named n), _ =>
    simp only [toText, Node.toText, Text.bracket, List.cons_append, List.append_assoc,
      List.cons.injEq, true_and, List.nil_append] at h
    obtain ⟨rfl, hrest⟩ := append_pair_inj (by decide) (closed_named.1 hx) (closed_named.1 hy) h
    exact ⟨rfl, hrest⟩
  | node (.blank ..), node (.blank ..), _ =>
    obtain ⟨htext, hrest⟩ := List.append_inj h
      ((Node.length_toText_blank ..).trans (Node.length_toText_blank ..).symm)
    exact ⟨congrArg node (Node.toText_injective htext), (List.cons.inj hrest).2⟩
  | string m, string n, _ =>
    obtain ⟨rfl, hrest⟩ := Text.detaches_quote m trivial n trivial _ _ h
    exact ⟨rfl, (List.cons.inj hrest).2⟩
  | boolean a, boolean b, _ =>
    obtain ⟨htext, hrest⟩ := append_separator_inj (hword a) (hword b) h
    exact ⟨congrArg boolean (hinj htext), hrest⟩
  | integer m, integer n, _ =>
    obtain ⟨htext, hrest⟩ := append_separator_inj (hinteger m) (hinteger n) h
    rw [Int64.toInt_inj.1 (Text.ofInt_injective htext)]
    exact ⟨rfl, hrest⟩
  | integer n, float x, _ =>
    have htext := (append_separator_inj (hinteger n) (hfloat x) h).1
    exact absurd htext (x.ofInt_ne_toText n.toInt)
  | float x, integer n, _ =>
    have htext := (append_separator_inj (hfloat x) (hinteger n) h).1
    exact absurd htext.symm (x.ofInt_ne_toText n.toInt)
  | float x, float y, _ =>
    obtain ⟨htext, hrest⟩ := append_separator_inj (hfloat x) (hfloat y) h
    exact ⟨congrArg float (Binary64.toText_injective htext), hrest⟩

end Value

end FactGraph
