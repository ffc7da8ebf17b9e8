import FactGraph.NTriples.Reader
import FactGraph.Proofs.Numeral
import FactGraph.Proofs.Outcome

/-!
# Typed literals

A literal with a type is a value in one of five ways (`Denotes`): as an integer that fits in 64
bits, as a double in range, as one of the words for true and false, or, if its type is none of
these, as a text. Nothing else is accepted (`typedLiteral_eq_ok`).
-/

namespace FactGraph.NTriples

variable {literal type : Text} {v : Value}

/-- Whether a text is the decimal numeral of an integer, with white space and a sign in front. -/
def IsInteger (literal : Text) (n : Int) : Prop :=
  ∃ blanks sign digits, literal = blanks ++ (sign ++ digits) ∧
    (∀ c ∈ blanks, Text.isSpace c = true) ∧ digits ≠ [] ∧ (∀ c ∈ digits, Text.isDigit c = true) ∧
    (n = Numeral.decimalValue digits ∧ (sign = [] ∨ sign = ['+'.toUInt8]) ∨
      n = -(Numeral.decimalValue digits : Int) ∧ sign = ['-'.toUInt8])

/-- Whether a text is one of the words for a double, or the numeral of a number in their range. -/
def IsDouble (literal : Text) (x : Binary64) : Prop :=
  literal = "NaN" ∧ x = Binary64.nan ∨
  literal = "INF" ∧ x = Binary64.infinity false ∨
  literal = "-INF" ∧ x = Binary64.infinity true ∨
  literal ∉ (["NaN", "INF", "-INF"] : List Text) ∧
    ∃ r, Numeral.float? literal = some ⟨r, literal.length⟩ ∧ r.inRange = true ∧ x = r.value

/-- The types of integers. -/
def integerTypes : List Text := ["integer", "int", "long"]

/-- The types of doubles. -/
def doubleTypes : List Text := ["double", "float", "decimal"]

/-- Whether a literal of a type is a value. -/
inductive Denotes (literal type : Text) : Value → Prop
  /-- An integer is within 64 bits. -/
  | integer {n : Int} : Text.localPart type ∈ integerTypes → IsInteger literal n →
      Numeral.fitsInt64 n = true → Denotes literal type (.integer (Int64.ofInt n))
  /-- A double. -/
  | double {x : Binary64} : Text.localPart type ∈ doubleTypes → IsDouble literal x →
      Denotes literal type (.float x)
  /-- What is true is a word or a digit. -/
  | true : Text.localPart type = "boolean" → literal ∈ (["true", "1"] : List Text) →
      Denotes literal type (.boolean true)
  /-- So is what is false. -/
  | false : Text.localPart type = "boolean" → literal ∈ (["false", "0"] : List Text) →
      Denotes literal type (.boolean false)
  /-- Of any other type there are texts. -/
  | string : Text.localPart type ∉ integerTypes → Text.localPart type ∉ doubleTypes →
      Text.localPart type ≠ "boolean" → Denotes literal type (.string literal)

theorem splitSign_cases (t : Text) : ∃ sign negative rest, t = sign ++ rest ∧
    Numeral.splitSign t = (negative, rest) ∧
      (negative = false ∧ (sign = [] ∨ sign = ['+'.toUInt8]) ∨
        negative = true ∧ sign = ['-'.toUInt8]) := by
  cases t with
  | nil => exact ⟨[], false, [], rfl, rfl, .inl ⟨rfl, .inl rfl⟩⟩
  | cons c rest =>
    rw [Numeral.splitSign]
    split
    · next h => exact ⟨[c], true, rest, rfl, rfl, .inr ⟨rfl, by rw [beq_iff_eq.1 h]⟩⟩
    · split
      · next h => exact ⟨[c], false, rest, rfl, rfl, .inl ⟨rfl, .inr (by rw [beq_iff_eq.1 h])⟩⟩
      · exact ⟨[], false, c :: rest, rfl, rfl, .inl ⟨rfl, .inl rfl⟩⟩

/-- An integer that is read to the end of a text is the numeral that the text is. -/
theorem integer?_eq_some {n : Int} :
    Numeral.integer? literal = some ⟨n, literal.length⟩ ↔ IsInteger literal n := by
  constructor
  · intro h
    obtain ⟨⟨⟨negative, m⟩, used⟩, hsigned, hn⟩ := Option.map_eq_some_iff.1 h
    obtain ⟨body, hbody, -, hblanks, -⟩ := Text.exists_eq_takeWhile_append Text.isSpace literal
    have hdrop : literal.dropWhile Text.isSpace = body := by
      rw [← List.append_right_inj (literal.takeWhile Text.isSpace),
        List.takeWhile_append_dropWhile, ← hbody]
    obtain ⟨sign, negative', rest, hsign, hsplit, hcases⟩ := splitSign_cases body
    obtain ⟨tail, htail, hused, hdigits, -⟩ := Text.exists_eq_takeWhile_append Text.isDigit rest
    simp only [Numeral.signed?, hdrop, hsplit, hused] at hsigned
    generalize literal.takeWhile Text.isSpace = blanks at hbody hblanks
    generalize rest.takeWhile Text.isDigit = digits at htail hdigits hsigned
    split at hsigned
    · cases hsigned
    · next hne =>
      cases hsigned
      simp only [Numeral.Reading.mk.injEq] at hn
      obtain ⟨hvalue, hlength⟩ := hn
      have hdigit : digits ≠ [] := by simpa using hne
      have hpos : 0 < digits.length := List.length_pos_of_ne_nil hdigit
      have hsum : literal.length =
          blanks.length + (sign.length + (digits.length + tail.length)) := by
        rw [hbody, hsign, htail]
        simp only [List.length_append]
      have hnil : tail = [] := List.length_eq_zero_iff.1 (by omega)
      rw [hnil, List.append_nil] at htail
      refine ⟨blanks, sign, digits, by rw [hbody, hsign, htail], hblanks, hdigit, hdigits, ?_⟩
      rcases hcases with ⟨rfl, hs⟩ | ⟨rfl, hs⟩
      · exact .inl ⟨by simpa using hvalue.symm, hs⟩
      · exact .inr ⟨by simpa using hvalue.symm, hs⟩
  · rintro ⟨blanks, sign, digits, rfl, hblanks, hdigit, hdigits, hn⟩
    have hplain : ∀ c ∈ digits.head?, Text.isSpace c = false ∧ (c == '-'.toUInt8) = false ∧
        (c == '+'.toUInt8) = false :=
      fun c hc => Numeral.plain_of_isDigit c (hdigits c (List.mem_of_mem_head? hc))
    have hdrop : (blanks ++ (sign ++ digits)).dropWhile Text.isSpace = sign ++ digits := by
      refine Text.dropWhile_append hblanks ?_
      rcases hn with ⟨-, rfl | rfl⟩ | ⟨-, rfl⟩
      · exact fun c hc => (hplain c hc).1
      · exact fun c hc => by cases hc; rfl
      · exact fun c hc => by cases hc; rfl
    have hsplit : ∃ negative, Numeral.splitSign (sign ++ digits) = (negative, digits) ∧
        n = if negative then -(Numeral.decimalValue digits : Int)
          else Numeral.decimalValue digits := by
      rcases hn with ⟨hn, rfl | rfl⟩ | ⟨hn, rfl⟩
      · obtain ⟨c, digits, rfl⟩ := List.exists_cons_of_ne_nil hdigit
        obtain ⟨-, hminus, hplus⟩ := hplain c rfl
        exact ⟨false, by simp [Numeral.splitSign, hminus, hplus], hn⟩
      · exact ⟨false, rfl, hn⟩
      · exact ⟨true, rfl, hn⟩
    obtain ⟨negative, hsplit, rfl⟩ := hsplit
    have htake : digits.takeWhile Text.isDigit = digits := List.takeWhile_eq_self_iff.2 hdigits
    have hnonempty : digits.isEmpty = false := by simpa using hdigit
    simp [Numeral.integer?, Numeral.signed?, hdrop, hsplit, htake, hnonempty]

theorem integerLiteral_eq_ok : integerLiteral literal = .ok v ↔
    ∃ n, IsInteger literal n ∧ Numeral.fitsInt64 n = true ∧ v = .integer (Int64.ofInt n) := by
  simp only [← integer?_eq_some]
  rw [integerLiteral]
  cases h : Numeral.integer? literal with
  | none => simp
  | some r =>
    obtain ⟨m, used⟩ := r
    simp only [Option.some.injEq, Numeral.Reading.mk.injEq]
    constructor
    · intro h
      split_ifs at h with hfits hused
      cases h
      exact ⟨m, ⟨rfl, by simpa using hused⟩, by simpa using hfits, rfl⟩
    · rintro ⟨n, ⟨rfl, rfl⟩, hfits, rfl⟩
      simp [hfits]

theorem doubleLiteral_eq_ok : doubleLiteral literal = .ok v ↔
    ∃ x, IsDouble literal x ∧ v = .float x := by
  have hwords : ("INF" : Text) ≠ "NaN" ∧ ("-INF" : Text) ≠ "NaN" ∧ ("-INF" : Text) ≠ "INF" := by
    decide
  constructor
  · intro h
    rw [doubleLiteral] at h
    split at h
    · next hnan =>
      cases h
      exact ⟨_, .inl ⟨beq_iff_eq.1 hnan, rfl⟩, rfl⟩
    · next hnan =>
      split at h
      · next hinf =>
        cases h
        exact ⟨_, .inr (.inl ⟨beq_iff_eq.1 hinf, rfl⟩), rfl⟩
      · next hinf =>
        split at h
        · next hminus =>
          cases h
          exact ⟨_, .inr (.inr (.inl ⟨beq_iff_eq.1 hminus, rfl⟩)), rfl⟩
        · next hminus =>
          split at h
          · cases h
          · next x used hfloat =>
            split_ifs at h with hrange hused
            cases h
            refine ⟨_, .inr (.inr (.inr ⟨?_, x, ?_, by simpa using hrange, rfl⟩)), rfl⟩
            · simp only [beq_iff_eq] at hnan hinf hminus
              simp [hnan, hinf, hminus]
            · rw [hfloat, show used = literal.length by simpa using hused]
  · rintro ⟨x, ⟨rfl, rfl⟩ | ⟨rfl, rfl⟩ | ⟨rfl, rfl⟩ | ⟨hword, r, hfloat, hrange, rfl⟩, rfl⟩
    · simp [doubleLiteral]
    · simp [doubleLiteral, hwords]
    · simp [doubleLiteral, hwords]
    · simp only [List.mem_cons, List.not_mem_nil, or_false, not_or] at hword
      simp [doubleLiteral, hword, hfloat, hrange]

theorem booleanLiteral_eq_ok : booleanLiteral literal = .ok v ↔
    literal ∈ (["true", "1"] : List Text) ∧ v = .boolean true ∨
      literal ∈ (["false", "0"] : List Text) ∧ v = .boolean false := by
  have hwords : ∀ t ∈ (["false", "0"] : List Text), t ∉ (["true", "1"] : List Text) := by
    decide
  have htrue : (literal == "true" || literal == "1") = true ↔
      literal ∈ (["true", "1"] : List Text) := by simp
  have hfalse : (literal == "false" || literal == "0") = true ↔
      literal ∈ (["false", "0"] : List Text) := by simp
  rw [booleanLiteral]
  split
  · next h =>
    have hnot : literal ∉ (["false", "0"] : List Text) := fun hf => hwords _ hf (htrue.1 h)
    simp only [Except.ok.injEq, htrue.1 h, hnot, true_and, false_and, or_false, eq_comm]
  · next h =>
    rw [htrue] at h
    split
    · next h' => simp only [Except.ok.injEq, h, hfalse.1 h', true_and, false_and, false_or, eq_comm]
    · next h' =>
      rw [hfalse] at h'
      simp only [reduceCtorEq, h, h', false_and, or_false]

/-- The type tells what a literal has to be. -/
theorem typedLiteral_eq_ok : typedLiteral literal type = .ok v ↔ Denotes literal type v := by
  have hdistinct : (∀ t ∈ doubleTypes, t ∉ integerTypes) ∧
      ("boolean" : Text) ∉ integerTypes ∧ ("boolean" : Text) ∉ doubleTypes := by decide
  have hinteger : (Text.localPart type == "integer" || Text.localPart type == "int" ||
      Text.localPart type == "long") = true ↔ Text.localPart type ∈ integerTypes := by
    simp [integerTypes, or_assoc]
  have hdouble : (Text.localPart type == "double" || Text.localPart type == "float" ||
      Text.localPart type == "decimal") = true ↔ Text.localPart type ∈ doubleTypes := by
    simp [doubleTypes, or_assoc]
  rw [typedLiteral]
  constructor
  · intro h
    split at h
    · next htype =>
      obtain ⟨n, hn, hfits, rfl⟩ := integerLiteral_eq_ok.1 h
      exact .integer (hinteger.1 htype) hn hfits
    · next hi =>
      split at h
      · next htype =>
        obtain ⟨x, hx, rfl⟩ := doubleLiteral_eq_ok.1 h
        exact .double (hdouble.1 htype) hx
      · next hd =>
        split at h
        · next htype =>
          rcases booleanLiteral_eq_ok.1 h with ⟨hliteral, rfl⟩ | ⟨hliteral, rfl⟩
          · exact .true (beq_iff_eq.1 htype) hliteral
          · exact .false (beq_iff_eq.1 htype) hliteral
        · next hb =>
          cases h
          exact .string (mt hinteger.2 hi) (mt hdouble.2 hd) (by simpa using hb)
  · intro h
    cases h with
    | integer htype hn hfits =>
      rw [if_pos (hinteger.2 htype)]
      exact integerLiteral_eq_ok.2 ⟨_, hn, hfits, rfl⟩
    | double htype hx =>
      rw [if_neg (mt hinteger.1 (hdistinct.1 _ htype)), if_pos (hdouble.2 htype)]
      exact doubleLiteral_eq_ok.2 ⟨_, hx, rfl⟩
    | true htype hliteral =>
      rw [if_neg (mt hinteger.1 (htype ▸ hdistinct.2.1)),
        if_neg (mt hdouble.1 (htype ▸ hdistinct.2.2)), if_pos (beq_iff_eq.2 htype)]
      exact booleanLiteral_eq_ok.2 (.inl ⟨hliteral, rfl⟩)
    | false htype hliteral =>
      rw [if_neg (mt hinteger.1 (htype ▸ hdistinct.2.1)),
        if_neg (mt hdouble.1 (htype ▸ hdistinct.2.2)), if_pos (beq_iff_eq.2 htype)]
      exact booleanLiteral_eq_ok.2 (.inr ⟨hliteral, rfl⟩)
    | string hi hd hb =>
      rw [if_neg (mt hinteger.1 hi), if_neg (mt hdouble.1 hd), if_neg (by simpa using hb)]

end FactGraph.NTriples
