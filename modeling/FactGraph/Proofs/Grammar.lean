import FactGraph.Proofs.Literal

/-!
# The form of documents

What the lines of a document have to look like is said without a reader: which wordings stand for
which texts, which labels, names and literals there are, and how a line is made of them
(`Sentence`). A line is silent, or it says something, or it is malformed.
-/

namespace FactGraph.NTriples

open Place (separates endsLabel escaped? ofLabel)

variable {t rest name : Text}

/-! ## Texts between delimiters -/

/-- Whether digits in base sixteen are the number of a character with certain UTF-8 bytes. -/
def Numbers (digits bytes : Text) : Prop :=
  (∀ c ∈ digits, Numeral.isHexDigit c = true) ∧ (Numeral.hexValue digits).isValidChar ∧
    bytes = String.utf8EncodeChar (Char.ofNat (Numeral.hexValue digits))

/-- Whether a letter and digits, behind a backslash, are the escape of a character with certain
UTF-8 bytes. The letter tells how many digits there are. -/
def Escape (e : UInt8) (digits bytes : Text) : Prop :=
  (e = 'u'.toUInt8 ∧ digits.length = 4 ∨ e = 'U'.toUInt8 ∧ digits.length = 8) ∧
    Numbers digits bytes

theorem Escape.mark {e : UInt8} {d bytes : Text} (h : Escape e d bytes) :
    e = 'u'.toUInt8 ∨ e = 'U'.toUInt8 :=
  h.1.imp And.left And.left

/-- Whether a wording stands for a text, if a byte closes it and some letters are bytes behind a
backslash. -/
inductive Wording (close : UInt8) (letter? : UInt8 → Option UInt8) : Text → Text → Prop
  | nil : Wording close letter? [] []
  | byte {c : UInt8} {w t : Text} : c ≠ close → c ≠ '\\'.toUInt8 → Wording close letter? w t →
      Wording close letter? (c :: w) (c :: t)
  /-- A letter behind a backslash stands for a byte. -/
  | letter {e b : UInt8} {w t : Text} : letter? e = some b → Wording close letter? w t →
      Wording close letter? ('\\'.toUInt8 :: e :: w) (b :: t)
  /-- An escape behind a backslash stands for a character. -/
  | escape {e : UInt8} {digits bytes w t : Text} : Escape e digits bytes →
      Wording close letter? w t →
      Wording close letter? ('\\'.toUInt8 :: e :: (digits ++ w)) (bytes ++ t)

/-! ## Parts of a line -/

/-- Whether a text begins with a name in angle brackets and goes on with a rest. -/
def Named (t name rest : Text) : Prop :=
  ∃ w, t = '<'.toUInt8 :: (w ++ '>'.toUInt8 :: rest) ∧ name ≠ [] ∧
    Wording '>'.toUInt8 (fun _ => none) w name

/-- Whether a text begins with the label of a blank node and goes on with a rest. -/
def Labelled (t label rest : Text) : Prop :=
  t = '_'.toUInt8 :: ':'.toUInt8 :: (label ++ rest) ∧ label ≠ [] ∧
    (∀ c ∈ label, endsLabel c = false) ∧ ∀ c ∈ rest.head?, endsLabel c = true

/-- A node as a line mentions it. -/
inductive Mention where
  | name (name : Text)
  | label (label : Text)

/-- Whether a text begins with the mention of a node and goes on with a rest. -/
inductive Mentions (t : Text) : Mention → Text → Prop
  | name {n rest : Text} : Named t n rest → Mentions t (.name n) rest
  | label {l rest : Text} : Labelled t l rest → Mentions t (.label l) rest

theorem Named.head (h : Named t name rest) : t.head? = some '<'.toUInt8 := by
  obtain ⟨w, rfl, -⟩ := h
  rfl

theorem Named.plain (h : Named t name rest) : ∀ c ∈ t.head?, separates c = false := by
  intro c hc
  rw [h.head] at hc
  cases hc
  rfl

theorem Labelled.head {label : Text} (h : Labelled t label rest) : t.head? = some '_'.toUInt8 := by
  obtain ⟨rfl, -⟩ := h
  rfl

/-- A label goes on up to the first byte that ends labels. -/
theorem Labelled.takeWhile_eq {l : Text} (h : Labelled t l rest) :
    (l ++ rest).takeWhile (fun c => !endsLabel c) = l := by
  obtain ⟨-, -, hl, hrest⟩ := h
  exact Text.takeWhile_append (fun c hc => by simp [hl c hc]) fun c hc => by simp [hrest c hc]

theorem Labelled.unique {l l' rest' : Text} (h : Labelled t l rest) (h' : Labelled t l' rest') :
    l = l' ∧ rest = rest' := by
  have heq : l ++ rest = l' ++ rest' := by simpa using h.1.symm.trans h'.1
  have hlabels : l = l' := by rw [← h.takeWhile_eq, heq, h'.takeWhile_eq]
  exact ⟨hlabels, List.append_cancel_left (hlabels ▸ heq)⟩

variable {m : Mention} {x : Phrase}

theorem Mentions.head (h : Mentions t m rest) :
    t.head? = some '<'.toUInt8 ∨ t.head? = some '_'.toUInt8 := by
  cases h with
  | name h => exact .inl h.head
  | label h => exact .inr h.head

theorem Mentions.plain (h : Mentions t m rest) : ∀ c ∈ t.head?, separates c = false := by
  intro c hc
  rcases h.head with hhead | hhead <;> rw [hhead] at hc <;> cases hc <;> rfl

/-- Whether a text behind a quoted literal makes it a value and goes on with a rest. -/
inductive Completes (literal : Text) : Text → Value → Text → Prop
  /-- Nothing makes it a text. -/
  | plain {rest : Text} : (∀ c ∈ rest.head?, c ≠ '@'.toUInt8 ∧ c ≠ '^'.toUInt8) →
      Completes literal rest (.string literal) rest
  /-- A language is left out. -/
  | tagged {tag rest : Text} : (∀ c ∈ tag, c ≠ ' '.toUInt8 ∧ c ≠ '\t'.toUInt8) →
      (∀ c ∈ rest.head?, c = ' '.toUInt8 ∨ c = '\t'.toUInt8) →
      Completes literal ('@'.toUInt8 :: (tag ++ rest)) (.string literal) rest
  /-- A type makes it one of its values. -/
  | typed {t type rest : Text} {v : Value} : Named t type rest → Denotes literal type v →
      Completes literal ('^'.toUInt8 :: '^'.toUInt8 :: t) v rest

/-- An object as a line has it. -/
inductive Phrase where
  | mention (m : Mention)
  | literal (v : Value)

/-- Whether a text begins with an object and goes on with a rest. -/
inductive Phrases (t : Text) : Phrase → Text → Prop
  | mention {m : Mention} {rest : Text} : Mentions t m rest → Phrases t (.mention m) rest
  | literal {w literal u rest : Text} {v : Value} :
      t = '"'.toUInt8 :: (w ++ '"'.toUInt8 :: u) → Wording '"'.toUInt8 escaped? w literal →
      Completes literal u v rest → Phrases t (.literal v) rest

theorem Phrases.plain (h : Phrases t x rest) : ∀ c ∈ t.head?, separates c = false := by
  cases h with
  | mention h => exact h.plain
  | literal ht =>
    subst ht
    intro c hc
    cases hc
    rfl

/-! ## Lines -/

/-- What a line says. -/
structure Clause where
  subject : Mention
  predicate : Text
  object : Phrase

/-- Whether a text is nothing but separators. -/
def Gap (t : Text) : Prop := ∀ c ∈ t, separates c = true

/-- Whether nothing or a comment follows. -/
def Closes (t : Text) : Prop := t = [] ∨ t.head? = some '#'.toUInt8

/-- Whether a text, from its first byte on, is a subject, a predicate, an object and a point. -/
inductive Sentence (t : Text) (c : Clause) : Prop
  | intro {gap₁ gap₂ gap₃ gap₄ t₁ t₂ rest : Text} :
      Mentions t c.subject (gap₁ ++ t₁) → Gap gap₁ →
      Named t₁ c.predicate (gap₂ ++ t₂) → Gap gap₂ →
      Phrases t₂ c.object (gap₃ ++ '.'.toUInt8 :: (gap₄ ++ rest)) → Gap gap₃ → Gap gap₄ →
      Closes rest → Sentence t c

/-- Whether a line is empty or a comment. -/
def Silent (line : Text) : Prop := ∃ gap t, line = gap ++ t ∧ Gap gap ∧ Closes t

/-- Whether a line says something. -/
def States (line : Text) (c : Clause) : Prop := ∃ gap t, line = gap ++ t ∧ Gap gap ∧ Sentence t c

/-- Whether a line is neither empty nor a comment and says nothing. -/
def Malformed (line : Text) : Prop := ¬ Silent line ∧ ¬ ∃ c, States line c

/-- Whether lines say certain things, one after the other. -/
inductive Tells : List Text → List Clause → Prop
  | nil : Tells [] []
  | silent {line : Text} {lines : List Text} {clauses : List Clause} :
      Silent line → Tells lines clauses → Tells (line :: lines) clauses
  | states {line : Text} {lines : List Text} {c : Clause} {clauses : List Clause} :
      States line c → Tells lines clauses → Tells (line :: lines) (c :: clauses)

/-- The reference by which a node is mentioned. -/
def Mention.reference : Mention → Reference
  | .name n => .node (.named n)
  | .label l => ofLabel l

/-- The object that a line has. -/
def Phrase.object : Phrase → Object
  | .mention m => .reference m.reference
  | .literal v => .literal v

/-- The statement that a line makes. -/
def Clause.statement (c : Clause) : Statement :=
  ⟨c.subject.reference, c.predicate, c.object.object⟩

theorem Gap.unique {gap gap' u : Text} (hgap : Gap gap) (hgap' : Gap gap')
    (ht : ∀ c ∈ t.head?, separates c = false) (hu : ∀ c ∈ u.head?, separates c = false)
    (h : gap ++ t = gap' ++ u) : t = u := by
  rw [← Text.dropWhile_append hgap ht, h, Text.dropWhile_append hgap' hu]

theorem Closes.plain (h : Closes t) : ∀ c ∈ t.head?, separates c = false := by
  intro c hc
  rcases h with rfl | h
  · cases hc
  · rw [h] at hc
    cases hc
    rfl

theorem Sentence.plain {c : Clause} (h : Sentence t c) : ∀ d ∈ t.head?, separates d = false := by
  obtain ⟨hm, -⟩ := h
  exact hm.plain

theorem Sentence.not_closes {c : Clause} (h : Sentence t c) : ¬ Closes t := by
  obtain ⟨hm, -⟩ := h
  rintro (rfl | hcomment)
  · rcases hm.head with hhead | hhead <;> cases hhead
  · rcases hm.head with hhead | hhead <;>
      exact absurd (hhead.symm.trans hcomment) (by decide)

/-- The fact that a line states, given the nodes of the labels. -/
def Clause.fact (labelled : Text → Node) (c : Clause) : Fact := c.statement.toFact labelled

end FactGraph.NTriples
