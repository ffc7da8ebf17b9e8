import Mathlib
import FactGraph.NTriples.Reader
import FactGraph.NTriples.Writer
import FactGraph.Proofs.Encoding
import FactGraph.Proofs.Numeral
import FactGraph.Proofs.Order
import FactGraph.Proofs.Recognition

/-!
# Documents are read back

Names and literals are escaped in two ways, byte by byte. A reader undoes the escape of one byte
whatever follows it (`iriBody_iriByte`, `quotedBody_quoteByte`), and so that of a whole text
(`Undoes.run`). No escape has a line feed in it, so a document falls into the lines of its facts
(`lines_flatMap`), and from each line its fact is read (`readLine_line`). Doubles, whose numerals
are rounded when they are read, are left out.
-/

namespace FactGraph

/-- The text of a blank node has digits from which the node is read back. -/
theorem Node.exists_toText_blank (high low : UInt64) : ∃ bytes,
    (blank high low).toText = '_'.toUInt8 :: ':'.toUInt8 :: 'b'.toUInt8 :: Text.hex bytes ∧
      ofDigits? (Text.hex bytes) = some (blank high low) := by
  have hmark : Text.ofString "_:b" = ['_'.toUInt8, ':'.toUInt8, 'b'.toUInt8] := by decide
  refine ⟨Word.bigEndian 8 high.toNat ++ Word.bigEndian 8 low.toNat, ?_, ?_⟩
  · simp [toText, hmark, Word.hex64, Text.hex]
  · have hhigh : high.toNat < 256 ^ 8 := high.toNat_lt
    have hlow : low.toNat < 256 ^ 8 := low.toNat_lt
    have htake : (Word.bigEndian 8 high.toNat ++ Word.bigEndian 8 low.toNat).take 8 =
        Word.bigEndian 8 high.toNat := List.take_left' (Word.length_bigEndian 8 _)
    have hdrop : (Word.bigEndian 8 high.toNat ++ Word.bigEndian 8 low.toNat).drop 8 =
        Word.bigEndian 8 low.toNat := List.drop_left' (Word.length_bigEndian 8 _)
    rw [ofDigits?, Text.unhex?_hex]
    simp [htake, hdrop, Word.ofBigEndian_bigEndian hhigh, Word.ofBigEndian_bigEndian hlow]

namespace NTriples

/-- The byte between the parts of a line. -/
abbrev separator : UInt8 := ' '.toUInt8

/-! ## Places -/

namespace Place

variable {position : Nat} {c : UInt8} {rest : Text}

theorem skip_cons (h : separates c = false) :
    skip ⟨position, c :: rest⟩ = ⟨position, c :: rest⟩ := by
  simp [skip, advance, h]

theorem skip_separator (h : separates c = false) :
    skip ⟨position, separator :: c :: rest⟩ = ⟨position + 1, c :: rest⟩ := by
  have hseparator : separates separator = true := rfl
  simp [skip, advance, hseparator, h]

/-! ## Escapes -/

theorem upperHexDigits_byte : ∀ b : UInt8,
    Text.hexValue? (upperHexDigit (b >>> 4)) = some (b >>> 4) ∧
    Text.hexValue? (upperHexDigit (b &&& 0x0F)) = some (b &&& 0x0F) ∧
    16 * (b >>> 4).toNat + (b &&& 0x0F).toNat = b.toNat := by
  decide +kernel

/-- Bytes that IRIs escape are characters of one byte. -/
theorem utf8EncodeChar_of_escapedInIri : ∀ b : UInt8, escapedInIri b = true →
    b.toNat.isValidChar ∧ String.utf8EncodeChar (Char.ofNat b.toNat) = [b] := by
  decide +kernel

theorem character_escape (h : escapedInIri c = true) (position : Nat) (rest : Text) :
    character 4 ⟨position, '0'.toUInt8 :: '0'.toUInt8 :: upperHexDigit (c >>> 4) ::
      upperHexDigit (c &&& 0x0F) :: rest⟩ = .ok ([c], ⟨position + 4, rest⟩) := by
  obtain ⟨hhigh, hlow, hsum⟩ := upperHexDigits_byte c
  obtain ⟨hvalid, hbytes⟩ := utf8EncodeChar_of_escapedInIri c h
  have hzero : Text.hexValue? '0'.toUInt8 = some 0 := rfl
  have hdigits : digits 4 0 ⟨position, '0'.toUInt8 :: '0'.toUInt8 :: upperHexDigit (c >>> 4) ::
      upperHexDigit (c &&& 0x0F) :: rest⟩ = .ok (c.toNat, ⟨position + 4, rest⟩) := by
    simpa [digits, advance, hzero, hhigh, hlow] using hsum
  simp [character, hdigits, hvalid, hbytes, bind, Except.bind, pure, Except.pure]

/-- Whether a reader undoes an escaping of bytes, up to a byte that closes the text. -/
structure Undoes (body : Nat → Text → Place → Except LineError (Text × Place))
    (write : UInt8 → Text) (close : UInt8) : Prop where
  /-- An escaped byte takes space. -/
  ne_nil : ∀ c, write c ≠ []
  /-- The escape of a byte is undone, whatever follows. -/
  step : ∀ c fuel read position rest, body (fuel + 1) read ⟨position, write c ++ rest⟩ =
    body fuel (c :: read) ⟨position + (write c).length, rest⟩
  /-- The text ends at the closing byte. -/
  stop : ∀ fuel read position rest, body (fuel + 1) read ⟨position, close :: rest⟩ =
    .ok (read.reverse, ⟨position + 1, rest⟩)

namespace Undoes

variable {body : Nat → Text → Place → Except LineError (Text × Place)} {write : UInt8 → Text}
  {close : UInt8}

theorem run (h : Undoes body write close) (t : Text) (fuel : Nat) (read : Text) (position : Nat)
    (rest : Text) : body (t.length + fuel) read ⟨position, t.flatMap write ++ rest⟩ =
      body fuel (t.reverse ++ read) ⟨position + (t.flatMap write).length, rest⟩ := by
  induction t generalizing read position with
  | nil => simp
  | cons c t ih =>
    rw [List.length_cons, Nat.add_right_comm, List.flatMap_cons, List.append_assoc, h.step, ih]
    simp [Nat.add_assoc]

theorem length_le (h : Undoes body write close) (t : Text) :
    t.length ≤ (t.flatMap write).length := by
  induction t with
  | nil => simp
  | cons c t ih =>
    have := List.length_pos_of_ne_nil (h.ne_nil c)
    simp only [List.flatMap_cons, List.length_append, List.length_cons]
    omega

/-- The fuel that a reader begins with is enough. -/
theorem reads (h : Undoes body write close) (t : Text) (position : Nat) (rest : Text) :
    body ((t.flatMap write ++ close :: rest).length + 1) []
      ⟨position, t.flatMap write ++ close :: rest⟩ =
        .ok (t, ⟨position + (t.flatMap write).length + 1, rest⟩) := by
  -- No escape is empty, so the fuel lasts for the text and the byte that closes it.
  have hle := h.length_le t
  obtain ⟨fuel, hfuel⟩ : ∃ fuel, (t.flatMap write ++ close :: rest).length = t.length + fuel :=
    Nat.exists_eq_add_of_le (by rw [List.length_append]; omega)
  rw [hfuel, Nat.add_assoc, h.run, h.stop]
  simp

end Undoes

/-! ## IRIs and labels -/

theorem iriBody_iriByte (c : UInt8) (fuel : Nat) (read : Text) (position : Nat) (rest : Text) :
    iriBody (fuel + 1) read ⟨position, iriByte c ++ rest⟩ =
      iriBody fuel (c :: read) ⟨position + (iriByte c).length, rest⟩ := by
  by_cases h : escapedInIri c = true
  · have hmark : Text.ofString "\\u00" =
        ['\\'.toUInt8, 'u'.toUInt8, '0'.toUInt8, '0'.toUInt8] := by decide
    have hclose : '\\'.toUInt8 ≠ '>'.toUInt8 ∧ 'u'.toUInt8 ≠ '>'.toUInt8 := by decide
    have hchar := character_escape h (position + 2) rest
    simp [iriByte, h, hmark, hclose, iriBody, advance, hchar, bind, Except.bind]
  · have hclose : c ≠ '>'.toUInt8 := fun heq => h (heq ▸ rfl)
    have hescape : c ≠ '\\'.toUInt8 := fun heq => h (heq ▸ rfl)
    simp [iriByte, h, iriBody, hclose, hescape, advance]

theorem undoes_iriBody : Undoes iriBody iriByte '>'.toUInt8 where
  ne_nil c := by
    rw [iriByte]
    split <;> simp
  step := iriBody_iriByte
  stop fuel read position rest := by simp [iriBody, advance]

theorem iri_append {name : Text} (h : name ≠ []) (position : Nat) (rest : Text) :
    iri ⟨position, NTriples.iri name ++ rest⟩ =
      .ok (name, ⟨position + (NTriples.iri name).length, rest⟩) := by
  have hbody := Undoes.reads undoes_iriBody name (position + 1) rest
  have hcloses : (name.flatMap iriByte ++ '>'.toUInt8 :: rest).contains '>'.toUInt8 = true := by
    simp
  have hnonempty : name.isEmpty = false := by simpa using h
  have hlength : position + (NTriples.iri name).length =
      position + 1 + (name.flatMap iriByte).length + 1 := by
    simp only [NTriples.iri, Text.bracket, List.length_cons, List.length_append, List.length_nil]
    omega
  rw [hlength]
  simp only [iri, NTriples.iri, Text.bracket, List.cons_append, List.append_assoc, List.nil_append,
    expect_cons, hbody, hcloses, hnonempty, bind, Except.bind, pure, Except.pure, Bool.not_true,
    Bool.false_eq_true, if_false]

/-- Whether a reader takes a text for something, if a separator follows. -/
def Reads {α : Type} (read : Place → Except LineError (α × Place)) (t : Text) (a : α) : Prop :=
  ∀ position rest, read ⟨position, t ++ separator :: rest⟩ =
    .ok (a, ⟨position + t.length, separator :: rest⟩)

theorem reads_blank (high low : UInt64) :
    Reads blank (Node.blank high low).toText (.node (.blank high low)) := by
  intro position rest
  obtain ⟨bytes, htext, hnode⟩ := Node.exists_toText_blank high low
  have hdigit : ∀ b : UInt8, endsLabel (Text.hexDigit (b >>> 4)) = false ∧
      endsLabel (Text.hexDigit (b &&& 0x0F)) = false := by decide +kernel
  have hlabel : ∀ c ∈ 'b'.toUInt8 :: Text.hex bytes, (!endsLabel c) = true := by
    intro c hc
    rcases List.mem_cons.1 hc with rfl | hc
    · rfl
    · simp [Text.forall_mem_hex (P := fun c => endsLabel c = false) hdigit hc]
  have htake : ('b'.toUInt8 :: (Text.hex bytes ++ separator :: rest)).takeWhile
      (fun c => !endsLabel c) = 'b'.toUInt8 :: Text.hex bytes := by
    rw [← List.cons_append, List.takeWhile_append_of_pos hlabel]
    simp [endsLabel]
  have hadvance := advance_append (position + 1 + 1) ('b'.toUInt8 :: Text.hex bytes)
    (separator :: rest)
  have hlength : position + (Node.blank high low).toText.length =
      position + 1 + 1 + ('b'.toUInt8 :: Text.hex bytes).length := by
    simp only [htext, List.length_cons]
    omega
  rw [List.cons_append] at hadvance
  rw [hlength]
  simp only [blank, htext, List.cons_append, expect_cons, htake, hadvance, List.isEmpty_cons,
    Bool.false_eq_true, if_false, ofLabel, beq_self_eq_true, if_true, hnode, bind, Except.bind,
    pure, Except.pure]

theorem reads_subject {n : Node} (h : n ≠ .named []) : Reads subject (node n) (.node n) := by
  intro position rest
  cases n with
  | named name =>
    have hne : name ≠ [] := by
      rintro rfl
      exact h rfl
    have hiri := iri_append hne position (separator :: rest)
    have hcons : NTriples.iri name ++ separator :: rest =
        '<'.toUInt8 :: (name.flatMap iriByte ++ '>'.toUInt8 :: separator :: rest) := by
      simp [NTriples.iri, Text.bracket]
    simp only [node, subject, hcons, beq_self_eq_true, if_true]
    rw [← hcons, hiri]
    rfl
  | blank high low =>
    have hblank := reads_blank high low position rest
    obtain ⟨bytes, htext, -⟩ := Node.exists_toText_blank high low
    have hopen : ('_'.toUInt8 == '<'.toUInt8) = false := by decide
    simp only [node, htext, List.cons_append] at hblank ⊢
    simp only [subject, hopen, beq_self_eq_true, Bool.false_eq_true, if_false, if_true, hblank]

/-! ## Literals -/

/-- A byte is quoted as it is, or by a letter behind a backslash. -/
theorem quoteByte_cases : ∀ c : UInt8,
    (Text.quoteByte c = [c] ∧ c ≠ '"'.toUInt8 ∧ c ≠ '\\'.toUInt8) ∨
      ∃ e, Text.quoteByte c = ['\\'.toUInt8, e] ∧ escaped? e = some c := by
  decide +kernel

theorem quotedBody_quoteByte (c : UInt8) (fuel : Nat) (read : Text) (position : Nat)
    (rest : Text) : quotedBody (fuel + 1) read ⟨position, Text.quoteByte c ++ rest⟩ =
      quotedBody fuel (c :: read) ⟨position + (Text.quoteByte c).length, rest⟩ := by
  rcases quoteByte_cases c with ⟨hquote, hclose, hescape⟩ | ⟨e, hquote, hletter⟩
  · simp [hquote, quotedBody, advance, hclose, hescape]
  · have hopen : '\\'.toUInt8 ≠ '"'.toUInt8 := by decide
    simp [hquote, quotedBody, advance, hopen, hletter]

theorem undoes_quotedBody : Undoes quotedBody Text.quoteByte '"'.toUInt8 where
  ne_nil c := by rcases quoteByte_cases c with ⟨hquote, -⟩ | ⟨e, hquote, -⟩ <;> simp [hquote]
  step := quotedBody_quoteByte
  stop fuel read position rest := by simp [quotedBody, advance]

theorem quoted_append (t : Text) (position : Nat) (rest : Text) :
    quoted ⟨position, Text.quote t ++ rest⟩ =
      .ok (t, ⟨position + (Text.quote t).length, rest⟩) := by
  have hbody := Undoes.reads undoes_quotedBody t (position + 1) rest
  have hlength : position + (Text.quote t).length =
      position + 1 + (t.flatMap Text.quoteByte).length + 1 := by
    simp only [Text.quote, List.length_cons, List.length_append, List.length_nil]
    omega
  rw [hlength]
  simp only [quoted, Text.quote, List.cons_append, List.append_assoc, List.nil_append, expect_cons,
    hbody, bind, Except.bind]

theorem object_quote (t : Text) (position : Nat) (rest : Text) :
    object ⟨position, Text.quote t ++ rest⟩ = (do
      let (v, p) ← literalEnd ⟨position + (Text.quote t).length, rest⟩ t
      return (.literal v, p)) := by
  have hquoted := quoted_append t position rest
  have hopen : '"'.toUInt8 ≠ '<'.toUInt8 ∧ '"'.toUInt8 ≠ '_'.toUInt8 := by decide
  have hcons : Text.quote t ++ rest = '"'.toUInt8 :: (t.flatMap Text.quoteByte ++
      '"'.toUInt8 :: rest) := by simp [Text.quote]
  simp only [object, hcons, beq_eq_false_iff_ne.2 hopen.1, beq_eq_false_iff_ne.2 hopen.2,
    beq_self_eq_true, Bool.false_eq_true, if_false, if_true]
  rw [← hcons, hquoted]
  rfl

theorem reads_string (t : Text) : Reads object (Text.quote t) (.literal (.string t)) := by
  intro position rest
  have hseparator : separator ≠ '@'.toUInt8 ∧ separator ≠ '^'.toUInt8 := by decide
  rw [object_quote]
  simp [literalEnd, hseparator, bind, Except.bind, pure, Except.pure]

/-- A typed literal is read as its value, or refused behind its type. -/
theorem object_typed {type : Text} (hne : type ≠ []) (hiri : NTriples.iri type = Text.bracket type)
    (literal : Text) (position : Nat) (rest : Text) :
    object ⟨position, typed literal type ++ separator :: rest⟩ =
      match typedLiteral literal type with
      | .ok v => .ok (.literal v, ⟨position + (typed literal type).length, separator :: rest⟩)
      | .error fault => .error ⟨position + (typed literal type).length + 1, fault⟩ := by
  have hmarks : Text.ofString "^^" = ['^'.toUInt8, '^'.toUInt8] := by decide
  have hmark : '^'.toUInt8 ≠ '@'.toUInt8 := by decide
  have htype := iri_append hne (position + (Text.quote literal).length + 1 + 1) (separator :: rest)
  have hlength : position + (typed literal type).length =
      position + (Text.quote literal).length + 1 + 1 + (Text.bracket type).length := by
    simp only [typed, hmarks, List.length_append, List.length_cons, List.length_nil]
    omega
  rw [hiri] at htype
  rw [hlength, typed, hmarks, List.append_assoc, List.append_assoc, object_quote]
  cases hv : typedLiteral literal type with
  | ok v => simp [literalEnd, hmark, htype, hv, bind, Except.bind, pure, Except.pure]
  | error fault => simp [literalEnd, hmark, htype, hv, fail, bind, Except.bind]

theorem reads_typed {literal type : Text} {v : Value} (hne : type ≠ [])
    (hiri : NTriples.iri type = Text.bracket type) (hv : typedLiteral literal type = .ok v) :
    Reads object (typed literal type) (.literal v) := by
  intro position rest
  rw [object_typed hne hiri, hv]

end Place

/-! ## Lines -/

theorem integerLiteral_ofInt (n : Int64) :
    integerLiteral (Text.ofInt n.toInt) = .ok (.integer n) := by
  simp [integerLiteral, Numeral.integer?_ofInt, Numeral.fitsInt64_toInt]

theorem typedLiteral_integer (n : Int64) :
    typedLiteral (Text.ofInt n.toInt) integerType = .ok (.integer n) := by
  have hname : (Text.localPart integerType == Text.ofString "integer") = true := by decide
  simp [typedLiteral, hname, integerLiteral_ofInt]

theorem typedLiteral_boolean (b : Bool) :
    typedLiteral (Value.booleanText b) booleanType = .ok (.boolean b) := by
  cases b <;> rfl

/-- Whether a document can hold a fact: no name in it is empty, and its object is no double. -/
structure Readable (f : Fact) : Prop where
  /-- The subject is not the node of the empty name. -/
  subject : f.subject ≠ .named []
  /-- The predicate is not empty. -/
  predicate : f.predicate ≠ []
  /-- The object is not the node of the empty name. -/
  object : f.object ≠ .named []
  /-- The object is no double. -/
  exact : ∀ x, f.object ≠ .float x

/-- The object that stands for a value in a document. -/
def Object.ofValue : Value → Object
  | .node n => .reference (.node n)
  | v => .literal v

theorem reads_term {v : Value} (hnamed : v ≠ .named []) (hexact : ∀ x, v ≠ .float x) :
    Place.Reads Place.object (term v) (Object.ofValue v) := by
  cases v with
  | node n =>
    have hn : n ≠ .named [] := by
      rintro rfl
      exact hnamed rfl
    exact fun position rest => Place.object_of_subject (Place.reads_subject hn position rest)
  | string t => exact Place.reads_string t
  | integer n =>
    exact Place.reads_typed (by decide) (by decide) (typedLiteral_integer n)
  | float x => exact absurd rfl (hexact x)
  | boolean b =>
    exact Place.reads_typed (by decide) (by decide) (typedLiteral_boolean b)

/-- The statement that a fact is written as. -/
def Statement.ofFact (f : Fact) : Statement := ⟨.node f.subject, f.predicate, .ofValue f.object⟩

@[simp] theorem Statement.toFact_ofFact (labelled : Text → Node) (f : Fact) :
    (Statement.ofFact f).toFact labelled = f := by
  obtain ⟨subject, predicate, object⟩ := f
  cases object <;> rfl

/-- Whether a text begins with a byte that is neither a separator nor the mark of a comment. -/
def Opens (t : Text) : Prop :=
  ∃ c rest, t = c :: rest ∧ Place.separates c = false ∧ c ≠ '#'.toUInt8

theorem opens_iri (name : Text) : Opens (iri name) := ⟨_, _, rfl, rfl, by decide⟩

theorem opens_node (n : Node) : Opens (node n) := by
  cases n with
  | named name => exact opens_iri name
  | blank high low =>
    obtain ⟨bytes, htext, -⟩ := Node.exists_toText_blank high low
    exact ⟨_, _, htext, rfl, by decide⟩

theorem opens_term (v : Value) : Opens (term v) := by
  cases v with
  | node n => exact opens_node n
  | string t | integer n | float x | boolean b => exact ⟨_, _, rfl, rfl, by decide⟩

theorem Opens.skip {t : Text} (h : Opens t) (position : Nat) (rest : Text) :
    Place.skip ⟨position, separator :: (t ++ rest)⟩ = ⟨position + 1, t ++ rest⟩ := by
  obtain ⟨c, tail, rfl, hc, -⟩ := h
  exact Place.skip_separator hc

theorem line_eq (f : Fact) : line f = node f.subject ++ separator :: (iri f.predicate ++
    separator :: (term f.object ++ [separator, '.'.toUInt8])) := by
  have hgap : Text.ofString " " = [separator] := by decide
  have hend : Text.ofString " ." = [separator, '.'.toUInt8] := by decide
  simp [line, hgap, hend]

/-- Whether a line is a statement depends on its object alone. -/
theorem statement_line_eq {f : Fact} (hsubject : f.subject ≠ .named [])
    (hpredicate : f.predicate ≠ []) : Place.statement ⟨0, line f⟩ = (do
      let (object, p) ← Place.object ⟨(node f.subject).length + 1 + (iri f.predicate).length + 1,
        term f.object ++ separator :: ['.'.toUInt8]⟩
      let p ← p.skip.expect '.'.toUInt8
      let p := p.skip
      if p.rest.isEmpty || p.rest.head? == some '#'.toUInt8 then
        return ⟨.node f.subject, f.predicate, object⟩
      else p.fail .afterPoint) := by
  have hnode := Place.reads_subject hsubject 0
    (iri f.predicate ++ separator :: (term f.object ++ [separator, '.'.toUInt8]))
  have hiri := Place.iri_append hpredicate ((node f.subject).length + 1)
    (separator :: (term f.object ++ [separator, '.'.toUInt8]))
  simp only [Place.statement, line_eq, hnode, (opens_iri _).skip, hiri, (opens_term _).skip, bind,
    Except.bind, Nat.zero_add]

theorem statement_line {f : Fact} (hsubject : f.subject ≠ .named []) (hpredicate : f.predicate ≠ [])
    (hobject : Place.Reads Place.object (term f.object) (Object.ofValue f.object)) :
    Place.statement ⟨0, line f⟩ = .ok (.ofFact f) := by
  have hpoint : Place.separates '.'.toUInt8 = false := rfl
  have hnothing (position : Nat) : Place.skip ⟨position, []⟩ = ⟨position, []⟩ := rfl
  rw [statement_line_eq hsubject hpredicate, hobject]
  simp only [Place.skip_separator hpoint, Place.expect_cons, hnothing, bind, Except.bind, pure,
    Except.pure]
  rfl

theorem readLine_line_eq (f : Fact) : readLine (line f) = some <$> Place.statement ⟨0, line f⟩ := by
  obtain ⟨c, rest, hline, hc, hcomment⟩ : Opens (line f) := by
    obtain ⟨c, rest, hnode, hc⟩ := opens_node f.subject
    exact ⟨c, _, by rw [line_eq, hnode, List.cons_append], hc⟩
  rw [hline]
  simp [readLine, Place.skip_cons hc, hcomment]

theorem readLine_line {f : Fact} (h : Readable f) :
    readLine (line f) = .ok (some (.ofFact f)) := by
  rw [readLine_line_eq, statement_line h.subject h.predicate (reads_term h.object h.exact)]
  rfl

/-! ## Documents -/

theorem newline_not_mem_iri (name : Text) : Text.newline ∉ iri name := by
  have hbyte : ∀ c, Text.newline ∉ iriByte c := by decide +kernel
  have hbracket : Text.newline ≠ '<'.toUInt8 ∧ Text.newline ≠ '>'.toUInt8 := by decide
  simp [iri, Text.bracket, hbyte, hbracket]

theorem newline_not_mem_node (n : Node) : Text.newline ∉ node n := by
  cases n with
  | named name => exact newline_not_mem_iri name
  | blank high low =>
    obtain ⟨bytes, htext, -⟩ := Node.exists_toText_blank high low
    have hhex : Text.newline ∉ Text.hex bytes := fun h =>
      Text.forall_mem_hex (P := (· ≠ Text.newline)) (by decide +kernel) h rfl
    have hmark : Text.newline ∉ ['_'.toUInt8, ':'.toUInt8, 'b'.toUInt8] := by decide
    rw [node, htext]
    exact fun h => (List.mem_append.1 h).elim hmark hhex

theorem newline_not_mem_quote (t : Text) : Text.newline ∉ Text.quote t := by
  have hbyte : ∀ c, Text.newline ∉ Text.quoteByte c := by decide +kernel
  have hmark : Text.newline ≠ '"'.toUInt8 := by decide
  simp [Text.quote, hbyte, hmark]

theorem newline_not_mem_typed {type : Text} (h : Text.newline ∉ Text.ofString "^^" ++
    Text.bracket type) (literal : Text) : Text.newline ∉ typed literal type := by
  rw [typed, List.append_assoc, List.mem_append, not_or]
  exact ⟨newline_not_mem_quote literal, h⟩

theorem newline_not_mem_term (v : Value) : Text.newline ∉ term v := by
  cases v with
  | node n => exact newline_not_mem_node n
  | string t => exact newline_not_mem_quote t
  | integer n => exact newline_not_mem_typed (by decide) _
  | float x => exact newline_not_mem_typed (by decide) _
  | boolean b => exact newline_not_mem_typed (by decide) _

theorem newline_not_mem_line (f : Fact) : Text.newline ∉ line f := by
  have hgap : Text.newline ≠ separator ∧ Text.newline ≠ '.'.toUInt8 := by decide
  simp [line_eq, newline_not_mem_node, newline_not_mem_iri, newline_not_mem_term, hgap]

end NTriples

theorem Text.lines_append {l : Text} (h : newline ∉ l) (rest : Text) :
    lines (l ++ newline :: rest) = l :: lines rest := by
  induction l with
  | nil => simp [lines]
  | cons c l ih =>
    obtain ⟨hc, hl⟩ := not_or.1 (mt List.mem_cons.2 h)
    have hlines := ih hl
    rw [lines] at hlines ⊢
    rw [List.cons_append, List.foldr_cons, hlines]
    simp [Ne.symm hc]

namespace NTriples

theorem lines_flatMap (facts : List Fact) :
    Text.lines (facts.flatMap fun f => line f ++ [Text.newline]) = facts.map line := by
  induction facts with
  | nil => rfl
  | cons f facts ih =>
    rw [List.flatMap_cons, List.append_assoc, List.singleton_append,
      Text.lines_append (newline_not_mem_line f), ih, List.map_cons]

theorem readLines_map {facts : List Fact} (h : ∀ f ∈ facts, Readable f) (number : Nat) :
    readLines number (facts.map line) = .ok (facts.map .ofFact) := by
  induction facts generalizing number with
  | nil => rfl
  | cons f facts ih =>
    have hfacts := ih (fun g hg => h g (List.mem_cons_of_mem _ hg)) (number + 1)
    rw [List.map_cons, readLines, readLine_line (h f List.mem_cons_self), hfacts]
    rfl

/-- The facts of a document are read back from it, in their order: names and literals of any bytes,
and blank nodes whatever nodes the labels of a document would get. -/
theorem parse_document (labelled : Text → Node) {facts : List Fact}
    (h : ∀ f ∈ facts, Readable f) :
    parse labelled (document facts) = .ok (Fact.sort facts) ∧ (Fact.sort facts).Perm facts ∧
      (Fact.sort facts).Pairwise fun f g => (compare f g).isLE := by
  refine ⟨?_, Fact.sort_perm facts, Fact.pairwise_sort facts⟩
  have hread : read (document facts) = .ok ((Fact.sort facts).map .ofFact) := by
    rw [read, document, lines_flatMap]
    exact readLines_map (fun f hf => h f (Fact.mem_sort.1 hf)) 1
  rw [parse, hread]
  simp [bind, Except.bind, pure, Except.pure, Function.comp_def]

theorem parse_document_escapes :
    let raw : Fact := ⟨.named [0, 10, 62, 92, 255], [32, 34, 60], .string [34, 92, 10, 13, 0, 200]⟩
    let knows : Fact := ⟨.named "b", "knows", .node (.blank 0x0123456789ABCDEF 7)⟩
    let isOpen : Fact := ⟨.blank 0 1, "open", .boolean false⟩
    let size : Fact := ⟨.blank 0x0123456789ABCDEF 7, "size", .integer (-12)⟩
    (∀ f ∈ [size, knows, isOpen, raw], Readable f) ∧
      parse .named (document [size, knows, isOpen, raw]) = .ok [raw, knows, isOpen, size] := by
  intro raw knows isOpen size
  have hreadable : ∀ f ∈ [size, knows, isOpen, raw], Readable f := by
    intro f hf
    simp only [List.mem_cons, List.not_mem_nil, or_false] at hf
    rcases hf with rfl | rfl | rfl | rfl <;>
      exact ⟨by decide +kernel, by decide +kernel, by decide +kernel, fun x h => by cases h⟩
  have hsort : Fact.sort [size, knows, isOpen, raw] = [raw, knows, isOpen, size] := by
    cbv
  refine ⟨hreadable, ?_⟩
  rw [(parse_document .named hreadable).1, hsort]

end NTriples
end FactGraph
