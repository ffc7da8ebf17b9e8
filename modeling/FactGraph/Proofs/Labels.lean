import FactGraph.Proofs.Lines
import FactGraph.Proofs.Word

/-!
# Blank nodes of a document

A label of a blank node is the letter `b` with 32 digits, and then it means the node of the 128 bits
that the digits spell, or it means the node that its document has for it. If no node that the
document has for a label is met with under another label as well, then two places of the document
are about one blank node exactly if they have one label or spell the same bits
(`NTriples.parse_labels`).
-/

namespace FactGraph

/-! ## Digits of nodes -/

namespace Text

theorem hexValue?_lt {c v : UInt8} (h : hexValue? c = some v) : v < 16 := by
  have hall : ∀ c : UInt8, ((hexValue? c).all fun v => decide (v < 16)) = true := by decide +kernel
  simpa [h] using hall c

theorem toNat_join {high low : UInt8} (hhigh : high < 16) (hlow : low < 16) :
    (high <<< 4 ||| low).toNat = 16 * high.toNat + low.toNat := by
  have hfin : ∀ a b : Fin 16,
      (UInt8.ofNat a <<< 4 ||| UInt8.ofNat b).toNat = 16 * a.val + b.val := by decide
  have h := hfin ⟨high.toNat, hhigh⟩ ⟨low.toNat, hlow⟩
  simpa only [UInt8.ofNat_toNat] using h

/-- Two digits for every byte are a text in base sixteen, and have the value of its bytes. -/
theorem unhex?_eq_some {t bytes : Text} (h : unhex? t = some bytes) :
    t.length = 2 * bytes.length ∧ (∀ c ∈ t, Numeral.isHexDigit c = true) ∧
      Numeral.hexValue t = Word.ofBigEndian bytes := by
  fun_induction unhex? t generalizing bytes with
  | case1 =>
    cases h
    exact ⟨rfl, by simp, by simp [Word.ofBigEndian, Word.ofLittleEndian]⟩
  | case2 => cases h
  | case3 a b rest ih =>
    obtain ⟨high, ha, h⟩ := Option.bind_eq_some_iff.1 h
    obtain ⟨low, hb, h⟩ := Option.bind_eq_some_iff.1 h
    obtain ⟨tail, htail, h⟩ := Option.bind_eq_some_iff.1 h
    cases h
    obtain ⟨hlength, hdigits, hvalue⟩ := ih htail
    refine ⟨by simp only [List.length_cons]; omega, ?_, ?_⟩
    · have hdigit {c v : UInt8} (hc : hexValue? c = some v) : Numeral.isHexDigit c = true := by
        rw [Numeral.isHexDigit, hc]
        rfl
      exact List.forall_mem_cons.2 ⟨hdigit ha, List.forall_mem_cons.2 ⟨hdigit hb, hdigits⟩⟩
    · have hbyte := toNat_join (hexValue?_lt ha) (hexValue?_lt hb)
      have hone : Word.ofBigEndian [high <<< 4 ||| low] = 16 * high.toNat + low.toNat := by
        rw [← hbyte]
        simp [Word.ofBigEndian, Word.ofLittleEndian]
      have hpow : 16 ^ rest.length = 256 ^ tail.length := by
        rw [hlength, Nat.pow_mul]
      rw [Numeral.hexValue_cons ha, Numeral.hexValue_cons hb, hvalue, List.length_cons,
        Nat.pow_succ, hpow, ← List.singleton_append, Word.ofBigEndian_append, hone]
      rw [Nat.add_mul, ← Nat.add_assoc, Nat.mul_comm 16, Nat.mul_assoc, Nat.mul_comm 16]

theorem exists_unhex? {t : Text} {n : Nat} (hlength : t.length = 2 * n)
    (h : ∀ c ∈ t, Numeral.isHexDigit c = true) : ∃ bytes, unhex? t = some bytes := by
  induction n generalizing t with
  | zero =>
    rw [List.length_eq_zero_iff.1 hlength]
    exact ⟨[], rfl⟩
  | succ n ih =>
    obtain ⟨a, t, rfl⟩ := List.exists_cons_of_length_eq_add_one hlength
    rw [List.length_cons] at hlength
    obtain ⟨b, t, rfl⟩ := List.exists_cons_of_length_eq_add_one (Nat.succ.inj hlength)
    rw [List.forall_mem_cons, List.forall_mem_cons] at h
    obtain ⟨ha, hb, ht⟩ := h
    obtain ⟨high, ha⟩ := Option.isSome_iff_exists.1 ha
    obtain ⟨low, hb⟩ := Option.isSome_iff_exists.1 hb
    rw [List.length_cons] at hlength
    obtain ⟨tail, htail⟩ := ih (by omega) ht
    exact ⟨(high <<< 4 ||| low) :: tail, by simp [unhex?, ha, hb, htail]⟩

end Text

namespace Node

/-- The blank node of a number of 128 bits. -/
def ofBits (v : Nat) : Node := .blank (UInt64.ofNat (v / 2 ^ 64)) (UInt64.ofNat (v % 2 ^ 64))

theorem ofBits_inj {v w : Nat} (hv : v < 2 ^ 128) (hw : w < 2 ^ 128) :
    ofBits v = ofBits w ↔ v = w := by
  refine ⟨fun h => ?_, fun h => h ▸ rfl⟩
  rw [ofBits, ofBits, Node.blank.injEq, ← UInt64.toNat_inj, ← UInt64.toNat_inj] at h
  simp only [UInt64.toNat_ofNat'] at h
  omega

/-- Exactly 32 digits are a blank node, that of the bits that they spell. -/
theorem ofDigits?_eq_some {digits : Text} {n : Node} : ofDigits? digits = some n ↔
    digits.length = 32 ∧ (∀ c ∈ digits, Numeral.isHexDigit c = true) ∧
      n = ofBits (Numeral.hexValue digits) := by
  have hsplit {bytes : Text} (hlength : bytes.length = 16) :
      Word.ofBigEndian bytes / 2 ^ 64 = Word.ofBigEndian (bytes.take 8) ∧
        Word.ofBigEndian bytes % 2 ^ 64 = Word.ofBigEndian (bytes.drop 8) := by
    have hlow := Word.ofBigEndian_lt (bytes.drop 8)
    have hdrop : (bytes.drop 8).length = 8 := by rw [List.length_drop, hlength]
    have hvalue := Word.ofBigEndian_append (bytes.take 8) (bytes.drop 8)
    rw [hdrop] at hlow hvalue
    rw [List.take_append_drop] at hvalue
    omega
  constructor
  · intro h
    obtain ⟨bytes, hbytes, h⟩ := Option.bind_eq_some_iff.1 h
    obtain ⟨hlength, hdigits, hvalue⟩ := Text.unhex?_eq_some hbytes
    split at h
    · next hsixteen =>
      cases h
      obtain ⟨hhigh, hlow⟩ := hsplit hsixteen
      exact ⟨by omega, hdigits, by rw [ofBits, hvalue, hhigh, hlow]⟩
    · cases h
  · rintro ⟨hlength, hdigits, rfl⟩
    obtain ⟨bytes, hbytes⟩ := Text.exists_unhex? (n := 16) hlength hdigits
    obtain ⟨hlength', -, hvalue⟩ := Text.unhex?_eq_some hbytes
    have hsixteen : bytes.length = 16 := by omega
    obtain ⟨hhigh, hlow⟩ := hsplit hsixteen
    rw [ofBits, hvalue, hhigh, hlow]
    simp [ofDigits?, hbytes, hsixteen]

end Node

namespace NTriples

variable {labelled : Text → Node} {l l' document : Text} {v : Nat} {facts : List Fact}
  {clauses : List Clause}

/-! ## Labels -/

/-- Whether a label is the letter `b` with 32 digits that spell a number of 128 bits. -/
def Own (label : Text) (v : Nat) : Prop :=
  ∃ digits, label = 'b'.toUInt8 :: digits ∧ digits.length = 32 ∧
    (∀ c ∈ digits, Numeral.isHexDigit c = true) ∧ v = Numeral.hexValue digits

/-- Whether a label means something only within its document. -/
def Foreign (label : Text) : Prop := ∀ v, ¬ Own label v

theorem Own.lt (h : Own l v) : v < 2 ^ 128 := by
  obtain ⟨digits, rfl, hlength, hdigits, rfl⟩ := h
  obtain ⟨bytes, hbytes⟩ := Text.exists_unhex? (n := 16) hlength hdigits
  obtain ⟨hlength', -, hvalue⟩ := Text.unhex?_eq_some hbytes
  have hlt := Word.ofBigEndian_lt bytes
  rw [show bytes.length = 16 by omega] at hlt
  rw [hvalue]
  exact hlt

theorem Own.ofLabel (h : Own l v) : Place.ofLabel l = .node (.ofBits v) := by
  obtain ⟨digits, rfl, hlength, hdigits, rfl⟩ := h
  have hnode := Node.ofDigits?_eq_some.2 ⟨hlength, hdigits, rfl⟩
  simp only [Place.ofLabel, beq_self_eq_true, if_true, hnode]

theorem Foreign.ofLabel (h : Foreign l) : Place.ofLabel l = .label l := by
  cases l with
  | nil => rfl
  | cons c digits =>
    rw [Place.ofLabel]
    split
    · next n hn =>
      split at hn
      · next hc =>
        obtain ⟨hlength, hdigits, rfl⟩ := Node.ofDigits?_eq_some.1 hn
        exact absurd ⟨digits, by rw [beq_iff_eq.1 hc], hlength, hdigits, rfl⟩ (h _)
      · cases hn
    · rfl

theorem Own.unique {w : Nat} (h : Own l v) (h' : Own l w) : v = w := by
  obtain ⟨digits, rfl, -, -, rfl⟩ := h
  obtain ⟨digits', heq, -, -, rfl⟩ := h'
  rw [(List.cons.inj heq).2]

/-! ## Places of labels -/

/-- A side of a clause on which a node may stand. -/
inductive Side where
  | subject
  | object

/-- The label by which a node is mentioned. -/
def Mention.label? : Mention → Option Text
  | .name _ => none
  | .label l => some l

/-- The label on a side of a clause. -/
def Clause.label? (c : Clause) : Side → Option Text
  | .subject => c.subject.label?
  | .object =>
    match c.object with
    | .mention m => m.label?
    | .literal _ => none

/-- Whether a label stands on a side of the clause with a number. -/
def Occurs (clauses : List Clause) (i : Nat) (side : Side) (l : Text) : Prop :=
  ∃ c, clauses[i]? = some c ∧ c.label? side = some l

/-- The node on a side of a fact. -/
def nodeAt? (f : Fact) : Side → Option Node
  | .subject => some f.subject
  | .object => f.object.node?

/-- Whether the nodes of labels that mean something only within their document are met with under no
other label of it. -/
structure Fresh (labelled : Text → Node) (clauses : List Clause) : Prop where
  /-- They are not the nodes that other labels spell. -/
  ne_ofBits : ∀ i side l, Occurs clauses i side l → Foreign l →
    ∀ j side' l' v, Occurs clauses j side' l' → Own l' v → labelled l ≠ .ofBits v
  /-- Nor are they the nodes of other labels of their kind. -/
  injective : ∀ i side l, Occurs clauses i side l → Foreign l →
    ∀ j side' l', Occurs clauses j side' l' → Foreign l' → labelled l = labelled l' → l = l'

theorem nodeAt?_fact {c : Clause} {side : Side} (h : c.label? side = some l) :
    nodeAt? (c.fact labelled) side = some ((Place.ofLabel l).toNode labelled) := by
  obtain ⟨subject, predicate, object⟩ := c
  cases side with
  | subject =>
    cases subject with
    | name => cases h
    | label => cases h; rfl
  | object =>
    cases object with
    | literal => cases h
    | mention m =>
      cases m with
      | name => cases h
      | label => cases h; rfl

/-- Two labels of a document have one node exactly if they are one label or spell the same bits. -/
theorem toNode_ofLabel_eq_iff (hfresh : Fresh labelled clauses) {i j : Nat} {side side' : Side}
    (h : Occurs clauses i side l) (h' : Occurs clauses j side' l') :
    (Place.ofLabel l).toNode labelled = (Place.ofLabel l').toNode labelled ↔
      l = l' ∨ ∃ v, Own l v ∧ Own l' v := by
  by_cases hl : Foreign l
  · rw [hl.ofLabel]
    by_cases hl' : Foreign l'
    · rw [hl'.ofLabel]
      constructor
      · exact fun heq => .inl (hfresh.injective i side l h hl j side' l' h' hl' heq)
      · rintro (rfl | ⟨v, hv, -⟩)
        · rfl
        · exact absurd hv (hl v)
    · obtain ⟨v, hv⟩ := not_forall_not.1 hl'
      rw [hv.ofLabel]
      constructor
      · exact fun heq => absurd heq (hfresh.ne_ofBits i side l h hl j side' l' v h' hv)
      · rintro (rfl | ⟨w, hw, -⟩)
        · exact absurd hv (hl v)
        · exact absurd hw (hl w)
  · obtain ⟨v, hv⟩ := not_forall_not.1 hl
    rw [hv.ofLabel]
    by_cases hl' : Foreign l'
    · rw [hl'.ofLabel]
      constructor
      · exact fun heq => absurd heq.symm (hfresh.ne_ofBits j side' l' h' hl' i side l v h hv)
      · rintro (rfl | ⟨w, -, hw⟩)
        · exact absurd hv (hl' v)
        · exact absurd hw (hl' w)
    · obtain ⟨w, hw⟩ := not_forall_not.1 hl'
      rw [hw.ofLabel, Reference.toNode, Reference.toNode, Node.ofBits_inj hv.lt hw.lt]
      constructor
      · rintro rfl
        exact .inr ⟨v, hv, hw⟩
      · rintro (rfl | ⟨u, hu, hu'⟩)
        · exact hv.unique hw
        · rw [hv.unique hu, hw.unique hu']

/-- In a document that is read, what its lines say is known, and every label on a side of a clause
has a node on that side of the fact: that of the bits that it spells, or else the node of the label.
If the nodes of labels that mean something only within the document are met with under no other
label of it, then the nodes on two sides are one node exactly if there is one label on them or the
labels there spell the same bits. -/
theorem parse_labels (hparse : parse labelled document = .ok facts) : ∃ clauses,
    Tells document.lines clauses ∧
    (∀ clauses', Tells document.lines clauses' → clauses' = clauses) ∧
    facts.length = clauses.length ∧
    (∀ i side l, Occurs clauses i side l → ∃ f n, facts[i]? = some f ∧
      nodeAt? f side = some n ∧ (∀ v, Own l v → n = .ofBits v) ∧ (Foreign l → n = labelled l)) ∧
    (Fresh labelled clauses → ∀ i side l f j side' l' g, Occurs clauses i side l →
      facts[i]? = some f → Occurs clauses j side' l' → facts[j]? = some g →
        (nodeAt? f side = nodeAt? g side' ↔ l = l' ∨ ∃ v, Own l v ∧ Own l' v)) := by
  obtain ⟨statements, hread, -⟩ := bind_eq_ok.1 hparse
  obtain ⟨clauses, htells, -⟩ := readLines_eq_ok.1 hread
  have hmap : facts = clauses.map (Clause.fact labelled) := by
    rw [parse_of_tells htells, Except.ok.injEq] at hparse
    exact hparse.symm
  have hnode {i : Nat} {side : Side} {l : Text} (h : Occurs clauses i side l) :
      ∃ f, facts[i]? = some f ∧ nodeAt? f side = some ((Place.ofLabel l).toNode labelled) := by
    obtain ⟨c, hc, hl⟩ := h
    exact ⟨c.fact labelled, by rw [hmap, List.getElem?_map, hc]; rfl, nodeAt?_fact hl⟩
  refine ⟨clauses, htells, fun _ h => h.unique htells, by rw [hmap, List.length_map], ?_, ?_⟩
  · intro i side l h
    obtain ⟨f, hf, hn⟩ := hnode h
    refine ⟨f, _, hf, hn, fun v hv => ?_, fun hl => ?_⟩
    · rw [hv.ofLabel, Reference.toNode]
    · rw [hl.ofLabel, Reference.toNode]
  · intro hfresh i side l f j side' l' g h hf h' hg
    obtain ⟨f', hf', hn⟩ := hnode h
    obtain ⟨g', hg', hn'⟩ := hnode h'
    obtain rfl : f = f' := Option.some.inj (hf.symm.trans hf')
    obtain rfl : g = g' := Option.some.inj (hg.symm.trans hg')
    rw [hn, hn', Option.some.injEq]
    exact toNode_ofLabel_eq_iff hfresh h h'

/-- Labels with one number in upper and lower case, a label of the document, and one that is almost
of the form that spells bits. -/
theorem parse_labels_cases :
    let upper : Text := "b0000000000000000000000000000000A"
    let lower : Text := "b0000000000000000000000000000000a"
    let almost : Text := "B0000000000000000000000000000000A"
    let document : Text := "_:" ++ upper ++ " <p> _:" ++ lower ++ ".\n_:x <p> _:" ++ almost ++ " ."
    let labelled : Text → Node := fun l => .blank 1 (.ofNat l.length)
    let f : Fact := ⟨.ofBits 10, "p", .node (.ofBits 10)⟩
    let g : Fact := ⟨.blank 1 1, "p", .node (.blank 1 33)⟩
    parse labelled document = .ok [f, g] ∧ ∃ clauses, Tells document.lines clauses ∧
      Fresh labelled clauses ∧ ∀ i side l x j side' l' y, Occurs clauses i side l →
        [f, g][i]? = some x → Occurs clauses j side' l' → [f, g][j]? = some y →
          (nodeAt? x side = nodeAt? y side' ↔ l = l' ∨ ∃ v, Own l v ∧ Own l' v) := by
  intro upper lower almost document labelled f g
  have hread : (parse labelled document).toOption = some [f, g] := by decide +kernel
  have hparse : parse labelled document = .ok [f, g] := by
    cases h : parse labelled document with
    | error e =>
      rw [h] at hread
      cases hread
    | ok facts =>
      rw [h] at hread
      rw [Option.some.inj hread]
  obtain ⟨clauses, htells, -, -, -, hiff⟩ := parse_labels hparse
  -- With names for nodes, what is read shows which labels there are.
  let h : Fact := ⟨.named "x", "p", .named almost⟩
  have hnamed : (parse .named document).toOption = some [f, h] := by decide +kernel
  rw [parse_of_tells htells] at hnamed
  have hnodes : ∀ x ∈ [f, h], ∀ side, ∀ n ∈ nodeAt? x side,
      n = .ofBits 10 ∨ n = .named "x" ∨ n = .named almost := by
    intro x hx side n hn
    simp only [List.mem_cons, List.not_mem_nil, or_false] at hx
    rcases hx with rfl | rfl <;> cases side <;> cases hn
    · exact .inl rfl
    · exact .inl rfl
    · exact .inr (.inl rfl)
    · exact .inr (.inr rfl)
  have hlabels {i : Nat} {side : Side} {l : Text} (hl : Occurs clauses i side l) :
      (Place.ofLabel l).toNode .named = .ofBits 10 ∨
        (Place.ofLabel l).toNode .named = .named "x" ∨
          (Place.ofLabel l).toNode .named = .named almost := by
    obtain ⟨c, hc, hl⟩ := hl
    have hmem : c.fact .named ∈ [f, h] := by
      rw [← Option.some.inj hnamed]
      exact List.mem_map_of_mem (List.mem_of_getElem? hc)
    exact hnodes _ hmem side _ (nodeAt?_fact hl)
  have hforeign {i : Nat} {side : Side} {l : Text} (hl : Occurs clauses i side l)
      (hf : Foreign l) : l = "x" ∨ l = almost := by
    have hnode := hlabels hl
    rw [hf.ofLabel, Reference.toNode, Node.named.injEq, Node.named.injEq] at hnode
    exact hnode.resolve_left nofun
  have hown {i : Nat} {side : Side} {l : Text} {v : Nat} (hl : Occurs clauses i side l)
      (hv : Own l v) : Node.ofBits v = .ofBits 10 := by
    have hnode := hlabels hl
    rw [hv.ofLabel, Reference.toNode] at hnode
    exact hnode.resolve_right (by rintro (hn | hn) <;> cases hn)
  have hfresh : Fresh labelled clauses := by
    constructor
    · intro i side l hl hf j side' l' v hl' hv
      rw [hown hl' hv]
      rcases hforeign hl hf with rfl | rfl <;> decide +kernel
    · intro i side l hl hf j side' l' hl' hf' heq
      rcases hforeign hl hf with rfl | rfl <;> rcases hforeign hl' hf' with rfl | rfl
      · rfl
      · exact absurd heq (by decide +kernel)
      · exact absurd heq (by decide +kernel)
      · rfl
  exact ⟨hparse, clauses, htells, hfresh, hiff hfresh⟩

end NTriples

end FactGraph
