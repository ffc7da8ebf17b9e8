import Mathlib.Data.List.Nodup
import Mathlib.Data.Set.Function
import FactGraph.Encoding.Decode
import FactGraph.Proofs.Consequence
import FactGraph.Proofs.Outcome
import FactGraph.Proofs.Word

/-!
# Facts and their bytes

Reading the bytes of a fact gives the fact back, provided that its texts are within the limit
(`decode_factBytes`); what can be read from bytes is within the limit, and what is within the limit
has a digest (`Fact.id_eq_ok`).
-/

namespace FactGraph

@[simp] theorem Binary64.ofBits_bits (x : Binary64) : Binary64.ofBits x.bits = x := by
  obtain ⟨bits, hcanonical⟩ := x
  rw [Binary64.ofBits]
  split
  · next h => simp [hcanonical h]
  · rfl

/-! ## Limits -/

/-- Whether the texts of a fact are within the limit. -/
def Fact.WithinLimit (f : Fact) : Prop := ∀ t ∈ f.fields, t.length ≤ fieldLimit

/-- Whether the texts of a value are within the limit. -/
def Value.WithinLimit (x : Value) : Prop := ∀ t ∈ x.fields, t.length ≤ fieldLimit

theorem Fact.withinLimit_iff {f : Fact} : f.WithinLimit ↔ ∀ x ∈ f.values, x.WithinLimit := by
  simp only [Fact.WithinLimit, Value.WithinLimit, Fact.values, Fact.fields, List.mem_append,
    List.mem_cons, List.not_mem_nil, or_false, forall_eq, Value.fields,
    Value.named, Node.fields, or_imp, forall_and]

namespace Encoding

theorem checkFields_eq_ok {fields : List Text} :
    checkFields fields = .ok () ↔ ∀ t ∈ fields, t.length ≤ fieldLimit := by
  rw [checkFields]
  split
  · next t h =>
    simp only [reduceCtorEq, false_iff, not_forall]
    exact ⟨t, List.mem_of_find?_eq_some h, by simpa using List.find?_some h⟩
  · next h => simpa [List.find?_eq_none] using h

theorem encode_eq_ok {f : Fact} {bytes : Text} :
    encode f = .ok bytes ↔ f.WithinLimit ∧ bytes = factBytes f := by
  rw [encode, bind_eq_ok]
  constructor
  · rintro ⟨_, hf, hbytes⟩
    exact ⟨checkFields_eq_ok.1 hf, (pure_eq_ok.1 hbytes).symm⟩
  · rintro ⟨hf, rfl⟩
    exact ⟨(), checkFields_eq_ok.2 hf, rfl⟩

theorem nodeKey_eq_ok {n : Node} {key : Text} :
    nodeKey n = .ok key ↔ (Value.node n).WithinLimit ∧ key = nodeBytes n := by
  rw [nodeKey, bind_eq_ok]
  constructor
  · rintro ⟨_, hn, hkey⟩
    exact ⟨checkFields_eq_ok.1 hn, (pure_eq_ok.1 hkey).symm⟩
  · rintro ⟨hn, rfl⟩
    exact ⟨(), checkFields_eq_ok.2 hn, rfl⟩

theorem valueKey_eq_ok {x : Value} {key : Text} :
    valueKey x = .ok key ↔ x.WithinLimit ∧ key = valueBytes x := by
  rw [valueKey, bind_eq_ok]
  constructor
  · rintro ⟨_, hx, hkey⟩
    exact ⟨checkFields_eq_ok.1 hx, (pure_eq_ok.1 hkey).symm⟩
  · rintro ⟨hx, rfl⟩
    exact ⟨(), checkFields_eq_ok.2 hx, rfl⟩

end Encoding

/-- A fact has a digest exactly if its texts are within the limit. -/
theorem Fact.id_eq_ok {f : Fact} {id : Digest} : f.id = .ok id ↔ f.WithinLimit ∧ id = f.digest := by
  rw [Fact.id, bind_eq_ok]
  constructor
  · rintro ⟨bytes, hbytes, hid⟩
    obtain ⟨hf, rfl⟩ := Encoding.encode_eq_ok.1 hbytes
    exact ⟨hf, (pure_eq_ok.1 hid).symm⟩
  · rintro ⟨hf, rfl⟩
    exact ⟨_, Encoding.encode_eq_ok.2 ⟨hf, rfl⟩, rfl⟩

theorem Fact.WithinLimit.id {f : Fact} (h : f.WithinLimit) : f.id = .ok f.digest :=
  Fact.id_eq_ok.2 ⟨h, rfl⟩

theorem mapM_id_eq_ok {l : List Fact} {ids : List Digest} : l.mapM Fact.id = .ok ids ↔
    (∀ f ∈ l, f.WithinLimit) ∧ ids = l.map Fact.digest := by
  constructor
  · intro h
    have hall := forall₂_of_mapM h
    clear h
    induction hall with
    | nil => simp
    | cons hid _ ih =>
      obtain ⟨hf, rfl⟩ := Fact.id_eq_ok.1 hid
      exact ⟨List.forall_mem_cons.2 ⟨hf, ih.1⟩, by rw [ih.2, List.map_cons]⟩
  · rintro ⟨hl, rfl⟩
    refine mapM_of_forall₂ ?_
    rw [List.forall₂_map_right_iff, List.forall₂_same]
    exact fun f hf => (hl f hf).id

/-! ## Lengths -/

namespace Encoding

theorem length_fieldBytes (t : Text) : (fieldBytes t).length = 4 + t.length := by simp [fieldBytes]

theorem length_nodeBytes_le {n : Node} (h : (Value.node n).WithinLimit) :
    (nodeBytes n).length ≤ fieldLimit + 17 := by
  cases n with
  | named name =>
    have hname : name.length ≤ fieldLimit := h name (List.mem_singleton.2 rfl)
    rw [nodeBytes, List.length_cons, length_fieldBytes]
    omega
  | blank high low => simp [nodeBytes]

theorem length_valueBytes_le {x : Value} (h : x.WithinLimit) :
    (valueBytes x).length ≤ fieldLimit + 18 := by
  cases x with
  | node n =>
    have := length_nodeBytes_le h
    rw [valueBytes, List.length_cons]
    omega
  | string t =>
    have ht : t.length ≤ fieldLimit := h t (List.mem_singleton.2 rfl)
    rw [valueBytes, List.length_cons, length_fieldBytes]
    omega
  | integer n => simp [valueBytes]
  | float x => simp [valueBytes]
  | boolean b => simp [valueBytes]

/-- The bytes of a fact are few enough to be counted in four bytes, with room for some more. -/
theorem length_factBytes_lt {f : Fact} (h : f.WithinLimit) :
    (factBytes f).length < 256 ^ 4 - 64 := by
  have hvalues := Fact.withinLimit_iff.1 h
  have hsubject : (nodeBytes f.subject).length ≤ fieldLimit + 17 :=
    length_nodeBytes_le (hvalues _ (by simp [Fact.values]))
  have hpredicate : f.predicate.length ≤ fieldLimit := h _ (by simp [Fact.fields])
  have hobject : (valueBytes f.object).length ≤ fieldLimit + 18 :=
    length_valueBytes_le (hvalues _ (by simp [Fact.values]))
  rw [factBytes, List.length_cons, List.length_append, List.length_cons, List.length_append,
    length_fieldBytes]
  simp only [fieldLimit] at *
  omega

end Encoding

/-! ## Facts over given values -/

/-- The facts all of whose values are in a list. -/
def factsOfValues (values : List Value) : List Fact :=
  (values.filterMap Value.node?).flatMap fun n =>
    (values.filterMap Value.name?).flatMap fun p => values.map fun x => ⟨n, p, x⟩

theorem mem_factsOfValues {values : List Value} {f : Fact} :
    f ∈ factsOfValues values ↔ f ∈ factsOver {x | x ∈ values} := by
  simp only [factsOfValues, List.mem_flatMap, List.mem_filterMap, List.mem_map,
    Value.node?_eq_some, Value.name?_eq_some, exists_eq_right, Fact.mem_factsOver,
    Set.mem_ofPred_eq]
  constructor
  · rintro ⟨n, hn, p, hp, x, hx, rfl⟩
    exact ⟨hn, hp, hx⟩
  · rintro ⟨hn, hp, hx⟩
    exact ⟨_, hn, _, hp, _, hx, rfl⟩

/-- Digests that differ in their first two bytes tell the facts over few values apart. -/
theorem injOn_digest_of_nodup {values : List Value}
    (heads : ((factsOfValues values).map fun f => f.digest.bytes.take 2).Nodup) :
    Set.InjOn Fact.digest (factsOver {x | x ∈ values}) :=
  fun _ hf _ hg heq => List.inj_on_of_nodup_map heads (mem_factsOfValues.2 hf)
    (mem_factsOfValues.2 hg) (by rw [heq])

/-! ## Reading what was written -/

namespace Cursor

/-- Whether a reader takes certain bytes for something, whatever follows them. -/
def Reads {α : Type} (read : Cursor → Except PayloadFault (α × Cursor)) (bytes : Text) (a : α) :
    Prop :=
  ∀ position rest, read ⟨position, bytes ++ rest⟩ = .ok (a, ⟨position + bytes.length, rest⟩)

theorem reads_take (bytes : Text) : Reads (fun c => c.take bytes.length) bytes bytes := by
  intro position rest
  simp [take]

theorem reads_number {width n : Nat} (h : n < 256 ^ width) :
    Reads (fun c => c.number width) (Word.bigEndian width n) n := by
  intro position rest
  have ht := reads_take (Word.bigEndian width n) position rest
  rw [Word.length_bigEndian] at ht
  simp only [number, ht, bind, Except.bind, pure, Except.pure, Word.ofBigEndian_bigEndian h,
    Word.length_bigEndian]

theorem reads_field {t : Text} (h : t.length ≤ fieldLimit) :
    Reads field (Encoding.fieldBytes t) t := by
  intro position rest
  have hlimit : fieldLimit < 256 ^ 4 := by decide
  have hn := reads_number (show t.length < 256 ^ 4 by omega) position (t ++ rest)
  have ht := reads_take t (position + 4) rest
  rw [Word.length_bigEndian] at hn
  simp only [field, Encoding.fieldBytes, List.append_assoc, hn, bind, Except.bind,
    Nat.not_lt.2 h, if_false, ht, List.length_append, Word.length_bigEndian, Nat.add_assoc]

theorem reads_word (n : UInt64) :
    Reads (fun c => c.number 8) (Word.bigEndian 8 n.toNat) n.toNat :=
  reads_number (by simpa using n.toNat_lt)

theorem reads_node {n : Node} (h : (Value.node n).WithinLimit) : ∃ tag bytes,
    Encoding.nodeBytes n = tag :: bytes ∧ Reads (fun c => c.node tag) bytes n := by
  cases n with
  | named name =>
    refine ⟨_, _, rfl, fun position rest => ?_⟩
    have ht := reads_field (h name (by simp [Value.fields, Node.fields])) position rest
    simp [node, ht, bind, Except.bind, pure, Except.pure]
  | blank high low =>
    refine ⟨_, _, rfl, fun position rest => ?_⟩
    have hh := reads_word high position (Word.bigEndian 8 low.toNat ++ rest)
    have hl := reads_word low (position + 8) rest
    rw [Word.length_bigEndian] at hh hl
    have htag : ¬ Encoding.blankTag = Encoding.namedTag := by decide
    simp [node, htag, hh, hl, bind, Except.bind, pure, Except.pure]

theorem reads_value {x : Value} (h : x.WithinLimit) : Reads value (Encoding.valueBytes x) x := by
  intro position rest
  have hstring : ¬ Encoding.stringTag = Encoding.nodeTag := by decide
  have hinteger : ¬ Encoding.integerTag = Encoding.nodeTag ∧
      ¬ Encoding.integerTag = Encoding.stringTag := by decide
  have hfloat : ¬ Encoding.floatTag = Encoding.nodeTag ∧
      ¬ Encoding.floatTag = Encoding.stringTag ∧
        ¬ Encoding.floatTag = Encoding.integerTag := by decide
  have hboolean : ¬ Encoding.booleanTag = Encoding.nodeTag ∧
      ¬ Encoding.booleanTag = Encoding.stringTag ∧
        ¬ Encoding.booleanTag = Encoding.integerTag ∧
          ¬ Encoding.booleanTag = Encoding.floatTag := by decide
  cases x with
  | node n =>
    obtain ⟨tag, bytes, hbytes, hn⟩ := reads_node h
    simp [value, byte, Encoding.valueBytes, hbytes, hn (position + 1 + 1) rest, bind, Except.bind,
      pure, Except.pure]
    omega
  | string t =>
    have ht := reads_field (h t (by simp [Value.fields])) (position + 1) rest
    simp [value, byte, Encoding.valueBytes, hstring, ht, bind, Except.bind, pure, Except.pure]
    omega
  | integer n =>
    have hn := reads_word n.toUInt64 (position + 1) rest
    simp [value, byte, Encoding.valueBytes, hinteger, hn, bind, Except.bind, pure, Except.pure]
  | float x =>
    have hn := reads_word x.bits (position + 1) rest
    simp [value, byte, Encoding.valueBytes, hfloat, hn, bind, Except.bind, pure, Except.pure]
  | boolean b =>
    cases b <;>
      simp [value, byte, Encoding.valueBytes, hboolean, bind, Except.bind, pure, Except.pure]

/-- Behind the subject and the predicate of a fact its object is read. -/
theorem fact_append {f : Fact} (h : f.WithinLimit) (position : Nat) (rest : Text) :
    fact ⟨position, Encoding.version :: (Encoding.nodeBytes f.subject ++
      Encoding.predicateTag :: (Encoding.fieldBytes f.predicate ++ rest))⟩ =
    value ⟨position + 1 + (Encoding.nodeBytes f.subject).length + 1 +
      (Encoding.fieldBytes f.predicate).length, rest⟩ >>= fun r =>
        .ok (⟨f.subject, f.predicate, r.1⟩, r.2) := by
  obtain ⟨hsubject, hpredicate, -⟩ : (Value.node f.subject).WithinLimit ∧
      (Value.named f.predicate).WithinLimit ∧ f.object.WithinLimit := by
    simpa [Fact.values] using Fact.withinLimit_iff.1 h
  obtain ⟨tag, bytes, hbytes, hs⟩ := reads_node hsubject
  have hs := hs (position + 1 + 1)
    (Encoding.predicateTag :: (Encoding.fieldBytes f.predicate ++ rest))
  have hp := reads_field (hpredicate f.predicate (by simp [Value.fields, Node.fields]))
    (position + 1 + 1 + bytes.length + 1) rest
  have hlength : position + 1 + (bytes.length + 1) + 1 = position + 1 + 1 + bytes.length + 1 := by
    omega
  simp only at hs
  simp only [fact, byte, hbytes, List.cons_append, List.length_cons, hlength, hs, hp, bind,
    Except.bind, bne_self_eq_false, Bool.false_eq_true, if_false]
  rfl

/-- What a reader takes for the object may stand behind the subject and the predicate. -/
theorem reads_fact_of_object {f : Fact} (h : f.WithinLimit) {t : Text}
    (ht : Reads value t f.object) : Reads fact (Encoding.version :: (Encoding.nodeBytes f.subject ++
      Encoding.predicateTag :: (Encoding.fieldBytes f.predicate ++ t))) f := by
  intro position rest
  simp only [List.cons_append, List.append_assoc]
  rw [fact_append h, ht]
  simp [bind, Except.bind]
  omega

theorem reads_fact {f : Fact} (h : f.WithinLimit) : Reads fact (Encoding.factBytes f) f :=
  reads_fact_of_object h (reads_value (Fact.withinLimit_iff.1 h _ (by simp [Fact.values])))

/-! ## What can be read -/

theorem take_eq_ok {c c' : Cursor} {count : Nat} {t : Text} : c.take count = .ok (t, c') ↔
    count ≤ c.rest.length ∧ t = c.rest.take count ∧
      c' = ⟨c.position + count, c.rest.drop count⟩ := by
  rw [take]
  split
  · next h => simp [h]
  · next h => simp [Nat.not_lt.1 h, eq_comm]

/-- A field is a length within the limit and as many bytes. -/
theorem field_cases {c c' : Cursor} {t : Text} (h : c.field = .ok (t, c')) : ∃ length c₁,
    c.number 4 = .ok (length, c₁) ∧ length ≤ fieldLimit ∧ c₁.take length = .ok (t, c') := by
  obtain ⟨⟨length, c₁⟩, hlength, h⟩ := bind_eq_ok.1 h
  dsimp only at h
  split at h
  · obtain ⟨_, h, -⟩ := bind_eq_ok.1 h
    cases h
  · next hlimit => exact ⟨length, c₁, hlength, Nat.not_lt.1 hlimit, h⟩

/-- Behind its tag, a node is a name or two words. -/
theorem node_cases {c c' : Cursor} {tag : UInt8} {n : Node} (h : c.node tag = .ok (n, c')) :
    (∃ name, tag = Encoding.namedTag ∧ c.field = .ok (name, c') ∧ n = .named name) ∨
      ∃ high low c₁, tag = Encoding.blankTag ∧ c.number 8 = .ok (high, c₁) ∧
        c₁.number 8 = .ok (low, c') ∧ n = .blank (.ofNat high) (.ofNat low) := by
  rw [node] at h
  split at h
  · next htag =>
    obtain ⟨⟨name, c₁⟩, hname, h⟩ := bind_eq_ok.1 h
    cases pure_eq_ok.1 h
    exact .inl ⟨name, beq_iff_eq.1 htag, hname, rfl⟩
  · split at h
    · next htag =>
      obtain ⟨⟨high, c₁⟩, hhigh, h⟩ := bind_eq_ok.1 h
      obtain ⟨⟨low, c₂⟩, hlow, h⟩ := bind_eq_ok.1 h
      cases pure_eq_ok.1 h
      exact .inr ⟨high, low, c₁, beq_iff_eq.1 htag, hhigh, hlow, rfl⟩
    · cases h

/-- A value is a tag and what belongs to the tag. -/
theorem value_cases {c c' : Cursor} {x : Value} (h : c.value = .ok (x, c')) : ∃ tag c₁,
    c.byte = .ok (tag, c₁) ∧
      ((∃ tag' c₂ n, tag = Encoding.nodeTag ∧ c₁.byte = .ok (tag', c₂) ∧
          c₂.node tag' = .ok (n, c') ∧ x = .node n) ∨
        (∃ t, tag = Encoding.stringTag ∧ c₁.field = .ok (t, c') ∧ x = .string t) ∨
        (∃ n, tag = Encoding.integerTag ∧ c₁.number 8 = .ok (n, c') ∧
          x = .integer (UInt64.ofNat n).toInt64) ∨
        (∃ b, tag = Encoding.floatTag ∧ c₁.number 8 = .ok (b, c') ∧
          x = .float (.ofBits (.ofNat b))) ∨
        ∃ b, tag = Encoding.booleanTag ∧ c₁.byte = .ok (b, c') ∧ ¬ 1 < b ∧
          x = .boolean (b == 1)) := by
  obtain ⟨⟨tag, c₁⟩, hbyte, h⟩ := bind_eq_ok.1 h
  refine ⟨tag, c₁, hbyte, ?_⟩
  dsimp only at h
  split at h
  · next htag =>
    obtain ⟨⟨tag', c₂⟩, hbyte', h⟩ := bind_eq_ok.1 h
    obtain ⟨⟨n, c₃⟩, hn, h⟩ := bind_eq_ok.1 h
    cases pure_eq_ok.1 h
    exact .inl ⟨tag', c₂, n, beq_iff_eq.1 htag, hbyte', hn, rfl⟩
  · split at h
    · next htag =>
      obtain ⟨⟨t, c₂⟩, ht, h⟩ := bind_eq_ok.1 h
      cases pure_eq_ok.1 h
      exact .inr (.inl ⟨t, beq_iff_eq.1 htag, ht, rfl⟩)
    · split at h
      · next htag =>
        obtain ⟨⟨n, c₂⟩, hn, h⟩ := bind_eq_ok.1 h
        cases pure_eq_ok.1 h
        exact .inr (.inr (.inl ⟨n, beq_iff_eq.1 htag, hn, rfl⟩))
      · split at h
        · next htag =>
          obtain ⟨⟨b, c₂⟩, hb, h⟩ := bind_eq_ok.1 h
          cases pure_eq_ok.1 h
          exact .inr (.inr (.inr (.inl ⟨b, beq_iff_eq.1 htag, hb, rfl⟩)))
        · split at h
          · next htag =>
            obtain ⟨⟨b, c₂⟩, hb, h⟩ := bind_eq_ok.1 h
            dsimp only at h
            split at h
            · obtain ⟨_, h, -⟩ := bind_eq_ok.1 h
              cases h
            · next hle =>
              cases pure_eq_ok.1 h
              exact .inr (.inr (.inr (.inr ⟨b, beq_iff_eq.1 htag, hb, hle, rfl⟩)))
          · cases h

/-- A fact is the version, a node, the tag of a predicate, a field and a value. -/
theorem fact_cases {c c' : Cursor} {f : Fact} (h : c.fact = .ok (f, c')) :
    ∃ tag c₁ c₂ c₃ c₄ c₅, c.byte = .ok (Encoding.version, c₁) ∧ c₁.byte = .ok (tag, c₂) ∧
      c₂.node tag = .ok (f.subject, c₃) ∧ c₃.byte = .ok (Encoding.predicateTag, c₄) ∧
      c₄.field = .ok (f.predicate, c₅) ∧ c₅.value = .ok (f.object, c') := by
  obtain ⟨⟨version, c₁⟩, hversion, h⟩ := bind_eq_ok.1 h
  dsimp only at h
  split at h
  · obtain ⟨_, h, -⟩ := bind_eq_ok.1 h
    cases h
  · next hne =>
    obtain ⟨⟨tag, c₂⟩, htag, h⟩ := bind_eq_ok.1 h
    obtain ⟨⟨subject, c₃⟩, hsubject, h⟩ := bind_eq_ok.1 h
    obtain ⟨⟨tag', c₄⟩, htag', h⟩ := bind_eq_ok.1 h
    dsimp only at h
    split at h
    · obtain ⟨_, h, -⟩ := bind_eq_ok.1 h
      cases h
    · next hne' =>
      obtain ⟨⟨predicate, c₅⟩, hpredicate, h⟩ := bind_eq_ok.1 h
      obtain ⟨⟨object, c₆⟩, hobject, h⟩ := bind_eq_ok.1 h
      cases pure_eq_ok.1 h
      obtain rfl : version = Encoding.version := by simpa using hne
      obtain rfl : tag' = Encoding.predicateTag := by simpa using hne'
      exact ⟨tag, c₁, c₂, c₃, c₄, c₅, hversion, htag, hsubject, htag', hpredicate, hobject⟩

theorem length_of_field {c c' : Cursor} {t : Text} (h : c.field = .ok (t, c')) :
    t.length ≤ fieldLimit := by
  obtain ⟨length, c₁, -, hlimit, ht⟩ := field_cases h
  rw [(take_eq_ok.1 ht).2.1]
  exact (List.length_take_le ..).trans hlimit

theorem withinLimit_of_node {c c' : Cursor} {tag : UInt8} {n : Node}
    (h : c.node tag = .ok (n, c')) : (Value.node n).WithinLimit := by
  rcases node_cases h with ⟨name, -, hname, rfl⟩ | ⟨high, low, c₁, -, -, -, rfl⟩
  · simpa [Value.WithinLimit, Value.fields, Node.fields] using length_of_field hname
  · simp [Value.WithinLimit, Value.fields, Node.fields]

theorem withinLimit_of_value {c c' : Cursor} {x : Value} (h : c.value = .ok (x, c')) :
    x.WithinLimit := by
  -- Only nodes and strings have texts.
  obtain ⟨tag, c₁, -, ⟨tag', c₂, n, -, -, hn, rfl⟩ | ⟨t, -, ht, rfl⟩ | ⟨n, -, -, rfl⟩ |
    ⟨b, -, -, rfl⟩ | ⟨b, -, -, -, rfl⟩⟩ := value_cases h
  · exact withinLimit_of_node hn
  · simpa [Value.WithinLimit, Value.fields] using length_of_field ht
  all_goals simp [Value.WithinLimit, Value.fields]

theorem withinLimit_of_fact {c c' : Cursor} {f : Fact} (h : c.fact = .ok (f, c')) :
    f.WithinLimit := by
  obtain ⟨tag, c₁, c₂, c₃, c₄, c₅, -, -, hsubject, -, hpredicate, hobject⟩ := fact_cases h
  rw [Fact.withinLimit_iff]
  simp only [Fact.values, List.forall_mem_cons, List.not_mem_nil, false_implies, implies_true,
    and_true]
  refine ⟨withinLimit_of_node hsubject, ?_, withinLimit_of_value hobject⟩
  simpa [Value.WithinLimit, Value.fields, Node.fields] using length_of_field hpredicate

end Cursor

/-- Reading the bytes of a fact gives the fact back. -/
theorem Encoding.decode_factBytes {f : Fact} (h : f.WithinLimit) :
    Encoding.decode (Encoding.factBytes f) = .ok f := by
  have hf := Cursor.reads_fact h 0 []
  rw [List.append_nil] at hf
  simp [Encoding.decode, Encoding.decode?, hf, bind, Except.bind, pure, Except.pure,
    Except.mapError]

/-- Stored bytes stand for facts within the limit only. -/
theorem Encoding.withinLimit_of_decode {bytes : Text} {f : Fact}
    (h : Encoding.decode bytes = .ok f) : f.WithinLimit := by
  rw [Encoding.decode] at h
  cases hd : Encoding.decode? bytes with
  | error e => simp [hd, Except.mapError] at h
  | ok g =>
    simp only [hd, Except.mapError, Except.ok.injEq] at h
    subst h
    obtain ⟨⟨f, c⟩, hf, hd⟩ := bind_eq_ok.1 hd
    dsimp only at hd
    split at hd
    · obtain ⟨_, hd, -⟩ := bind_eq_ok.1 hd
      cases hd
    · cases pure_eq_ok.1 hd
      exact Cursor.withinLimit_of_fact hf

end FactGraph
