import FactGraph.Proofs.Canonical

/-!
# Bytes that are facts

A reader passes over the bytes of what it reads (`Cursor.Passes`), and never beyond the bytes that it
is given (`Cursor.Stays`). So a fact is read from no other bytes than those that spell it: its own
bytes, or the same with another pattern of the double that is not a number
(`Encoding.decode_exact`). Bytes that are cut off, bytes with something behind them and lengths over
the limit are refused.
-/

namespace FactGraph

/-! ## Spellings -/

namespace Encoding

/-- Whether bytes spell a value: they are its own, or it is the double that is not a number and they
hold a pattern of that kind. -/
inductive SpellsValue : Text → Value → Prop where
  | own (x : Value) : SpellsValue (valueBytes x) x
  | nan {b : UInt64} (h : Binary64.IsNaNBits b) :
    SpellsValue (floatTag :: Word.bigEndian 8 b.toNat) (.float .nan)

/-- Whether bytes spell a fact: they are those of the fact with bytes that spell its object. -/
def Spells (bytes : Text) (f : Fact) : Prop :=
  ∃ t, SpellsValue t f.object ∧ bytes = version :: (nodeBytes f.subject ++
    predicateTag :: (fieldBytes f.predicate ++ t))

/-- Bytes that spell a fact differ from its own bytes in nothing but a pattern that is not a
number. -/
theorem Spells.cases {bytes : Text} {f : Fact} (h : Spells bytes f) : bytes = factBytes f ∨
    ∃ head b, f.object = .float .nan ∧ Binary64.IsNaNBits b ∧
      bytes = head ++ Word.bigEndian 8 b.toNat ∧
      factBytes f = head ++ Word.bigEndian 8 Binary64.nanBits.toNat := by
  obtain ⟨subject, predicate, object⟩ := f
  obtain ⟨t, ht, rfl⟩ := h
  dsimp only at ht
  cases ht with
  | own => exact .inl rfl
  | @nan b hb =>
    have hbits : Binary64.nan.bits = Binary64.nanBits :=
      Binary64.bits_ofBits_of_nan Binary64.isNaNBits_nanBits
    refine .inr ⟨version :: (nodeBytes subject ++ predicateTag :: (fieldBytes predicate ++
      [floatTag])), b, rfl, hb, ?_, ?_⟩
    · simp
    · simp [factBytes, valueBytes, hbits]

theorem Spells.length_eq {bytes : Text} {f : Fact} (h : Spells bytes f) :
    (factBytes f).length = bytes.length := by
  rcases h.cases with rfl | ⟨head, b, -, -, rfl, hcode⟩
  · rfl
  · simp [hcode]

/-! ## Fronts of texts -/

/-- The bytes of a node in front of the length of each of its texts. -/
def nodeFronts : Node → List Text
  | .named _ => [[namedTag]]
  | .blank _ _ => []

/-- The bytes of a value in front of the length of each of its texts. -/
def valueFronts : Value → List Text
  | .node n => (nodeFronts n).map (nodeTag :: ·)
  | .string _ => [[stringTag]]
  | _ => []

/-- The bytes of a fact in front of the length of each of its texts. -/
def factFronts (f : Fact) : List Text :=
  (nodeFronts f.subject).map (version :: ·) ++
    (version :: (nodeBytes f.subject ++ [predicateTag])) ::
      (valueFronts f.object).map fun front =>
        version :: (nodeBytes f.subject ++ predicateTag :: (fieldBytes f.predicate ++ front))

end Encoding

/-! ## What is read -/

namespace Cursor

variable {α β : Type} {c c' c'' : Cursor} {s t : Text}

/-- Whether a cursor becomes another one by passing over bytes. -/
structure Passes (c : Cursor) (s : Text) (c' : Cursor) : Prop where
  /-- The bytes stand in front. -/
  rest : c.rest = s ++ c'.rest
  /-- They are counted. -/
  position : c'.position = c.position + s.length

theorem Passes.append (h : c.Passes s c') (h' : c'.Passes t c'') : c.Passes (s ++ t) c'' := by
  refine ⟨?_, ?_⟩
  · rw [h.rest, h'.rest, List.append_assoc]
  · rw [h'.position, h.position, List.length_append, Nat.add_assoc]

theorem passes_take {count : Nat} (h : c.take count = .ok (t, c')) :
    t.length = count ∧ c.Passes t c' := by
  obtain ⟨hcount, rfl, rfl⟩ := take_eq_ok.1 h
  have hlength : (c.rest.take count).length = count := List.length_take_of_le hcount
  exact ⟨hlength, (List.take_append_drop count c.rest).symm, by rw [hlength]⟩

theorem passes_byte {b : UInt8} (h : c.byte = .ok (b, c')) : c.Passes [b] c' := by
  rw [byte] at h
  split at h
  · cases h
  · next hrest =>
    cases h
    exact ⟨hrest, rfl⟩

theorem passes_number {width n : Nat} (h : c.number width = .ok (n, c')) :
    n < 256 ^ width ∧ c.Passes (Word.bigEndian width n) c' := by
  obtain ⟨⟨bytes, c₁⟩, hbytes, h⟩ := bind_eq_ok.1 h
  cases pure_eq_ok.1 h
  obtain ⟨rfl, hpasses⟩ := passes_take hbytes
  rw [Word.bigEndian_ofBigEndian]
  exact ⟨Word.ofBigEndian_lt bytes, hpasses⟩

theorem passes_word {n : Nat} (h : c.number 8 = .ok (n, c')) :
    c.Passes (Word.bigEndian 8 (UInt64.ofNat n).toNat) c' := by
  obtain ⟨hn, hpasses⟩ := passes_number h
  rwa [UInt64.toNat_ofNat_of_lt' hn]

theorem passes_field (h : c.field = .ok (t, c')) : c.Passes (Encoding.fieldBytes t) c' := by
  obtain ⟨length, c₁, hlength, -, ht⟩ := field_cases h
  obtain ⟨rfl, hpasses⟩ := passes_take ht
  exact (passes_number hlength).2.append hpasses

theorem passes_node {tag : UInt8} {n : Node} (h : c.node tag = .ok (n, c')) :
    ∃ s, Encoding.nodeBytes n = tag :: s ∧ c.Passes s c' := by
  rcases node_cases h with ⟨name, rfl, hname, rfl⟩ | ⟨high, low, c₁, rfl, hhigh, hlow, rfl⟩
  · exact ⟨_, rfl, passes_field hname⟩
  · exact ⟨_, rfl, (passes_word hhigh).append (passes_word hlow)⟩

/-- The bytes of a value spell it. A double is read from its bits, all but one of which may be a
pattern that is not a number. -/
theorem passes_value {x : Value} (h : c.value = .ok (x, c')) :
    ∃ s, Encoding.SpellsValue s x ∧ c.Passes s c' := by
  obtain ⟨tag, c₁, hbyte, hvalue⟩ := value_cases h
  have htag := passes_byte hbyte
  rcases hvalue with ⟨tag', c₂, n, rfl, hbyte', hn, rfl⟩ | ⟨t, rfl, ht, rfl⟩ | ⟨n, rfl, hn, rfl⟩ |
    ⟨n, rfl, hn, rfl⟩ | ⟨b, rfl, hb, hle, rfl⟩
  · obtain ⟨s, hs, hnode⟩ := passes_node hn
    refine ⟨_, .own _, htag.append (t := Encoding.nodeBytes n) ?_⟩
    rw [hs]
    exact (passes_byte hbyte').append hnode
  · exact ⟨_, .own _, htag.append (passes_field ht)⟩
  · have hword := passes_word hn
    refine ⟨_, .own _, htag.append ?_⟩
    rwa [UInt64.toUInt64_toInt64]
  · have hword := passes_word hn
    by_cases hnan : Binary64.IsNaNBits (.ofNat n)
    · rw [show Binary64.ofBits (.ofNat n) = .nan from
        Binary64.ofBits_inj.2 (.inr ⟨hnan, Binary64.isNaNBits_nanBits⟩)]
      exact ⟨_, .nan hnan, htag.append hword⟩
    · refine ⟨_, .own _, htag.append ?_⟩
      rwa [Binary64.bits_ofBits_of_not_nan hnan]
  · refine ⟨_, .own _, htag.append ?_⟩
    have hb' : (if (b == 1) = true then 1 else 0) = b := by
      rw [UInt8.lt_iff_toNat_lt] at hle
      rw [← UInt8.toNat_inj]
      split
      · next hone => rw [beq_iff_eq.1 hone]
      · next hne =>
        have hzero : b.toNat ≠ 1 := fun heq => hne (beq_iff_eq.2 (UInt8.toNat_inj.1 heq))
        simp at hle ⊢
        omega
    rw [hb']
    exact passes_byte hb

theorem passes_fact {f : Fact} (h : c.fact = .ok (f, c')) :
    ∃ s, Encoding.Spells s f ∧ c.Passes s c' := by
  obtain ⟨tag, c₁, c₂, c₃, c₄, c₅, hversion, htag, hsubject, htag', hpredicate, hobject⟩ :=
    fact_cases h
  obtain ⟨s, hs, hnode⟩ := passes_node hsubject
  obtain ⟨t, ht, hvalue⟩ := passes_value hobject
  refine ⟨_, ⟨t, ht, rfl⟩, (passes_byte hversion).append ?_⟩
  rw [hs]
  refine ((passes_byte htag).append hnode).append ((passes_byte htag').append ?_)
  exact (passes_field hpredicate).append hvalue

/-! ## Where reading ends -/

/-- Whether a reader stays within the bytes that it is given: what it reads stands in front of them,
and where bytes are missing it stops at their end or before. -/
structure Stays (read : Cursor → Except PayloadFault (α × Cursor)) : Prop where
  /-- What is read are bytes that are there. -/
  ok : ∀ {c a c'}, read c = .ok (a, c') → ∃ s, c.Passes s c'
  /-- Bytes that are missing are not read. -/
  error : ∀ {c p}, read c = .error (.truncated p) → p ≤ c.position + c.rest.length

namespace Stays

variable {read : Cursor → Except PayloadFault (α × Cursor)}

theorem pure (a : α) : Stays fun c => .ok (a, c) where
  ok := by
    intro c a' c' h
    cases h
    exact ⟨[], rfl, rfl⟩
  error := by
    intro c p h
    cases h

theorem throw {e : PayloadFault} (he : ∀ p, e ≠ .truncated p) :
    Stays (α := α) fun _ => .error e where
  ok := by
    intro c a c' h
    cases h
  error := fun h => absurd (Except.error.inj h) (he _)

theorem ite {p : Prop} [Decidable p] {read' : Cursor → Except PayloadFault (α × Cursor)}
    (h : Stays read) (h' : Stays read') : Stays fun c => if p then read c else read' c := by
  by_cases hp : p <;> simpa [hp]

theorem bind {next : α × Cursor → Except PayloadFault (β × Cursor)} (h : Stays read)
    (hnext : ∀ a, Stays fun c => next (a, c)) : Stays fun c => read c >>= next where
  ok := by
    intro c b c' hread
    obtain ⟨⟨a, c₁⟩, ha, hb⟩ := bind_eq_ok.1 hread
    obtain ⟨s, hs⟩ := h.ok ha
    obtain ⟨t, ht⟩ := (hnext a).ok hb
    exact ⟨s ++ t, hs.append ht⟩
  error := by
    intro c p hread
    rcases bind_eq_error.1 hread with hp | ⟨⟨a, c₁⟩, ha, hp⟩
    · exact h.error hp
    · obtain ⟨s, hs⟩ := h.ok ha
      have hle : p ≤ c₁.position + c₁.rest.length := (hnext a).error hp
      rw [hs.position] at hle
      rw [hs.rest, List.length_append]
      omega

end Stays

theorem stays_take (count : Nat) : Stays fun c => c.take count where
  ok := fun h => ⟨_, (passes_take h).2⟩
  error := by
    intro c p h
    rw [take] at h
    split at h <;> cases h
    exact Nat.le_add_right ..

theorem stays_byte : Stays byte where
  ok := fun h => ⟨_, passes_byte h⟩
  error := by
    intro c p h
    rw [byte] at h
    split at h <;> cases h
    exact Nat.le_add_right ..

theorem stays_number (width : Nat) : Stays fun c => c.number width :=
  (stays_take width).bind fun bytes => .pure (Word.ofBigEndian bytes)

theorem stays_field : Stays field := by
  refine (stays_number 4).bind fun length => .ite (.throw ?_) (stays_take length)
  simp

theorem stays_node (tag : UInt8) : Stays fun c => c.node tag := by
  refine .ite (stays_field.bind fun name => .pure _) (.ite ?_ (.throw ?_))
  · exact (stays_number 8).bind fun high => (stays_number 8).bind fun low => .pure _
  · simp

theorem stays_value : Stays value := by
  refine stays_byte.bind fun tag => .ite ?_ (.ite ?_ (.ite ?_ (.ite ?_ (.ite ?_ (.throw ?_)))))
  · exact stays_byte.bind fun tag => (stays_node tag).bind fun n => .pure _
  · exact stays_field.bind fun t => .pure _
  · exact (stays_number 8).bind fun n => .pure _
  · exact (stays_number 8).bind fun b => .pure _
  · refine stays_byte.bind fun b => .ite (.throw ?_) (.pure _)
    simp
  · simp

theorem stays_fact : Stays fact := by
  refine stays_byte.bind fun version => .ite (.throw ?_) ?_
  · simp
  refine stays_byte.bind fun tag => (stays_node tag).bind fun subject => ?_
  refine stays_byte.bind fun tag => .ite (.throw ?_) ?_
  · simp
  exact stays_field.bind fun predicate => stays_value.bind fun object => .pure _

/-! ## What can be read -/

theorem reads_spellsValue {x : Value} (h : x.WithinLimit) (ht : Encoding.SpellsValue t x) :
    Reads value t x := by
  cases ht with
  | own => exact reads_value h
  | @nan b hb =>
    have hnan : Binary64.nan = .ofBits b :=
      Binary64.ofBits_inj.2 (.inr ⟨Binary64.isNaNBits_nanBits, hb⟩)
    have hfloat : ¬ Encoding.floatTag = Encoding.nodeTag ∧
        ¬ Encoding.floatTag = Encoding.stringTag ∧
          ¬ Encoding.floatTag = Encoding.integerTag := by decide
    intro position rest
    have hn := reads_word b (position + 1) rest
    simp [value, byte, hfloat, hn, hnan, bind, Except.bind, pure, Except.pure]

theorem reads_spells {f : Fact} (h : f.WithinLimit) (hs : Encoding.Spells s f) :
    Reads fact s f := by
  obtain ⟨t, ht, rfl⟩ := hs
  exact reads_fact_of_object h
    (reads_spellsValue (Fact.withinLimit_iff.1 h _ (by simp [Fact.values])) ht)

/-! ## What is refused -/

/-- Whether a reader refuses bytes for a reason, whatever follows them. -/
def Refuses (read : Cursor → Except PayloadFault (α × Cursor)) (bytes : Text)
    (fault : PayloadFault) : Prop :=
  ∀ position rest, read ⟨position, bytes ++ rest⟩ = .error fault

section Long

variable {n : Nat} (hlow : fieldLimit < n) (hhigh : n < 256 ^ 4)
include hlow hhigh

theorem refuses_field : Refuses field (Word.bigEndian 4 n) (.fieldLength n) := by
  intro position rest
  have hn := reads_number hhigh position rest
  simp only [field, hn, bind, Except.bind, hlow, if_true]
  rfl

theorem refuses_node {node : Node} {front : Text} (h : front ∈ Encoding.nodeFronts node) :
    ∃ tag, front = [tag] ∧
      Refuses (fun c => c.node tag) (Word.bigEndian 4 n) (.fieldLength n) := by
  cases node with
  | named name =>
    refine ⟨_, List.mem_singleton.1 h, fun position rest => ?_⟩
    have hn := refuses_field hlow hhigh position rest
    simp [Cursor.node, hn, bind, Except.bind]
  | blank high low => cases h

theorem refuses_value {x : Value} {front : Text} (h : front ∈ Encoding.valueFronts x) :
    Refuses value (front ++ Word.bigEndian 4 n) (.fieldLength n) := by
  intro position rest
  cases x with
  | node node =>
    obtain ⟨front, hfront, rfl⟩ := List.mem_map.1 h
    obtain ⟨tag, rfl, hnode⟩ := refuses_node hlow hhigh hfront
    have hnode := hnode (position + 1 + 1) rest
    simp only at hnode
    simp [value, byte, hnode, bind, Except.bind]
  | string t =>
    obtain rfl := List.mem_singleton.1 h
    have hstring : ¬ Encoding.stringTag = Encoding.nodeTag := by decide
    have hn := refuses_field hlow hhigh (position + 1) rest
    simp [value, byte, hstring, hn, bind, Except.bind]
  | integer n => cases h
  | float x => cases h
  | boolean b => cases h

/-- A length over the limit is refused where a text of a fact should begin, whatever follows. -/
theorem refuses_fact {f : Fact} (hf : f.WithinLimit) {front : Text}
    (h : front ∈ Encoding.factFronts f) :
    Refuses fact (front ++ Word.bigEndian 4 n) (.fieldLength n) := by
  intro position rest
  obtain ⟨tag, bytes, hbytes, hs⟩ := reads_node (n := f.subject)
    (Fact.withinLimit_iff.1 hf _ (by simp [Fact.values]))
  simp only [Encoding.factFronts, List.mem_append, List.mem_map, List.mem_cons] at h
  rcases h with ⟨front, hfront, rfl⟩ | rfl | ⟨front, hfront, rfl⟩
  · obtain ⟨tag', rfl, hnode⟩ := refuses_node hlow hhigh hfront
    have hnode := hnode (position + 1 + 1) rest
    simp only at hnode
    simp [fact, byte, hnode, bind, Except.bind]
  · have hs := hs (position + 1 + 1) (Encoding.predicateTag :: (Word.bigEndian 4 n ++ rest))
    have hn := refuses_field hlow hhigh (position + 1 + 1 + bytes.length + 1) rest
    simp only at hs
    simp [fact, byte, hbytes, hs, hn, bind, Except.bind]
  · have ho := fun position => refuses_value hlow hhigh hfront position rest
    simp only [List.append_assoc] at ho
    simp only [List.cons_append, List.append_assoc, fact_append hf, ho]
    rfl

end Long

end Cursor

namespace Encoding

theorem decode_eq_ok_iff {bytes : Text} {f : Fact} :
    decode bytes = .ok f ↔ decode? bytes = .ok f := by
  rw [decode]
  cases decode? bytes <;> simp [Except.mapError]

/-- Bytes are read as a fact exactly if they spell it. -/
theorem decode_eq_ok {bytes : Text} {f : Fact} :
    decode bytes = .ok f ↔ f.WithinLimit ∧ Spells bytes f := by
  constructor
  · intro h
    refine ⟨withinLimit_of_decode h, ?_⟩
    obtain ⟨⟨f', c⟩, hf, h⟩ := bind_eq_ok.1 (decode_eq_ok_iff.1 h)
    dsimp only at h
    split at h
    · obtain ⟨_, h, -⟩ := bind_eq_ok.1 h
      cases h
    · next hrest =>
      cases pure_eq_ok.1 h
      obtain ⟨s, hs, hpasses⟩ := Cursor.passes_fact hf
      have hall : bytes = s := by
        have hnil : c.rest = [] := by simpa using hrest
        simpa [hnil] using hpasses.rest
      exact hall ▸ hs
  · rintro ⟨hf, hs⟩
    have hread := Cursor.reads_spells hf hs 0 []
    rw [List.append_nil] at hread
    rw [decode_eq_ok_iff]
    simp [decode?, hread, bind, Except.bind, pure, Except.pure]

theorem decode_cases (bytes : Text) : (∃ f, decode bytes = .ok f) ∨
    ∃ fault, decode? bytes = .error fault ∧ decode bytes = .error (.payload fault) := by
  rw [decode]
  cases decode? bytes with
  | ok f => exact .inl ⟨f, rfl⟩
  | error fault => exact .inr ⟨fault, rfl, rfl⟩

/-- Where bytes are missing, reading stops at their end or before. -/
theorem le_length_of_truncated {bytes : Text} {p : Nat} (h : decode? bytes = .error (.truncated p)) :
    p ≤ bytes.length := by
  rcases bind_eq_error.1 h with h | ⟨⟨f, c⟩, -, h⟩
  · simpa using Cursor.stays_fact.error h
  · dsimp only at h
    split at h <;> cases h

/-- Of two texts of which one begins with the other, at most one is read as a fact. -/
theorem eq_of_decode {s t : Text} {f g : Fact} (hs : decode s = .ok f) (ht : decode t = .ok g)
    (h : s <+: t ∨ t <+: s) : s = t := by
  obtain ⟨hf, hsf⟩ := decode_eq_ok.1 hs
  obtain ⟨hg, htg⟩ := decode_eq_ok.1 ht
  have hreads := Cursor.reads_spells hf hsf
  have hreads' := Cursor.reads_spells hg htg
  rcases h with h | h
  · exact (hreads.eq_of_isPrefix hreads' h).2
  · exact (hreads'.eq_of_isPrefix hreads h).2.symm

/-- Bytes are read as a fact exactly if they spell it. They are then as long as its own bytes, from
which they differ only where they hold a pattern that is not a number, and what follows them is not
touched. All other bytes are refused as no encoding of a fact, and reading stops no later than at their
end; these are all that begin with bytes that are read, or with which such bytes begin, and all with a
length over the limit where a text should begin. -/
theorem decode_exact :
    (∀ bytes f, decode bytes = .ok f ↔ f.WithinLimit ∧ Spells bytes f) ∧
    (∀ bytes, (∃ f code, decode bytes = .ok f ∧ encode f = .ok code ∧ code.length = bytes.length ∧
        (bytes = code ∨ ∃ head b, f.object = .float .nan ∧ Binary64.IsNaNBits b ∧
          bytes = head ++ Word.bigEndian 8 b.toNat ∧
          code = head ++ Word.bigEndian 8 Binary64.nanBits.toNat)) ∨
      ∃ fault, decode bytes = .error (.payload fault) ∧
        (StoreError.payload fault).kind = .serialization ∧
        ∀ p, fault = .truncated p → p ≤ bytes.length) ∧
    (∀ bytes f rest, decode bytes = .ok f →
      Cursor.fact ⟨0, bytes ++ rest⟩ = .ok (f, ⟨bytes.length, rest⟩)) ∧
    (∀ s t f, decode s = .ok f → s ≠ t → s <+: t ∨ t <+: s →
      ∃ fault, decode t = .error (.payload fault)) ∧
    (∀ f front n rest, f.WithinLimit → front ∈ factFronts f → fieldLimit < n → n < 256 ^ 4 →
      decode (front ++ Word.bigEndian 4 n ++ rest) = .error (.payload (.fieldLength n))) := by
  refine ⟨fun bytes f => decode_eq_ok, fun bytes => ?_, fun bytes f rest h => ?_,
    fun s t f hs hne hst => ?_, fun f front n rest hf hfront hlow hhigh => ?_⟩
  · rcases decode_cases bytes with ⟨f, h⟩ | ⟨fault, hfault, h⟩
    · obtain ⟨hf, hs⟩ := decode_eq_ok.1 h
      exact .inl ⟨f, factBytes f, h, encode_eq_ok.2 ⟨hf, rfl⟩, hs.length_eq, hs.cases⟩
    · refine .inr ⟨fault, h, rfl, fun p hp => ?_⟩
      exact le_length_of_truncated (hp ▸ hfault)
  · obtain ⟨hf, hs⟩ := decode_eq_ok.1 h
    rw [Cursor.reads_spells hf hs, Nat.zero_add]
  · rcases decode_cases t with ⟨g, ht⟩ | ⟨fault, -, ht⟩
    · exact absurd (eq_of_decode hs ht hst) hne
    · exact ⟨fault, ht⟩
  · have hfact := Cursor.refuses_fact hlow hhigh hf hfront 0 rest
    rw [decode, decode?, hfact]
    rfl

/-- Bytes with a pattern that is not a number are read, but neither cut off nor with one more byte,
and no text may be a byte too long. -/
theorem decode_exact_nan :
    let f : Fact := ⟨.blank 1 2, "p", .float .nan⟩
    let bytes : Text := version :: (nodeBytes f.subject ++ predicateTag :: (fieldBytes "p" ++
      floatTag :: Word.bigEndian 8 0xFFF0000000000001))
    f.WithinLimit ∧ Spells bytes f ∧ decode bytes = .ok f ∧ bytes ≠ factBytes f ∧
      (∃ fault, decode (bytes.take 20) = .error (.payload fault)) ∧
      (∃ fault, decode (bytes ++ [0]) = .error (.payload fault)) ∧
      decode ([version, namedTag] ++ Word.bigEndian 4 16777217 ++ "ab") =
        .error (.payload (.fieldLength 16777217)) := by
  intro f bytes
  obtain ⟨hexact, -, -, hframe, hlong⟩ := decode_exact
  have hf : f.WithinLimit := show ∀ t ∈ f.fields, t.length ≤ fieldLimit by decide
  have hnan : Binary64.IsNaNBits 0xFFF0000000000001 :=
    show Binary64.infinityMagnitude < (0xFFF0000000000001 : UInt64).toNat % Binary64.signWeight by
      decide
  have hspells : Spells bytes f := ⟨_, .nan hnan, rfl⟩
  have hread : decode bytes = .ok f := (hexact bytes f).2 ⟨hf, hspells⟩
  refine ⟨hf, hspells, hread, by decide, ?_, ?_, ?_⟩
  · exact hframe bytes _ f hread (by decide) (.inr (List.take_prefix 20 bytes))
  · exact hframe bytes _ f hread (by decide) (.inl (List.prefix_append bytes [0]))
  · have hname : (⟨.named "", "p", .boolean true⟩ : Fact).WithinLimit :=
      show ∀ t ∈ Fact.fields _, t.length ≤ fieldLimit by decide
    exact hlong ⟨.named "", "p", .boolean true⟩ [version, namedTag] 16777217 "ab" hname
      (by decide) (by decide) (by decide)

end Encoding

end FactGraph
