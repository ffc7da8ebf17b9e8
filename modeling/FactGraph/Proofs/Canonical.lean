import FactGraph.Proofs.Encoding

/-!
# Encodings tell apart what they encode

What a reader takes from the front of bytes does not depend on what follows. So of two codes that a
reader takes for something, neither is the beginning of the other unless they are the same code of
the same thing (`Cursor.Reads.eq_of_isPrefix`). Facts, nodes and values within the limit all have such
a reader.

A double is encoded by its bits, and all patterns that are not a number have one code.
-/

namespace FactGraph

/-! ## Readers and prefixes -/

namespace Cursor

variable {α : Type} {read : Cursor → Except PayloadFault (α × Cursor)} {s t : Text} {a b : α}

theorem Reads.eq_of_isPrefix (ha : Reads read s a) (hb : Reads read t b) (h : s <+: t) :
    a = b ∧ s = t := by
  obtain ⟨rest, rfl⟩ := h
  have hs := ha 0 rest
  have ht := hb 0 []
  rw [List.append_nil, hs] at ht
  simp only [Except.ok.injEq, Prod.mk.injEq, Cursor.mk.injEq] at ht
  obtain ⟨hab, -, hrest⟩ := ht
  rw [hrest, List.append_nil]
  exact ⟨hab, rfl⟩

/-- Reads a node with its tag. -/
def taggedNode (c : Cursor) : Except PayloadFault (Node × Cursor) := do
  let (tag, c) ← c.byte
  c.node tag

theorem reads_taggedNode {n : Node} (h : (Value.node n).WithinLimit) :
    Reads taggedNode (Encoding.nodeBytes n) n := by
  intro position rest
  obtain ⟨tag, bytes, hbytes, hn⟩ := reads_node h
  have hn := hn (position + 1) rest
  dsimp only at hn
  have hlength : position + 1 + bytes.length = position + (bytes.length + 1) := by omega
  simp [taggedNode, byte, hbytes, hn, hlength, bind, Except.bind]

end Cursor

/-! ## Doubles -/

namespace Binary64

/-- Whether bits are those of a double that is not a number: the exponent has ones only, and the
fraction is not zero. -/
def IsNaNBits (b : UInt64) : Prop := infinityMagnitude < b.toNat % signWeight

theorem bits_ofBits_of_nan {b : UInt64} (h : IsNaNBits b) : (ofBits b).bits = nanBits := by
  unfold ofBits
  rw [dif_pos (show infinityMagnitude < b.toNat % signWeight from h)]

theorem bits_ofBits_of_not_nan {b : UInt64} (h : ¬ IsNaNBits b) : (ofBits b).bits = b := by
  unfold ofBits
  rw [dif_neg (show ¬ infinityMagnitude < b.toNat % signWeight from h)]

theorem isNaNBits_nanBits : IsNaNBits nanBits :=
  show infinityMagnitude < nanBits.toNat % signWeight by decide

theorem eq_iff_bits {x y : Binary64} : x = y ↔ x.bits = y.bits := by
  cases x
  cases y
  simp

/-- Two patterns are one double if they are the same or both are not a number. -/
theorem ofBits_inj {a b : UInt64} : ofBits a = ofBits b ↔ a = b ∨ IsNaNBits a ∧ IsNaNBits b := by
  rw [eq_iff_bits]
  by_cases ha : IsNaNBits a <;> by_cases hb : IsNaNBits b
  · simp [bits_ofBits_of_nan, ha, hb]
  · have hne : a ≠ b := fun h => hb (h ▸ ha)
    have hnan : nanBits ≠ b := fun h => hb (h ▸ isNaNBits_nanBits)
    simp [bits_ofBits_of_nan ha, bits_ofBits_of_not_nan hb, ha, hb, hne, hnan]
  · have hne : a ≠ b := fun h => ha (h ▸ hb)
    have hnan : a ≠ nanBits := fun h => ha (h ▸ isNaNBits_nanBits)
    simp [bits_ofBits_of_not_nan ha, bits_ofBits_of_nan hb, ha, hb, hne, hnan]
  · simp [bits_ofBits_of_not_nan, ha, hb]

end Binary64

/-! ## Codes -/

namespace Encoding

variable {α : Type}

/-- Whether an encoding gives every member of a set a code, and no code is the beginning of the code
of another member. -/
structure PrefixFree (encode : α → Except StoreError Text) (A : Set α) : Prop where
  /-- Every member has a code. -/
  total : ∀ a ∈ A, ∃ s, encode a = .ok s
  /-- No code is the beginning of another one. -/
  eq_of_isPrefix : ∀ a ∈ A, ∀ b ∈ A, ∀ s t, encode a = .ok s → encode b = .ok t → s <+: t → a = b

/-- An encoding is free of prefixes if its codes can be read. -/
theorem prefixFree_of_reads {encode : α → Except StoreError Text} {A : Set α}
    {read : Cursor → Except PayloadFault (α × Cursor)} {bytes : α → Text}
    (hencode : ∀ a ∈ A, encode a = .ok (bytes a)) (hread : ∀ a ∈ A, Cursor.Reads read (bytes a) a) :
    PrefixFree encode A where
  total := fun a ha => ⟨bytes a, hencode a ha⟩
  eq_of_isPrefix := by
    intro a ha b hb s t hs ht hst
    rw [hencode a ha, Except.ok.injEq] at hs
    rw [hencode b hb, Except.ok.injEq] at ht
    subst hs ht
    exact ((hread a ha).eq_of_isPrefix (hread b hb) hst).1

namespace PrefixFree

variable {encode : α → Except StoreError Text} {A : Set α} {a b : α} {s t : Text}

/-- Different members have different codes. -/
theorem encode_inj (h : PrefixFree encode A) (ha : a ∈ A) (hb : b ∈ A) :
    encode a = encode b ↔ a = b := by
  constructor
  · intro heq
    obtain ⟨s, hs⟩ := h.total a ha
    exact h.eq_of_isPrefix a ha b hb s s hs (heq ▸ hs) (List.prefix_rfl)
  · rintro rfl
    rfl

theorem code_eq (h : PrefixFree encode A) (ha : a ∈ A) (hb : b ∈ A) (hs : encode a = .ok s)
    (ht : encode b = .ok t) (hst : s <+: t) : s = t := by
  have hab := h.eq_of_isPrefix a ha b hb s t hs ht hst
  rw [hab, ht, Except.ok.injEq] at hs
  exact hs.symm

end PrefixFree

theorem prefixFree_encode : PrefixFree encode {f | f.WithinLimit} :=
  prefixFree_of_reads (fun _ hf => encode_eq_ok.2 ⟨hf, rfl⟩) fun _ hf => Cursor.reads_fact hf

theorem prefixFree_nodeKey : PrefixFree nodeKey {n | (Value.node n).WithinLimit} :=
  prefixFree_of_reads (fun _ hn => nodeKey_eq_ok.2 ⟨hn, rfl⟩) fun _ hn => Cursor.reads_taggedNode hn

theorem prefixFree_valueKey : PrefixFree valueKey {x | x.WithinLimit} :=
  prefixFree_of_reads (fun _ hx => valueKey_eq_ok.2 ⟨hx, rfl⟩) fun _ hx => Cursor.reads_value hx

theorem withinLimit_float (x : Binary64) : (Value.float x).WithinLimit := by
  intro t ht
  cases ht

/-- Within the limit, reading the code of a fact gives the fact back, different facts have different
codes, and no code is the beginning of another one; where SHA-256 tells the two codes apart,
different facts have different digests. The same goes for the keys of nodes and values, where the
doubles of two patterns have one key only if the patterns are the same or both not a number. -/
theorem encode_canonical :
    (∀ f : Fact, f.WithinLimit → ∃ s, encode f = .ok s ∧ decode s = .ok f) ∧
    (∀ f g : Fact, f.WithinLimit → g.WithinLimit → (encode f = encode g ↔ f = g)) ∧
    (∀ f g : Fact, f.WithinLimit → g.WithinLimit →
      (sha256 (factBytes f) = sha256 (factBytes g) → factBytes f = factBytes g) →
        (f.id = g.id ↔ f = g)) ∧
    (∀ f g s t, encode f = .ok s → encode g = .ok t → s <+: t → s = t) ∧
    (∀ m n : Node, (Value.node m).WithinLimit → (Value.node n).WithinLimit →
      (nodeKey m = nodeKey n ↔ m = n)) ∧
    (∀ m n s t, nodeKey m = .ok s → nodeKey n = .ok t → s <+: t → s = t) ∧
    (∀ x y : Value, x.WithinLimit → y.WithinLimit → (valueKey x = valueKey y ↔ x = y)) ∧
    (∀ x y s t, valueKey x = .ok s → valueKey y = .ok t → s <+: t → s = t) ∧
    (∀ a b : UInt64,
      valueKey (.float (.ofBits a)) = valueKey (.float (.ofBits b)) ↔
        a = b ∨ Binary64.IsNaNBits a ∧ Binary64.IsNaNBits b) := by
  refine ⟨?_, ?_, ?_, ?_, ?_, ?_, ?_, ?_, ?_⟩
  · intro f hf
    exact ⟨factBytes f, encode_eq_ok.2 ⟨hf, rfl⟩, decode_factBytes hf⟩
  · intro f g hf hg
    exact prefixFree_encode.encode_inj hf hg
  · intro f g hf hg hsha
    constructor
    · intro h
      rw [hf.id, hg.id, Except.ok.injEq] at h
      have hbytes : encode f = encode g := by
        rw [encode_eq_ok.2 ⟨hf, rfl⟩, encode_eq_ok.2 ⟨hg, rfl⟩, hsha h]
      exact (prefixFree_encode.encode_inj hf hg).1 hbytes
    · rintro rfl
      rfl
  · intro f g s t hs ht hst
    have hf : f.WithinLimit := (encode_eq_ok.1 hs).1
    have hg : g.WithinLimit := (encode_eq_ok.1 ht).1
    exact prefixFree_encode.code_eq hf hg hs ht hst
  · intro m n hm hn
    exact prefixFree_nodeKey.encode_inj hm hn
  · intro m n s t hs ht hst
    exact prefixFree_nodeKey.code_eq (nodeKey_eq_ok.1 hs).1 (nodeKey_eq_ok.1 ht).1 hs ht hst
  · intro x y hx hy
    exact prefixFree_valueKey.encode_inj hx hy
  · intro x y s t hs ht hst
    exact prefixFree_valueKey.code_eq (valueKey_eq_ok.1 hs).1 (valueKey_eq_ok.1 ht).1 hs ht hst
  · intro a b
    rw [prefixFree_valueKey.encode_inj (withinLimit_float _) (withinLimit_float _),
      Value.float.injEq, Binary64.ofBits_inj]

/-- Two facts about patterns that are not a number are one fact, which an integer tells from a third
one. -/
theorem encode_canonical_nan :
    let f : Fact := ⟨.blank 1 2, "p", .float (.ofBits 0x7FF0000000000001)⟩
    let g : Fact := ⟨.blank 1 2, "p", .float (.ofBits 0xFFF8000000000000)⟩
    let h : Fact := ⟨.blank 1 2, "p", .integer (-1)⟩
    f.WithinLimit ∧ g.WithinLimit ∧ h.WithinLimit ∧
      (∃ s, encode f = .ok s ∧ decode s = .ok g) ∧ encode f ≠ encode h ∧ f.id ≠ h.id ∧
      nodeKey f.subject ≠ nodeKey (.named "p") ∧ valueKey f.object ≠ valueKey h.object := by
  intro f g h
  have hf : f.WithinLimit := show ∀ t ∈ f.fields, t.length ≤ fieldLimit by decide
  have hg : g.WithinLimit := show ∀ t ∈ g.fields, t.length ≤ fieldLimit by decide
  have hh : h.WithinLimit := show ∀ t ∈ h.fields, t.length ≤ fieldLimit by decide
  have hnode (n : Node) (hn : ∀ t ∈ n.fields, t.length ≤ 1) : (Value.node n).WithinLimit :=
    fun t ht => (hn t ht).trans (by decide)
  have hfh : f ≠ h := by decide
  have hsha : sha256 (factBytes f) = sha256 (factBytes h) → factBytes f = factBytes h :=
    fun heq => absurd heq (by decide +kernel)
  obtain ⟨hread, hinj, hid, -, hnodes, -, hvalues, -, hdoubles⟩ := encode_canonical
  have hfg : f.object = g.object :=
    (hvalues _ _ (withinLimit_float _) (withinLimit_float _)).1 ((hdoubles _ _).2
      (Or.inr ⟨show Binary64.infinityMagnitude < (0x7FF0000000000001 : UInt64).toNat %
        Binary64.signWeight by decide, show Binary64.infinityMagnitude <
          (0xFFF8000000000000 : UInt64).toNat % Binary64.signWeight by decide⟩))
  have heq : f = g := by rw [show f = ⟨f.subject, f.predicate, f.object⟩ from rfl, hfg]
  refine ⟨hf, hg, hh, heq ▸ hread f hf, ?_, ?_, ?_, ?_⟩
  · exact fun h => hfh ((hinj _ _ hf hh).1 h)
  · exact fun h => hfh ((hid _ _ hf hh hsha).1 h)
  · exact fun h => absurd ((hnodes _ _ (hnode _ (by decide)) (hnode _ (by decide))).1 h) (by decide)
  · exact fun h => absurd ((hvalues _ _ (withinLimit_float _) fun t ht => by cases ht).1 h)
      (by decide)

end Encoding

end FactGraph
