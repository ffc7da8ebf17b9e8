import FactGraph.Proof
import FactGraph.Proofs.Canonical

/-!
# Digests of proofs

The bytes of a proof are codes put one behind the other, of facts, counts, names and digests. Each
of them can be told from whatever follows it (`Encoding.Detaches`), and so can codes in a row and
counted lists of codes. So the bytes can be taken apart in one way only, and two proofs have the
same bytes only if they are the same proof (`Proof.bytes_identify`).
-/

namespace FactGraph

namespace Encoding

variable {α β : Type} {code : α → Text} {A : Set α}

/-- Whether the codes of the members of a set can be told from what follows them. -/
def Detaches (code : α → Text) (A : Set α) : Prop :=
  ∀ a ∈ A, ∀ b ∈ A, ∀ s t, code a ++ s = code b ++ t → a = b ∧ s = t

theorem detaches_of_reads {read : Cursor → Except PayloadFault (α × Cursor)}
    (h : ∀ a ∈ A, Cursor.Reads read (code a) a) : Detaches code A := by
  intro a ha b hb s t heq
  have hs := h a ha 0 s
  have ht := h b hb 0 t
  rw [heq, ht] at hs
  simp only [Except.ok.injEq, Prod.mk.injEq, Cursor.mk.injEq] at hs
  exact ⟨hs.1.symm, hs.2.2.symm⟩

theorem detaches_digest : Detaches Digest.bytes Set.univ := by
  rintro ⟨a, ha⟩ - ⟨b, hb⟩ - s t heq
  obtain ⟨hab, hst⟩ := List.append_inj heq (ha.trans hb.symm)
  exact ⟨Digest.mk.injEq .. ▸ hab, hst⟩

/-- A text can be told from what follows if four bytes in front of it count its bytes. -/
theorem detaches_field : Detaches fieldBytes {t | t.length < 256 ^ 4} := by
  have hcount : Detaches (Word.bigEndian 4) {n | n < 256 ^ 4} :=
    detaches_of_reads fun _ hn => Cursor.reads_number hn
  intro a ha b hb s t heq
  rw [fieldBytes, fieldBytes, List.append_assoc, List.append_assoc] at heq
  obtain ⟨hlength, hrest⟩ := hcount _ ha _ hb _ _ heq
  exact List.append_inj hrest hlength

namespace Detaches

/-- Of two codes in a row each detaches. -/
theorem append {code' : β → Text} {B : Set β} (h : Detaches code A) (h' : Detaches code' B) :
    Detaches (fun c : α × β => code c.1 ++ code' c.2) (A ×ˢ B) := by
  rintro ⟨a, a'⟩ ⟨ha, ha'⟩ ⟨b, b'⟩ ⟨hb, hb'⟩ s t heq
  dsimp only at heq
  rw [List.append_assoc, List.append_assoc] at heq
  obtain ⟨hab, hrest⟩ := h a ha b hb _ _ heq
  obtain ⟨hab', hst⟩ := h' a' ha' b' hb' _ _ hrest
  exact ⟨Prod.ext hab hab', hst⟩

/-- A thing may be encoded by the code of something by which it is known. -/
theorem comap (h : Detaches code A) {g : β → α} {B : Set β} (hB : ∀ b ∈ B, g b ∈ A)
    (hg : Set.InjOn g B) : Detaches (fun b => code (g b)) B := by
  intro a ha b hb s t heq
  obtain ⟨hab, hst⟩ := h _ (hB a ha) _ (hB b hb) s t heq
  exact ⟨hg ha hb hab, hst⟩

/-- Codes of one number of members in a row come apart one by one. -/
theorem flatMap (h : Detaches code A) {l l' : List α} (hl : ∀ a ∈ l, a ∈ A)
    (hl' : ∀ a ∈ l', a ∈ A) (hlength : l.length = l'.length) {s t : Text}
    (heq : l.flatMap code ++ s = l'.flatMap code ++ t) : l = l' ∧ s = t := by
  induction l generalizing l' with
  | nil =>
    obtain rfl := List.length_eq_zero_iff.1 hlength.symm
    exact ⟨rfl, heq⟩
  | cons a l ih =>
    cases l' with
    | nil => cases hlength
    | cons b l' =>
      rw [List.forall_mem_cons] at hl hl'
      rw [List.flatMap_cons, List.flatMap_cons, List.append_assoc, List.append_assoc] at heq
      obtain ⟨rfl, hrest⟩ := h a hl.1 b hl'.1 _ _ heq
      obtain ⟨rfl, hst⟩ := ih hl.2 hl'.2 (Nat.succ.inj hlength) hrest
      exact ⟨rfl, hst⟩

/-- Codes in a row detach if four bytes in front of them count them. -/
theorem counted (h : Detaches code A) :
    Detaches (fun l : List α => Word.bigEndian 4 l.length ++ l.flatMap code)
      {l | l.length < 256 ^ 4 ∧ ∀ a ∈ l, a ∈ A} := by
  have hcount : Detaches (Word.bigEndian 4) {n | n < 256 ^ 4} :=
    detaches_of_reads fun _ hn => Cursor.reads_number hn
  rintro l ⟨hlength, hl⟩ l' ⟨hlength', hl'⟩ s t heq
  simp only [List.append_assoc] at heq
  obtain ⟨hcounts, hrest⟩ := hcount _ hlength _ hlength' _ _ heq
  exact h.flatMap hl hl' hcounts hrest

end Detaches

theorem detaches_fact : Detaches factBytes {f | f.WithinLimit} :=
  detaches_of_reads fun _ hf => Cursor.reads_fact hf

theorem factBytes_inj {f g : Fact} (hf : f.WithinLimit) (hg : g.WithinLimit)
    (h : factBytes f = factBytes g) : f = g :=
  (detaches_fact f hf g hg [] [] (by rw [h])).1

end Encoding

open Encoding

variable {s s' : ProofStep} {p q : Proof}

/-! ## Steps -/

/-- Whether the parts of a step fit into its bytes. -/
structure ProofStep.Fits (s : ProofStep) : Prop where
  rule : s.rule.length ≤ fieldLimit
  premises : s.premises.length < 256 ^ 4
  derived : s.derived.WithinLimit

namespace Proof

/-- The bytes of a step that fits into them. -/
def stepCode (s : ProofStep) : Text :=
  fieldBytes s.rule ++ (Word.bigEndian 4 s.premises.length ++ s.premises.flatMap Digest.bytes ++
    fieldBytes (factBytes s.derived))

theorem stepBytes_eq (h : s.Fits) : stepBytes s = .ok (stepCode s) := by
  have hrule : checkFields [s.rule] = .ok () := checkFields_eq_ok.2 (by simpa using h.rule)
  rw [stepBytes, hrule, encode_eq_ok.2 ⟨h.derived, rfl⟩]
  simp [stepCode, fieldBytes, bind, Except.bind, pure, Except.pure]

theorem detaches_step : Detaches stepCode {s | s.Fits} := by
  have hpremises := Detaches.counted detaches_digest
  have hparts := Detaches.append detaches_field (hpremises.append detaches_field)
  refine hparts.comap (g := fun s : ProofStep => (s.rule, s.premises, factBytes s.derived)) ?_ ?_
  · intro s hs
    have hlimit : fieldLimit < 256 ^ 4 := by decide
    have hderived : (factBytes s.derived).length < 256 ^ 4 :=
      (length_factBytes_lt hs.derived).trans (by decide)
    exact ⟨hs.rule.trans_lt hlimit, ⟨hs.premises, fun _ _ => Set.mem_univ _⟩, hderived⟩
  · intro s hs s' hs' heq
    simp only [Prod.mk.injEq] at heq
    obtain ⟨hrule, hpremises, hderived⟩ := heq
    cases s
    cases s'
    rw [ProofStep.mk.injEq]
    exact ⟨hrule, hpremises, factBytes_inj hs.derived hs'.derived hderived⟩

/-! ## Proofs -/

/-- Whether the parts of a proof fit into its bytes. -/
structure Fits (p : Proof) : Prop where
  conclusion : p.conclusion.WithinLimit
  length : p.steps.length < 256 ^ 4
  steps : ∀ s ∈ p.steps, s.Fits

/-- The bytes of a proof that fits into them. -/
def code (p : Proof) : Text :=
  factBytes p.conclusion ++ (Word.bigEndian 4 p.steps.length ++ p.steps.flatMap stepCode)

theorem Fits.bytes_eq (h : p.Fits) : p.bytes = .ok p.code := by
  have hsteps : p.steps.mapM stepBytes = .ok (p.steps.map stepCode) := by
    refine mapM_of_forall₂ ?_
    rw [List.forall₂_map_right_iff, List.forall₂_same]
    exact fun s hs => stepBytes_eq (h.steps s hs)
  rw [bytes, encode_eq_ok.2 ⟨h.conclusion, rfl⟩, hsteps]
  simp [code, List.flatMap, bind, Except.bind, pure, Except.pure]

theorem Fits.digest_eq (h : p.Fits) : p.digest = .ok (sha256 p.code) := by
  rw [digest, h.bytes_eq]
  rfl

/-- No code of a proof is the beginning of the code of another one. -/
theorem detaches_code : Detaches code {p | p.Fits} := by
  have hparts := Detaches.append detaches_fact (Detaches.counted detaches_step)
  refine hparts.comap (g := fun p : Proof => (p.conclusion, p.steps)) ?_ ?_
  · intro p hp
    exact ⟨hp.conclusion, hp.length, hp.steps⟩
  · intro p _ q _ heq
    cases p
    cases q
    rwa [Proof.mk.injEq, ← Prod.mk.injEq]

theorem eq_iff_forall₂ : p = q ↔ p.conclusion = q.conclusion ∧ List.Forall₂ (fun s s' =>
    s.rule = s'.rule ∧ s.premises = s'.premises ∧ s.derived = s'.derived) p.steps q.steps := by
  have hstep (s s' : ProofStep) :
      (s.rule = s'.rule ∧ s.premises = s'.premises ∧ s.derived = s'.derived) ↔ s = s' := by
    cases s
    cases s'
    rw [ProofStep.mk.injEq]
  simp only [hstep, List.forall₂_eq_eq_eq]
  cases p
  cases q
  rw [Proof.mk.injEq]

/-- Two proofs whose parts fit have bytes and digests. The bytes are the same exactly if the
conclusions are, and the steps one by one have the same rule, premises and derived fact. So where
SHA-256 tells the bytes apart, different proofs have different digests. -/
theorem bytes_identify (hp : p.Fits) (hq : q.Fits) : ∃ b c,
    p.bytes = .ok b ∧ q.bytes = .ok c ∧
    p.digest = .ok (sha256 b) ∧ q.digest = .ok (sha256 c) ∧
    (b = c ↔ p.conclusion = q.conclusion ∧ List.Forall₂ (fun s s' =>
      s.rule = s'.rule ∧ s.premises = s'.premises ∧ s.derived = s'.derived) p.steps q.steps) ∧
    ((sha256 b = sha256 c → b = c) → (p.digest = q.digest ↔ p = q)) := by
  have hcode : p.code = q.code ↔ p = q := by
    constructor
    · intro heq
      exact (detaches_code p hp q hq [] [] (by rw [heq])).1
    · rintro rfl
      rfl
  refine ⟨p.code, q.code, hp.bytes_eq, hq.bytes_eq, hp.digest_eq, hq.digest_eq,
    hcode.trans eq_iff_forall₂, fun hsha => ?_⟩
  rw [hp.digest_eq, hq.digest_eq, Except.ok.injEq, ← hcode]
  exact ⟨hsha, fun heq => by rw [heq]⟩

/-- Two proofs with the same premises in a row, one of which the second proof moves from the first
step to the second. -/
theorem bytes_identify_grouped :
    let f : Fact := ⟨.named "a", "p", .named "b"⟩
    let g : Fact := ⟨.named "a", "p", .named "c"⟩
    let p : Proof := ⟨g, [⟨"r", [f.digest, g.digest], f⟩, ⟨"r", [f.digest], g⟩]⟩
    let q : Proof := ⟨g, [⟨"r", [f.digest], f⟩, ⟨"r", [g.digest, f.digest], g⟩]⟩
    p.Fits ∧ q.Fits ∧ p.bytes ≠ q.bytes ∧ p.digest ≠ q.digest := by
  intro f g p q
  have hf : f.WithinLimit := show ∀ t ∈ f.fields, t.length ≤ fieldLimit by decide
  have hg : g.WithinLimit := show ∀ t ∈ g.fields, t.length ≤ fieldLimit by decide
  have hp : p.Fits := by
    refine ⟨hg, by decide, ?_⟩
    simp only [p, List.forall_mem_cons]
    exact ⟨⟨by decide, by decide, hf⟩, ⟨by decide, by decide, hg⟩, by simp⟩
  have hq : q.Fits := by
    refine ⟨hg, by decide, ?_⟩
    simp only [q, List.forall_mem_cons]
    exact ⟨⟨by decide, by decide, hf⟩, ⟨by decide, by decide, hg⟩, by simp⟩
  obtain ⟨b, c, hb, hc, -, -, hbytes, hdigests⟩ := bytes_identify hp hq
  have hpremises : ¬ [f.digest, g.digest] = [f.digest] := by simp
  have hne : b ≠ c := by
    intro heq
    cases (hbytes.1 heq).2 with
    | cons hstep _ => exact hpremises hstep.2.1
  have hsha : sha256 b ≠ sha256 c := by
    have hcodes : sha256 p.code ≠ sha256 q.code := by decide +kernel
    rw [hp.bytes_eq, Except.ok.injEq] at hb
    rw [hq.bytes_eq, Except.ok.injEq] at hc
    rwa [hb, hc] at hcodes
  refine ⟨hp, hq, ?_, fun heq => ?_⟩
  · rw [hb, hc, Ne, Except.ok.injEq]
    exact hne
  · exact hne (hbytes.2 (eq_iff_forall₂.1
      ((hdigests fun heq => absurd heq hsha).1 heq)))

end Proof

end FactGraph
