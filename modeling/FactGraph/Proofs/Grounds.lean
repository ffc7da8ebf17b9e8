import FactGraph.Proofs.Acceptance
import FactGraph.Proofs.Conflicts
import FactGraph.Proofs.Statistics

/-!
# What a proof rests on

The check of a proof looks nothing up but the digests that a step cites and no step in front of it
derives; these are the grounds of the proof. Over another store every step is checked as before if
its grounds lead to the same facts (`Proof.checkSteps_of_get`), and the first step with a ground
that leads to no fact any more is refused for it (`Proof.exists_fault_of_cites`). So an accepted
proof outlives the loss of all facts but its grounds, and nothing that is stored can harm it
(`Store.check_iff_grounds_kept`).
-/

namespace FactGraph

/-- Whether a view leads to the facts to which another one does, but for some that are gone. -/
def View.Loses (v' v : View) : Prop :=
  ∀ id f, v.get id = .ok (some f) → v'.get id = .ok (some f) ∨ v'.get id = .ok none

namespace Proof

/-! ## Grounds -/

/-- Whether one of the steps behind others cites a digest that no step in front of it derives. -/
def Cites (before steps : List ProofStep) (id : Digest) : Prop :=
  ∃ between step after, steps = between ++ step :: after ∧ id ∈ step.premises ∧
    ∀ earlier ∈ before ++ between, earlier.derived.digest ≠ id

/-- Whether a proof rests on a digest: a step cites it that no step in front of it derives, or there
are no steps and it is the digest of the conclusion. -/
def IsGround (p : Proof) (id : Digest) : Prop :=
  p.steps = [] ∧ id = p.conclusion.digest ∨ Cites [] p.steps id

variable {rules : Rulebook} {v v' : View} {before steps : List ProofStep} {step : ProofStep}
  {derived : Derived} {id : Digest} {number : Nat}

@[simp] theorem not_cites_nil : ¬ Cites before [] id := by
  rintro ⟨between, step, after, heq, -⟩
  simp at heq

theorem cites_cons : Cites before (step :: steps) id ↔
    id ∈ step.premises ∧ (∀ earlier ∈ before, earlier.derived.digest ≠ id) ∨
      Cites (before ++ [step]) steps id := by
  constructor
  · rintro ⟨between, citing, after, heq, hid, hbefore⟩
    cases between with
    | nil =>
      rw [List.nil_append, List.cons.injEq] at heq
      rw [List.append_nil] at hbefore
      exact Or.inl ⟨heq.1 ▸ hid, hbefore⟩
    | cons first between =>
      rw [List.cons_append, List.cons.injEq] at heq
      obtain ⟨rfl, rfl⟩ := heq
      rw [List.append_cons] at hbefore
      exact Or.inr ⟨between, citing, after, rfl, hid, hbefore⟩
  · rintro (⟨hid, hbefore⟩ | ⟨between, citing, after, rfl, hid, hbefore⟩)
    · exact ⟨[], step, steps, rfl, hid, by rwa [List.append_nil]⟩
    · rw [← List.append_cons] at hbefore
      exact ⟨step :: between, citing, after, rfl, hid, hbefore⟩

theorem cites_pair {first second : ProofStep} : Cites [] [first, second] id ↔
    id ∈ first.premises ∨ id ∈ second.premises ∧ first.derived.digest ≠ id := by
  simp [cites_cons]

theorem lookup_derivedBy_eq_none : (derivedBy before).lookup id = none ↔
    ∀ earlier ∈ before, earlier.derived.digest ≠ id := by
  rw [lookup_eq_none_iff_not_mem, derivedBy, List.map_map, List.mem_map]
  simp

/-! ## The same proof in front of another view -/


/-- A premise that is derived, or that leads to the same fact, is the same in both views. -/
theorem premise_eq (h : derived.lookup id = none → v'.get id = v.get id) :
    premise v' derived id = premise v derived id := by
  rw [premise, premise]
  cases hl : derived.lookup id with
  | some f => rfl
  | none => rw [h hl]

theorem premise_of_get_none (hl : derived.lookup id = none) (hget : v.get id = .ok none) :
    premise v derived id = stepFault (.missingPremise id) := by
  simp only [premise, hl, hget]

theorem checkStep_eq
    (h : ∀ id ∈ step.premises, derived.lookup id = none → v'.get id = v.get id) :
    checkStep rules v' derived step = checkStep rules v derived step := by
  have hpremises : step.premises.mapM (premise v' derived) =
      step.premises.mapM (premise v derived) := mapM_congr fun id hid => premise_eq (h id hid)
  rw [checkStep, checkStep, hpremises]

/-- A step that was accepted is refused only for its premises in another view. -/
theorem checkStep_of_mapM_eq_error (h : checkStep rules v derived step = .ok ())
    {e : StepFault ⊕ StoreError} (hpremises : step.premises.mapM (premise v' derived) = .error e) :
    checkStep rules v' derived step = .error e := by
  unfold checkStep at h ⊢
  cases hfind : rules.find? step.rule with
  | none => simp [hfind] at h
  | some r =>
    simp only [hfind, hpremises] at h ⊢
    by_cases henabled : r.enabled = true
    · by_cases hderives : r.derives = true
      · by_cases hlength : step.premises.length = r.conditions.length
        · simp [henabled, hderives, hlength, bind, Except.bind]
        · simp [henabled, hderives, hlength] at h
      · simp [henabled, hderives] at h
    · simp [henabled] at h

/-- What a step that was accepted cites and no other step derives is stored. -/
theorem exists_get_of_checkStep (h : checkStep rules v derived step = .ok ())
    (hid : id ∈ step.premises) (hl : derived.lookup id = none) :
    ∃ f, v.get id = .ok (some f) := by
  obtain ⟨-, -, -, premises, -, hpremises, -⟩ := checkStep_cases h
  obtain ⟨f, hf⟩ := exists_of_mapM hpremises hid
  refine ⟨f, (premise_cases hf).resolve_left fun hmem => ?_⟩
  exact lookup_eq_none_iff_not_mem.1 hl (List.mem_map_of_mem hmem)

/-- A step that was accepted is refused for a premise that is gone, if one is, and nothing else has
changed. -/
theorem exists_missing (h : checkStep rules v derived step = .ok ()) (hloses : v'.Loses v)
    (hid : id ∈ step.premises) (hl : derived.lookup id = none) (hget : v'.get id = .ok none) :
    ∃ missing ∈ step.premises, derived.lookup missing = none ∧ v'.get missing = .ok none ∧
      checkStep rules v' derived step = stepFault (.missingPremise missing) := by
  cases hpremises : step.premises.mapM (premise v' derived) with
  | ok premises =>
    obtain ⟨f, hf⟩ := exists_of_mapM hpremises hid
    rw [premise_of_get_none hl hget] at hf
    exact absurd hf (stepFault_ne_ok _ f)
  | error e =>
    obtain ⟨missing, hmem, he⟩ := exists_error_of_mapM hpremises
    have hrefused := checkStep_of_mapM_eq_error h hpremises
    -- The premise was found before, and now it is not; so it was stored, and it is gone.
    cases hderived : derived.lookup missing with
    | some g => simp [premise, hderived] at he
    | none =>
      obtain ⟨f, hstored⟩ := exists_get_of_checkStep h hmem hderived
      rcases hloses missing f hstored with hkept | hgone
      · simp [premise, hderived, hkept] at he
      · rw [premise_of_get_none hderived hgone] at he
        cases he
        exact ⟨missing, hmem, hderived, hgone, hrefused⟩

/-! ## Runs over the steps -/

theorem checkSteps_cons (h : checkStep rules v (derivedBy before) step = .ok ())
    (hlimit : step.derived.WithinLimit) :
    checkSteps rules v number (derivedBy before) (step :: steps) =
      checkSteps rules v (number + 1) (derivedBy (before ++ [step])) steps := by
  have hderived : derivedBy (before ++ [step]) =
      derivedBy before ++ [(step.derived.digest, step.derived)] := List.map_append
  rw [checkSteps, h, hlimit.id, hderived]
  rfl

theorem checkSteps_cons_eq_ok :
    checkSteps rules v number (derivedBy before) (step :: steps) = .ok () ↔
      checkStep rules v (derivedBy before) step = .ok () ∧ step.derived.WithinLimit ∧
        checkSteps rules v (number + 1) (derivedBy (before ++ [step])) steps = .ok () := by
  constructor
  · intro h
    have hh := h
    rw [checkSteps] at h
    cases hstep : checkStep rules v (derivedBy before) step with
    | error e => cases e <;> simp [hstep] at h
    | ok u =>
      simp only [hstep] at h
      obtain ⟨id, hid, -⟩ := bind_eq_ok.1 h
      have hlimit : step.derived.WithinLimit := by
        cases hd : step.derived.id with
        | error e => simp [hd, StoreError.lift, Except.mapError] at hid
        | ok id' => exact (Fact.id_eq_ok.1 hd).1
      rw [checkSteps_cons hstep hlimit] at hh
      exact ⟨rfl, hlimit, hh⟩
  · rintro ⟨hstep, hlimit, h⟩
    rw [checkSteps_cons hstep hlimit, h]

/-- Steps that were accepted are accepted by every view in which their grounds lead to the same. -/
theorem checkSteps_of_get (h : checkSteps rules v number (derivedBy before) steps = .ok ())
    (hget : ∀ id f, Cites before steps id → v.get id = .ok (some f) → v'.get id = .ok (some f)) :
    checkSteps rules v' number (derivedBy before) steps = .ok () := by
  induction steps generalizing before number with
  | nil => rfl
  | cons step steps ih =>
    obtain ⟨hstep, hlimit, hrest⟩ := checkSteps_cons_eq_ok.1 h
    have hsame : ∀ id ∈ step.premises, (derivedBy before).lookup id = none →
        v'.get id = v.get id := by
      intro id hid hl
      obtain ⟨f, hf⟩ := exists_get_of_checkStep hstep hid hl
      rw [hf, hget id f (cites_cons.2 (Or.inl ⟨hid, lookup_derivedBy_eq_none.1 hl⟩)) hf]
    have hcited : ∀ id f, Cites (before ++ [step]) steps id → v.get id = .ok (some f) →
        v'.get id = .ok (some f) := fun id f hid => hget id f (cites_cons.2 (Or.inr hid))
    exact checkSteps_cons_eq_ok.2 ⟨(checkStep_eq hsame).trans hstep, hlimit, ih hrest hcited⟩

/-- Steps that were accepted are refused by a view from which one of their grounds is gone. -/
theorem exists_fault_of_cites (h : checkSteps rules v number (derivedBy before) steps = .ok ())
    (hloses : v'.Loses v) (hid : Cites before steps id) (hget : v'.get id = .ok none) :
    ∃ number' rule missing, Cites before steps missing ∧ v'.get missing = .ok none ∧
      checkSteps rules v' number (derivedBy before) steps =
        .error (.logic (.invalidProof (.step number' rule (.missingPremise missing)))) := by
  induction steps generalizing before number with
  | nil => exact absurd hid not_cites_nil
  | cons step steps ih =>
    obtain ⟨hstep, hlimit, hrest⟩ := checkSteps_cons_eq_ok.1 h
    by_cases hhere : ∃ id ∈ step.premises, (derivedBy before).lookup id = none ∧
        v'.get id = .ok none
    · obtain ⟨id, hmem, hl, hgone⟩ := hhere
      obtain ⟨missing, hmem', hl', hgone', hrefused⟩ := exists_missing hstep hloses hmem hl hgone
      refine ⟨number, step.rule, missing, cites_cons.2 (Or.inl ⟨hmem', ?_⟩), hgone', ?_⟩
      · exact lookup_derivedBy_eq_none.1 hl'
      · simp [checkSteps, hrefused, stepFault]
    · have hkept : ∀ id ∈ step.premises, (derivedBy before).lookup id = none →
          v'.get id = v.get id := by
        intro id hmem hl
        obtain ⟨f, hf⟩ := exists_get_of_checkStep hstep hmem hl
        rw [hf, (hloses id f hf).resolve_right fun hgone => hhere ⟨id, hmem, hl, hgone⟩]
      have hstep' : checkStep rules v' (derivedBy before) step = .ok () :=
        (checkStep_eq hkept).trans hstep
      have hrestid : Cites (before ++ [step]) steps id := by
        refine (cites_cons.1 hid).resolve_left ?_
        rintro ⟨hmem, hbefore⟩
        exact hhere ⟨id, hmem, lookup_derivedBy_eq_none.2 hbefore, hget⟩
      obtain ⟨number', rule, missing, hmissing, hgone, hrefused⟩ :=
        @ih _ (number + 1) hrest hrestid
      refine ⟨number', rule, missing, cites_cons.2 (Or.inr hmissing), hgone, ?_⟩
      rw [checkSteps_cons hstep' hlimit, hrefused]

/-! ## Proofs -/

variable {p : Proof}

/-- With a conclusion that is contained, a proof without steps is accepted. -/
theorem check_eq_ok_of_nil (hnil : p.steps = []) :
    p.check rules v = .ok () ↔ v.contains p.conclusion = .ok true := by
  cases hc : v.contains p.conclusion with
  | error e =>
    simp [check, hnil, hc, StoreError.lift, Except.mapError, bind, Except.bind]
  | ok b =>
    cases b <;> simp [check, hnil, hc, StoreError.lift, Except.mapError, bind, Except.bind, pure,
      Except.pure, throw, throwThe, MonadExceptOf.throw]

theorem check_of_contains_false (hnil : p.steps = []) (hc : v.contains p.conclusion = .ok false) :
    p.check rules v = .error (.logic (.invalidProof (.notStored p.conclusion))) := by
  simp [check, hnil, hc, StoreError.lift, Except.mapError, bind, Except.bind, throw, throwThe,
    MonadExceptOf.throw]

/-- The check of a proof with steps fails as the check of its steps does. -/
theorem check_of_checkSteps_eq_error (hsteps : p.steps ≠ []) {e : Failure}
    (h : checkSteps rules v 1 [] p.steps = .error e) : p.check rules v = .error e := by
  simp [check, List.getLast?_eq_some_getLast hsteps, h, bind, Except.bind]

/-- What the check of accepted steps says does not depend on the view. -/
theorem check_eq_of_checkSteps (hsteps : p.steps ≠ [])
    (h : checkSteps rules v 1 [] p.steps = checkSteps rules v' 1 [] p.steps) :
    p.check rules v = p.check rules v' := by
  simp only [check, List.getLast?_eq_some_getLast hsteps, h]

end Proof

/-! ## Proofs over stores -/

namespace Store

variable {s s' : Store} {rules : Rulebook} {p : Proof} {f : Fact}

/-- Of two stores one of which holds less, the one leads to the facts to which the other does, but
for those that it does not hold. -/
theorem loses_view (hs : s.storage.Addressed) (hs' : s'.storage.Addressed)
    (ho' : s'.storage.isOpen = true) (hsub : s'.content ⊆ s.content) : s'.view.Loses s.view := by
  intro id f hf
  obtain ⟨hmem, rfl⟩ := (hs.of_get hf).1 rfl
  obtain ⟨o, ho⟩ := hs'.exists_get ho' f.digest
  cases o with
  | none => exact Or.inr ho
  | some g =>
    obtain ⟨hg, heq⟩ := (hs'.of_get ho).1 rfl
    rw [hs.injOn_digest (hsub hg) hmem heq] at ho
    exact Or.inl ho

theorem get_of_not_mem (hs : s.storage.Addressed) (hs' : s'.storage.Addressed)
    (ho' : s'.storage.isOpen = true) (hsub : s'.content ⊆ s.content) (hf : f ∈ s.content)
    (hnot : f ∉ s'.content) : s'.view.get f.digest = .ok none := by
  obtain ⟨o, ho⟩ := hs'.exists_get ho' f.digest
  cases o with
  | none => exact ho
  | some g =>
    obtain ⟨hg, heq⟩ := (hs'.of_get ho).1 rfl
    exact absurd (hs.injOn_digest (hsub hg) hf heq ▸ hg) hnot

/-- An accepted proof is accepted by every store that holds all facts with a digest on which it
rests. -/
theorem check_of_grounds (hs : s.storage.Addressed) (hs' : s'.storage.Addressed)
    (ho' : s'.storage.isOpen = true) (h : p.check rules s.view = .ok ())
    (hgrounds : ∀ f ∈ s.content, p.IsGround f.digest → f ∈ s'.content) :
    p.check rules s'.view = .ok () := by
  by_cases hnil : p.steps = []
  · have hcontains := (Proof.check_eq_ok_of_nil hnil).1 h
    obtain ⟨f, hf, hdigest⟩ := (of_contains hs hcontains).1 rfl
    obtain ⟨_, hid, -⟩ := bind_eq_ok.1 hcontains
    obtain ⟨b, hb⟩ := exists_contains ho' (Fact.id_eq_ok.1 hid).1
    rw [(of_contains hs' hb).2 ⟨f, hgrounds f hf (Or.inl ⟨hnil, hdigest⟩), hdigest⟩] at hb
    exact (Proof.check_eq_ok_of_nil hnil).2 hb
  · have hsteps : Proof.checkSteps rules s.view 1 [] p.steps = .ok () :=
      ((Proof.check_cases h).resolve_left fun hleft => hnil hleft.1).1
    have hget : ∀ id f, Proof.Cites [] p.steps id → s.view.get id = .ok (some f) →
        s'.view.get id = .ok (some f) := by
      intro id f hcites hf
      obtain ⟨hmem, rfl⟩ := (hs.of_get hf).1 rfl
      exact hs'.get_of_mem ho' (hgrounds f hmem (Or.inr hcites))
    have hsteps' : Proof.checkSteps rules s'.view 1 [] p.steps = .ok () :=
      @Proof.checkSteps_of_get rules s.view s'.view [] p.steps 1 hsteps hget
    rw [Proof.check_eq_of_checkSteps hnil (hsteps'.trans hsteps.symm), h]

/-- An accepted proof is refused by every store that holds less, and not some fact with a digest on
which it rests. -/
theorem exists_fault_of_ground (hs : s.storage.Addressed) (hs' : s'.storage.Addressed)
    (ho' : s'.storage.isOpen = true) (hsub : s'.content ⊆ s.content)
    (h : p.check rules s.view = .ok ()) (hf : f ∈ s.content) (hnot : f ∉ s'.content)
    (hground : p.IsGround f.digest) :
    ∃ fault, p.check rules s'.view = .error (.logic (.invalidProof fault)) := by
  rcases hground with ⟨hnil, hdigest⟩ | hcites
  · have hcontains := (Proof.check_eq_ok_of_nil hnil).1 h
    obtain ⟨_, hid, -⟩ := bind_eq_ok.1 hcontains
    obtain ⟨b, hb⟩ := exists_contains ho' (Fact.id_eq_ok.1 hid).1
    have hfalse : b = false := by
      rw [← Bool.not_eq_true, of_contains hs' hb]
      rintro ⟨g, hg, heq⟩
      exact hnot (hs.injOn_digest (hsub hg) hf (heq.trans hdigest.symm) ▸ hg)
    rw [hfalse] at hb
    exact ⟨_, Proof.check_of_contains_false hnil hb⟩
  · have hne : p.steps ≠ [] := by
      obtain ⟨between, step, after, heq, -⟩ := hcites
      simp [heq]
    have hsteps : Proof.checkSteps rules s.view 1 [] p.steps = .ok () :=
      ((Proof.check_cases h).resolve_left fun hleft => hne hleft.1).1
    have hgone : s'.view.get f.digest = .ok none := get_of_not_mem hs hs' ho' hsub hf hnot
    have hfault := @Proof.exists_fault_of_cites rules s.view s'.view [] p.steps f.digest 1 hsteps
      (loses_view hs hs' ho' hsub) hcites hgone
    obtain ⟨number, rule, missing, -, -, hrefused⟩ := hfault
    exact ⟨_, Proof.check_of_checkSteps_eq_error hne hrefused⟩

/-! ## Taking facts out and storing facts -/

/-- After facts were taken out by their digests, one by one, the others are left. -/
theorem after_removals (hs : s.storage.Addressed) (hw : s.storage.Writable) (out : List Fact) :
    let s' := s.after (out.map fun f => .request (.remove f.digest))
    s'.storage.Addressed ∧ s'.storage.Writable ∧
      ∀ g, g ∈ s'.content ↔ g ∈ s.content ∧ ∀ f ∈ out, g.digest ≠ f.digest := by
  induction out generalizing s with
  | nil => exact ⟨hs, hw, fun g => by simp [after]⟩
  | cons f out ih =>
    obtain ⟨known, hget⟩ := hs.exists_get hw.isOpen f.digest
    have herase : s.storage.erase f.digest =
        .ok (s.storage.eraseBytes f.digest, s.storage.cells.has f.digest) :=
      Storage.erase_eq_ok.2 ⟨hw.isOpen, hw.checkErase _, rfl, rfl⟩
    have hstep : (s.step (.request (.remove f.digest))).storage =
        s.storage.eraseBytes f.digest := by
      simp only [step, perform, remove, hget, herase, bind, Except.bind]
      rfl
    have hs₁ : (s.step (.request (.remove f.digest))).storage.Addressed :=
      hstep ▸ hs.erase herase
    obtain ⟨hs', hw', hcontent⟩ := ih hs₁ (hstep ▸ hw.eraseBytes f.digest)
    refine ⟨hs', hw', fun g => (hcontent g).trans ?_⟩
    rw [content, hstep, hs.mem_content_erase herase, List.forall_mem_cons, and_assoc]

/-- Storing facts one by one, passing over those that are refused, takes nothing away. -/
theorem after_insertions (hs : s.Coherent) (hw : s.storage.Writable) (new : List Fact) :
    let s' := s.after (new.map fun f => .request (.insert f))
    s'.Coherent ∧ s'.storage.Writable ∧ s.content ⊆ s'.content := by
  induction new generalizing s with
  | nil => exact ⟨hs, hw, Set.Subset.rfl⟩
  | cons f new ih =>
    have hstep : (s.step (.request (.insert f))).Coherent ∧
        (s.step (.request (.insert f))).storage.Writable ∧
        s.content ⊆ (s.step (.request (.insert f))).content := by
      cases hi : s.insert f with
      | error e => simpa [step, perform, settle, hi] using ⟨hs, hw⟩
      | ok r =>
        obtain ⟨s₁, id, flag⟩ := r
        obtain ⟨hs₁, -, hcontent⟩ := hs.of_insert hi
        simp only [step, perform, settle, hi]
        exact ⟨hs₁, writable_insert hw hi, fun g hg => (hcontent g).2 (Or.inl hg)⟩
    obtain ⟨hs', hw', hsub⟩ := ih hstep.1 hstep.2.1
    exact ⟨hs', hw', hstep.2.2.trans hsub⟩

/-- An accepted proof depends on the stored facts through its grounds only. After facts were taken
out, it is accepted if and only if it does not rest on the digest of any of them, and is refused as
invalid otherwise. It is accepted by every store that holds as much, such as the store after any
facts were stored. -/
theorem check_iff_grounds_kept (hs : s.storage.Addressed) (hw : s.storage.Writable)
    (h : p.check rules s.view = .ok ()) :
    (∀ out : List Fact, (∀ f ∈ out, f ∈ s.content) →
      let s' := s.after (out.map fun f => .request (.remove f.digest))
      (∀ g, g ∈ s'.content ↔ g ∈ s.content ∧ g ∉ out) ∧
      (p.check rules s'.view = .ok () ↔ ∀ f ∈ out, ¬ p.IsGround f.digest) ∧
      ((∃ f ∈ out, p.IsGround f.digest) →
        ∃ fault, p.check rules s'.view = .error (.logic (.invalidProof fault)))) ∧
    (∀ s' : Store, s'.storage.Addressed → s'.storage.isOpen = true → s.content ⊆ s'.content →
      p.check rules s'.view = .ok ()) ∧
    (s.Coherent → ∀ new : List Fact,
      p.check rules (s.after (new.map fun f => .request (.insert f))).view = .ok ()) := by
  have hgrows : ∀ s' : Store, s'.storage.Addressed → s'.storage.isOpen = true →
      s.content ⊆ s'.content → p.check rules s'.view = .ok () :=
    fun s' hs' ho' hsub => check_of_grounds hs hs' ho' h fun f hf _ => hsub hf
  refine ⟨fun out hout => ?_, hgrows, fun hcoherent new => ?_⟩
  · obtain ⟨hs', hw', hcontent⟩ := after_removals hs hw out
    have hmem : ∀ g, g ∈ (s.after (out.map fun f => .request (.remove f.digest))).content ↔
        g ∈ s.content ∧ g ∉ out := by
      intro g
      rw [hcontent]
      refine and_congr_right fun hg => ⟨fun hne hgout => hne g hgout rfl, fun hnot f hf heq => ?_⟩
      exact hnot (hs.injOn_digest hg (hout f hf) heq ▸ hf)
    have hsub : (s.after (out.map fun f => .request (.remove f.digest))).content ⊆ s.content :=
      fun g hg => ((hmem g).1 hg).1
    have hfault : (∃ f ∈ out, p.IsGround f.digest) →
        ∃ fault, p.check rules (s.after (out.map fun f => .request (.remove f.digest))).view =
          .error (.logic (.invalidProof fault)) := by
      rintro ⟨f, hf, hground⟩
      exact exists_fault_of_ground hs hs' hw'.isOpen hsub h (hout f hf)
        (fun hkept => ((hmem f).1 hkept).2 hf) hground
    refine ⟨hmem, ⟨fun hok f hf hground => ?_, fun hnone => ?_⟩, hfault⟩
    · obtain ⟨fault, hrefused⟩ := hfault ⟨f, hf, hground⟩
      rw [hok] at hrefused
      cases hrefused
    · exact check_of_grounds hs hs' hw'.isOpen h fun f hf hground =>
        (hmem f).2 ⟨hf, fun hfout => hnone f hfout hground⟩
  · obtain ⟨hs', hw', hsub⟩ := after_insertions hcoherent hw new
    exact hgrows _ hs'.addressed hw'.isOpen hsub

/-- A proof that cites a stored fact after it was derived: it does without the stored fact, but not
without the one from which it is derived. -/
theorem check_iff_grounds_kept_rederived :
    let f : Fact := ⟨.named "a", "b", .named "b"⟩
    let g : Fact := ⟨.named "b", "a", .named "a"⟩
    let turn : Rule := {
      name := "turn"
      conditions := [{ atom := ⟨.var "x", .named "b", .var "y"⟩ }]
      actions := [.derive ⟨.var "y", .named "a", .var "x"⟩] }
    let again : Rule := {
      name := "again"
      conditions := [{ atom := ⟨.var "x", .named "a", .var "y"⟩ }]
      actions := [.derive ⟨.var "y", .named "a", .var "x"⟩] }
    let rules : Rulebook := { rules := [turn, again] }
    let s := (insertAll { storage := .memory {} } [f, g]).1
    let last : Fact := ⟨.named "a", "a", .named "b"⟩
    let p : Proof := ⟨last, [⟨"turn", [f.digest], g⟩, ⟨"again", [g.digest], last⟩]⟩
    p.check rules s.view = .ok () ∧
      p.check rules (s.after [.request (.remove g.digest)]).view = .ok () ∧
      (∃ fault, p.check rules (s.after [.request (.remove f.digest)]).view =
        .error (.logic (.invalidProof fault))) ∧
      p.check rules (s.after [.request (.insert last)]).view = .ok () := by
  intro f g turn again rules s last p
  have hdigests : ([f, g].map Fact.digest).Nodup := by decide +kernel
  have hs : s.Represents [f, g].toFinset := represents_insertAll (by decide +kernel)
    fun x hx y hy heq => List.inj_on_of_nodup_map hdigests hx hy heq
  have hne : f.digest ≠ g.digest := by
    rw [List.map_cons, List.nodup_cons] at hdigests
    exact fun heq => hdigests.1 (by simp [heq])
  have hcheck : p.check rules s.view = .ok () := by decide +kernel
  obtain ⟨hout, -, hnew⟩ := check_iff_grounds_kept hs.coherent.addressed hs.writable hcheck
  have hf : f ∈ s.content := (hs.content f).2 (by simp)
  have hg : g ∈ s.content := (hs.content g).2 (by simp)
  have hcites : p.IsGround f.digest :=
    Or.inr (Proof.cites_pair.2 (Or.inl (List.mem_singleton_self _)))
  have hfree : ¬ p.IsGround g.digest := by
    rintro (⟨hnil, -⟩ | hcites)
    · cases hnil
    · rcases Proof.cites_pair.1 hcites with hmem | ⟨-, hderived⟩
      · exact hne (List.mem_singleton.1 hmem).symm
      · exact hderived rfl
  refine ⟨hcheck, ?_, ?_, hnew hs.coherent [last]⟩
  · exact (hout [g] (List.forall_mem_singleton.2 hg)).2.1.2 (List.forall_mem_singleton.2 hfree)
  · exact (hout [f] (List.forall_mem_singleton.2 hf)).2.2 ⟨f, List.mem_singleton_self f, hcites⟩

end Store
end FactGraph
