import FactGraph.Proofs.Check

/-!
# Accepted proofs

Whoever made a proof, its steps are looked at in their order, and a premise is either stored or
derived by a step in front of it. So a proof that is accepted has derived nothing but consequences
of the stored facts (`Proof.mem_consequences_of_checkSteps`). It does not matter that a digest may
lead to another fact than the one that was meant: what it leads to was derived or is stored, too.

Conversely every consequence is established by justified steps (`exists_justified`). What stands
behind the step that derives it is left out, and the rest makes a proof that is accepted.
-/

namespace FactGraph

/-! ## What accepted steps derive -/

namespace Proof

variable {rules : Rulebook} {view : View} {A : Set Fact} {derived : Derived} {step : ProofStep}
  {steps : List ProofStep}

@[simp] theorem stepFault_bind {α β : Type} (fault : StepFault)
    (next : α → Except (StepFault ⊕ StoreError) β) :
    (stepFault fault : Except (StepFault ⊕ StoreError) α) >>= next = stepFault fault := rfl

@[simp] theorem stepFault_ne_ok {α : Type} (fault : StepFault) (a : α) :
    (stepFault fault : Except (StepFault ⊕ StoreError) α) ≠ .ok a := by
  intro h
  cases h

/-- A premise is derived by an earlier step or found in the view. -/
theorem premise_cases {id : Digest} {f : Fact} (h : premise view derived id = .ok f) :
    (id, f) ∈ derived ∨ view.get id = .ok (some f) := by
  unfold premise at h
  split at h
  · next g hg =>
    have hgf : g = f := Except.ok.inj h
    exact Or.inl (mem_of_lookup (hgf ▸ hg))
  · split at h
    · next g hg =>
      have hgf : g = f := Except.ok.inj h
      exact Or.inr (hgf ▸ hg)
    · simp at h
    · simp at h

/-- A step that passes the check applies a rule in force to premises that were looked up. -/
theorem checkStep_cases (h : checkStep rules view derived step = .ok ()) :
    ∃ r ∈ rules.rules, r.enabled = true ∧ ∃ premises s,
      step.premises.mapM (premise view derived) = .ok premises ∧
        Condition.unifyAll r.conditions premises = some s ∧
          ∃ head ∈ r.heads, head.instantiate? s = some step.derived := by
  unfold checkStep at h
  cases hfind : rules.find? step.rule with
  | none => simp [hfind] at h
  | some r =>
    have hr : r ∈ rules.rules := List.mem_of_find?_eq_some hfind
    simp only [hfind] at h
    by_cases henabled : r.enabled = true
    · by_cases hderives : r.derives = true
      · by_cases hlength : step.premises.length = r.conditions.length
        · simp only [henabled, hderives, hlength, Bool.not_true, Bool.false_eq_true, if_false,
            bne_self_eq_false] at h
          obtain ⟨premises, hpremises, h⟩ := bind_eq_ok.1 h
          cases hunify : Condition.unifyAll r.conditions premises with
          | none => simp [hunify] at h
          | some s =>
            have hyields : yields r s step.derived = true := by
              by_contra hnot
              rw [Bool.not_eq_true] at hnot
              simp [hunify, hnot] at h
            obtain ⟨head, hhead, hf⟩ := List.any_eq_true.1 hyields
            exact ⟨r, hr, henabled, premises, s, hpremises, hunify, head, hhead, beq_iff_eq.1 hf⟩
        · simp [henabled, hderives, hlength] at h
      · simp [henabled, hderives] at h
    · simp [henabled] at h

/-- Where what was derived so far are consequences, an accepted step derives one. -/
theorem mem_consequences_of_checkStep (hrules : ∀ r ∈ rules.rules, r.Sound)
    (hget : ∀ id f, view.get id = .ok (some f) → f ∈ A)
    (hderived : ∀ e ∈ derived, e.2 ∈ consequences rules.rules A)
    (h : checkStep rules view derived step = .ok ()) :
    step.derived ∈ consequences rules.rules A := by
  obtain ⟨r, hr, henabled, premises, s, hpremises, hunify, head, hhead, hf⟩ := checkStep_cases h
  have hmem : ∀ g ∈ premises, g ∈ consequences rules.rules A := by
    intro g hg
    obtain ⟨id, -, hid⟩ := (mem_of_mapM hpremises).1 hg
    rcases premise_cases hid with hg | hg
    · exact hderived _ hg
    · exact subset_consequences rules.rules A (hget id g hg)
  have hyields := Rule.yields_of_unifyAll (hrules r hr) henabled hmem hunify hhead hf
  exact closed_consequences rules.rules A step.derived ⟨r, hr, hyields⟩

theorem mem_consequences_of_checkSteps (hrules : ∀ r ∈ rules.rules, r.Sound)
    (hget : ∀ id f, view.get id = .ok (some f) → f ∈ A) {number : Nat}
    (hderived : ∀ e ∈ derived, e.2 ∈ consequences rules.rules A)
    (h : checkSteps rules view number derived steps = .ok ()) :
    ∀ step ∈ steps, step.derived ∈ consequences rules.rules A := by
  induction steps generalizing number derived with
  | nil => simp
  | cons step steps ih =>
    unfold checkSteps at h
    cases hstep : checkStep rules view derived step with
    | error e => cases e <;> simp [hstep] at h
    | ok u =>
      simp only [hstep] at h
      obtain ⟨id, -, h⟩ := bind_eq_ok.1 h
      have hmem := mem_consequences_of_checkStep hrules hget hderived hstep
      have hderived' : ∀ e ∈ derived ++ [(id, step.derived)],
          e.2 ∈ consequences rules.rules A := by
        intro e he
        rcases List.mem_append.1 he with he | he
        · exact hderived e he
        · rw [List.mem_singleton.1 he]
          exact hmem
      exact List.forall_mem_cons.2 ⟨hmem, ih hderived' h⟩

/-- What an accepted proof has shown: its conclusion is contained in the view and there are no
steps, or its steps pass the check and the last one derives the conclusion. -/
theorem check_cases {p : Proof} (h : p.check rules view = .ok ()) :
    p.steps = [] ∧ view.contains p.conclusion = .ok true ∨
      checkSteps rules view 1 [] p.steps = .ok () ∧ ∃ last ∈ p.steps, last.derived = p.conclusion := by
  unfold check at h
  cases hlast : p.steps.getLast? with
  | none =>
    simp only [hlast] at h
    obtain ⟨b, hb, h⟩ := bind_eq_ok.1 h
    refine Or.inl ⟨List.getLast?_eq_none_iff.1 hlast, ?_⟩
    cases hcontains : view.contains p.conclusion with
    | error e => simp [hcontains, StoreError.lift, Except.mapError] at hb
    | ok b' =>
      have hbb' : b' = b := by simpa [hcontains, StoreError.lift, Except.mapError] using hb
      cases b with
      | true => rw [hbb']
      | false => simp [throw, throwThe, MonadExceptOf.throw] at h
  | some last =>
    simp only [hlast] at h
    obtain ⟨u, hsteps, h⟩ := bind_eq_ok.1 h
    refine Or.inr ⟨hsteps, last, List.mem_of_getLast? hlast, ?_⟩
    by_contra hne
    have hne' : (last.derived != p.conclusion) = true := bne_iff_ne.2 hne
    simp [hne', throw, throwThe, MonadExceptOf.throw] at h

end Proof

/-! ## Justified steps for consequences -/

section Justified

variable {rules : List Rule} {A : Set Fact} {steps steps' : List ProofStep} {f : Fact}

theorem established_mono (h : ∀ step ∈ steps, step ∈ steps') :
    established A steps ⊆ established A steps' := by
  refine Set.union_subset_union_right A fun f hf => ?_
  obtain ⟨step, hstep, rfl⟩ := List.mem_map.1 hf
  exact List.mem_map_of_mem (h step hstep)

/-- Justified steps may stand behind others. -/
theorem Justified.append (h : Justified rules A steps) (h' : Justified rules A steps') :
    Justified rules A (steps ++ steps') := by
  induction h' with
  | nil =>
    rw [List.append_nil]
    exact h
  | @snoc before step _ hstep ih =>
    rw [← List.append_assoc]
    refine ih.snoc (hstep.mono (established_mono fun other hother => ?_))
    exact List.mem_append_right _ hother

/-- Facts each of which is established by justified steps are established by the same steps. -/
theorem exists_justified_forall {facts : List Fact}
    (h : ∀ f ∈ facts, ∃ steps, Justified rules A steps ∧ f ∈ established A steps) :
    ∃ steps, Justified rules A steps ∧ ∀ f ∈ facts, f ∈ established A steps := by
  induction facts with
  | nil => exact ⟨[], .nil, by simp⟩
  | cons f facts ih =>
    rw [List.forall_mem_cons] at h
    obtain ⟨steps, hsteps, hf⟩ := h.1
    obtain ⟨steps', hsteps', hfacts⟩ := ih h.2
    refine ⟨steps ++ steps', hsteps.append hsteps', List.forall_mem_cons.2 ⟨?_, fun g hg => ?_⟩⟩
    · exact established_mono (fun step hstep => List.mem_append_left _ hstep) hf
    · exact established_mono (fun step hstep => List.mem_append_right _ hstep) (hfacts g hg)

/-- Every consequence is established by justified steps. -/
theorem exists_justified (hrules : ∀ r ∈ rules, r.Sound) (hf : f ∈ consequences rules A) :
    ∃ steps, Justified rules A steps ∧ f ∈ established A steps := by
  refine consequences_induction (motive := fun g =>
    ∃ steps, Justified rules A steps ∧ g ∈ established A steps) ?_ ?_ hf
  · intro f hf
    exact ⟨[], .nil, Or.inl hf⟩
  · rintro f ⟨r, hr, hyields⟩
    obtain ⟨premises, hpremises, s, hs, head, hhead, hf⟩ := hyields.exists_unifyAll (hrules r hr)
    obtain ⟨steps, hsteps, hestablished⟩ :=
      exists_justified_forall fun g hg => (hpremises g hg).2
    have hlast : ProofStep.Applies rules (established A steps)
        ⟨r.name, premises.map Fact.digest, f⟩ :=
      ⟨r, hr, rfl, hyields.1, premises, rfl, hestablished, s, hs, head, hhead, hf⟩
    exact ⟨_, hsteps.snoc hlast, Or.inr (by simp)⟩

end Justified

/-! ## Accepted proofs in stores -/

namespace Store

variable {s : Store} {rules : Rulebook}

/-- An accepted proof concludes and derives consequences of the stored facts only, if no stored fact
has the digest of its conclusion without being the same. -/
theorem mem_consequences_of_check (hs : s.storage.Addressed) (hrules : rules.Made) {p : Proof}
    (inj : ∀ g ∈ s.content, g.digest = p.conclusion.digest → g = p.conclusion)
    (h : p.check rules s.view = .ok ()) : p.conclusion ∈ consequences rules.rules s.content ∧
      ∀ step ∈ p.steps, step.derived ∈ consequences rules.rules s.content := by
  rcases Proof.check_cases h with ⟨hnil, hcontains⟩ | ⟨hsteps, last, hlast, hconclusion⟩
  · obtain ⟨g, hg, hdigest⟩ := (of_contains hs hcontains).1 rfl
    have hmem : p.conclusion ∈ s.content := inj g hg hdigest ▸ hg
    exact ⟨subset_consequences rules.rules s.content hmem, by simp [hnil]⟩
  · have hget : ∀ id f, s.view.get id = .ok (some f) → f ∈ s.content :=
      fun id f hf => ((hs.of_get hf).1 rfl).1
    have hderived := Proof.mem_consequences_of_checkSteps hrules.sound hget (by simp) hsteps
    exact ⟨hconclusion ▸ hderived last hlast, hderived⟩

/-- A consequence of the facts in an open store is the conclusion of an accepted proof. -/
theorem exists_check_of_mem_consequences (hs : s.storage.Addressed)
    (ho : s.storage.isOpen = true) (hrules : rules.Made)
    (hlimit : ∀ r ∈ rules.rules, ∀ x ∈ r.constants, x.WithinLimit)
    (inj : Set.InjOn Fact.digest (consequences rules.rules s.content)) {f : Fact}
    (hf : f ∈ consequences rules.rules s.content) :
    ∃ p : Proof, p.conclusion = f ∧ p.check rules s.view = .ok () := by
  have hview := knows_view hs ho
  obtain ⟨steps, hsteps, hestablished⟩ := exists_justified hrules.sound hf
  rcases hestablished with hstored | hderived
  · exact ⟨⟨f, []⟩, rfl, Proof.check_of_mem hview rfl hstored⟩
  · obtain ⟨step, hstep, hstepf⟩ := List.mem_map.1 hderived
    obtain ⟨before, after, hsplit⟩ := List.append_of_mem hstep
    have hjustified : Justified rules.rules s.content (before ++ [step]) :=
      (hsteps.of_eq_append hsplit).2
    have hmem : established s.content (before ++ [step]) ⊆ consequences rules.rules s.content :=
      fun g hg => hjustified.mem_consequences hrules.sound hg
    have hwithin : ∀ g ∈ (before ++ [step]).map ProofStep.derived, g.WithinLimit := fun g hg =>
      withinLimit_of_mem_consequences hrules hlimit (hmem (Or.inr hg))
    refine ⟨⟨f, before ++ [step]⟩, rfl, ?_⟩
    rw [Proof.check_of_last hrules hview (inj.mono hmem) hwithin hjustified List.getLast?_concat,
      if_pos hstepf]

/-- A proof that is accepted, whatever it looks like, concludes and derives consequences of the
stored facts; and every consequence is the conclusion of a proof that is accepted. -/
theorem check_adequate (hs : s.storage.Addressed) (hrules : rules.Made) :
    (∀ p : Proof, (∀ g ∈ s.content, g.digest = p.conclusion.digest → g = p.conclusion) →
      p.check rules s.view = .ok () → p.conclusion ∈ consequences rules.rules s.content ∧
        ∀ step ∈ p.steps, step.derived ∈ consequences rules.rules s.content) ∧
    (s.storage.isOpen = true → (∀ r ∈ rules.rules, ∀ x ∈ r.constants, x.WithinLimit) →
      Set.InjOn Fact.digest (consequences rules.rules s.content) →
        ∀ f ∈ consequences rules.rules s.content,
          ∃ p : Proof, p.conclusion = f ∧ p.check rules s.view = .ok ()) := by
  constructor
  · intro p inj h
    exact mem_consequences_of_check hs hrules inj h
  · intro ho hlimit inj f hf
    exact exists_check_of_mem_consequences hs ho hrules hlimit inj hf

/-- A proof with a step that is repeated is accepted, and its conclusion is a consequence, for which
there is a proof. -/
theorem check_adequate_repeated :
    let f : Fact := ⟨.named "a", "b", .named "b"⟩
    let g : Fact := ⟨.named "b", "a", .named "a"⟩
    let turn : Rule := {
      name := "turn"
      conditions := [{ atom := ⟨.var "x", .named "b", .var "y"⟩ }]
      actions := [.derive ⟨.var "y", .named "a", .var "x"⟩] }
    let rules : Rulebook := { rules := [turn] }
    let step : ProofStep := ⟨"turn", [f.digest], g⟩
    ∃ s : Store, s.content = {f} ∧ Proof.check rules s.view ⟨g, [step, step]⟩ = .ok () ∧
      g ∈ consequences rules.rules s.content ∧
        ∃ p : Proof, p.conclusion = g ∧ p.check rules s.view = .ok () := by
  intro f g turn rules step
  have hmade : rules.Made := Rulebook.made_of_addAll rfl (by decide)
  obtain ⟨s, hs, hf, htest⟩ := exists_of_insert f
    (fun s => s.storage.isOpen && Proof.check rules s.view ⟨g, [step, step]⟩ == .ok ())
    (by decide +kernel)
  rw [Bool.and_eq_true, beq_iff_eq] at htest
  obtain ⟨ho, hcheck⟩ := htest
  have hlimit : ∀ r ∈ rules.rules, ∀ x ∈ r.constants, x.WithinLimit := by
    show ∀ r ∈ rules.rules, ∀ x ∈ r.constants, ∀ t ∈ x.fields, t.length ≤ fieldLimit
    decide +kernel
  have inj : Set.InjOn Fact.digest (factsOver {x | x ∈ [.named "a", .named "b"]}) :=
    injOn_digest_of_nodup (by decide +kernel)
  have hvocabulary : vocabulary rules.rules s.content ⊆ {x | x ∈ [.named "a", .named "b"]} := by
    rw [hf, vocabulary_singleton]
    exact show ∀ x ∈ f.values ++ rules.rules.flatMap Rule.constants, _ from by decide
  have hconsequences : consequences rules.rules s.content ⊆
      factsOver {x | x ∈ [.named "a", .named "b"]} :=
    consequences_subset_factsOver hmade.sound hvocabulary
  have hg : g ∈ factsOver {x | x ∈ [.named "a", .named "b"]} :=
    show ∀ x ∈ g.values, x ∈ [Value.named "a", .named "b"] by decide
  obtain ⟨hsound, hcomplete⟩ := check_adequate hs.addressed hmade
  have hmem := (hsound ⟨g, [step, step]⟩ (fun f' hf' heq => inj (hconsequences
    (subset_consequences rules.rules s.content hf')) hg heq) hcheck).1
  exact ⟨s, hf, hcheck, hmem, hcomplete ho hlimit (inj.mono hconsequences) g hmem⟩

end Store

end FactGraph
