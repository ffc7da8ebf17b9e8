import FactGraph.Proof.Check
import FactGraph.Proofs.Soundness

/-!
# Proofs that are found and proofs that are accepted

Justified steps pass the check (`checkSteps_eq_ok`), so that the check of such a proof turns on its
last step alone: the proof is accepted if this step derives the conclusion. A search leaves out a
step that derives what another one derives already. If the step at which it ends is left out, the
last step of its proof derives something else; the proof is refused, although the steps up to the
one that derives the conclusion make a proof that is accepted (`Proof.Proves.check_trimmed`).
-/

namespace FactGraph

namespace Proof

/-- The facts that steps derive, by their digests. -/
def derivedBy (steps : List ProofStep) : Derived :=
  steps.map fun step => (step.derived.digest, step.derived)

variable {rules : Rulebook} {view : View} {A : Set Fact} {steps before after : List ProofStep}
  {step last : ProofStep} {f : Fact} {p : Proof}

/-- An established fact is found by its digest. -/
theorem premise_eq_ok (hview : view.Knows A) (inj : Set.InjOn Fact.digest (established A steps))
    (hf : f ∈ established A steps) : premise view (derivedBy steps) f.digest = .ok f := by
  rw [premise]
  cases hl : (derivedBy steps).lookup f.digest with
  | some g =>
    obtain ⟨step, hstep, heq⟩ := List.mem_map.1 (mem_of_lookup hl)
    rw [Prod.mk.injEq] at heq
    obtain ⟨hdigest, rfl⟩ := heq
    rw [inj (Or.inr (List.mem_map_of_mem hstep)) hf hdigest]
  | none =>
    have hA : f ∈ A := hf.resolve_right fun hderived => by
      obtain ⟨step, hstep, rfl⟩ := List.mem_map.1 hderived
      exact lookup_eq_none_iff_not_mem.1 hl
        (List.mem_map.2 ⟨_, List.mem_map_of_mem hstep, rfl⟩)
    simp only [hview.get f hA]

/-- A step that applies a rule to established facts passes the check. -/
theorem checkStep_eq_ok (hrules : rules.Made) (hview : view.Knows A)
    (inj : Set.InjOn Fact.digest (established A steps))
    (h : step.Applies rules.rules (established A steps)) :
    checkStep rules view (derivedBy steps) step = .ok () := by
  obtain ⟨r, hr, hname, henabled, premises, hids, hpremises, s, hs, head, hhead, hf⟩ := h
  have hfind : rules.find? step.rule = some r := hname ▸ hrules.find?_name hr
  have hderives : r.derives = true := by
    rw [Rule.derives, List.isEmpty_eq_false_iff_exists_mem.2 ⟨head, hhead⟩]
    rfl
  have hlength : step.premises.length = r.conditions.length := by
    obtain ⟨σ, hσ⟩ := Condition.exists_agrees_of_unifyAll hs
    rw [hids, List.length_map, (Condition.holdsOf_of_unifyAll hs hσ).length_eq]
  have hmapM : step.premises.mapM (premise view (derivedBy steps)) = .ok premises := by
    refine mapM_of_forall₂ ?_
    rw [hids, List.forall₂_map_left_iff, List.forall₂_same]
    exact fun g hg => premise_eq_ok hview inj (hpremises g hg)
  have hyields : yields r s step.derived = true :=
    List.any_eq_true.2 ⟨head, hhead, beq_iff_eq.2 hf⟩
  simp [checkStep, hfind, henabled, hderives, hlength, hmapM, hs, hyields, bind, Except.bind, pure,
    Except.pure]

/-- Justified steps whose facts have digests pass the check. -/
theorem checkSteps_eq_ok (hrules : rules.Made) (hview : view.Knows A)
    (inj : Set.InjOn Fact.digest (established A (before ++ after)))
    (hlimit : ∀ f ∈ after.map ProofStep.derived, f.WithinLimit)
    (h : Justified rules.rules A (before ++ after)) (number : Nat) :
    checkSteps rules view number (derivedBy before) after = .ok () := by
  induction after generalizing before number with
  | nil => rfl
  | cons step after ih =>
    rw [List.map_cons, List.forall_mem_cons] at hlimit
    have hbefore : established A before ⊆ established A (before ++ step :: after) := by
      refine Set.union_subset_union_right A fun f hf => ?_
      rw [Set.mem_ofPred_eq, List.map_append]
      exact List.mem_append_left _ hf
    have hstep := checkStep_eq_ok hrules hview (inj.mono hbefore) (h.of_eq_append rfl).1
    rw [List.append_cons] at inj h
    have hrest := ih inj hlimit.2 h (number + 1)
    rw [derivedBy, List.map_append, List.map_singleton, ← derivedBy] at hrest
    simp only [checkSteps, hstep, hlimit.1.id]
    exact hrest

/-- A proof without steps is accepted if its conclusion is stored. -/
theorem check_of_mem (hview : view.Knows A) (hsteps : p.steps = []) (hf : p.conclusion ∈ A) :
    p.check rules view = .ok () := by
  simp [check, hsteps, hview.contains _ hf, StoreError.lift, bind, Except.bind, pure, Except.pure,
    Except.mapError]

/-- Where all steps are accepted, the check turns on what the last one derives. -/
theorem check_of_checkSteps (h : checkSteps rules view 1 [] p.steps = .ok ())
    (hlast : p.steps.getLast? = some last) :
    p.check rules view = if last.derived = p.conclusion then .ok ()
      else .error (.logic (.invalidProof (.otherConclusion last.derived p.conclusion))) := by
  simp only [check, hlast, h]
  by_cases heq : last.derived = p.conclusion
  · simp [heq, bind, Except.bind, pure, Except.pure]
  · simp [heq, bind, Except.bind, throw, throwThe, MonadExceptOf.throw]

/-- What the check of justified steps says depends on what the last one derives. -/
theorem check_of_last (hrules : rules.Made) (hview : view.Knows A)
    (inj : Set.InjOn Fact.digest (established A p.steps))
    (hlimit : ∀ f ∈ p.steps.map ProofStep.derived, f.WithinLimit)
    (h : Justified rules.rules A p.steps) (hlast : p.steps.getLast? = some last) :
    p.check rules view = if last.derived = p.conclusion then .ok ()
      else .error (.logic (.invalidProof (.otherConclusion last.derived p.conclusion))) := by
  have hsteps : checkSteps rules view 1 [] p.steps = .ok () :=
    @checkSteps_eq_ok rules view A [] p.steps hrules hview inj hlimit h 1
  exact check_of_checkSteps hsteps hlast

/-! ## Proofs of a goal -/

namespace Proves

variable {goal : Query} (hrules : rules.Made) (hview : view.Knows A)
  (inj : Set.InjOn Fact.digest (established A p.steps))
  (hlimit : ∀ f ∈ p.steps.map ProofStep.derived, f.WithinLimit)

include hrules hview inj hlimit

/-- The steps up to the one that derives the conclusion make a proof that is accepted. -/
theorem check_trimmed (h : p.Proves rules.rules A goal) (hsplit : p.steps = before ++ step :: after)
    (hstep : step.derived = p.conclusion) :
    ({ p with steps := before ++ [step] } : Proof).check rules view = .ok () := by
  have hsubset : (before ++ [step]).map ProofStep.derived ⊆ p.steps.map ProofStep.derived := by
    rw [hsplit, List.append_cons before step after]
    exact List.map_subset _ (List.subset_append_left _ _)
  rw [check_of_last hrules hview (inj.mono (Set.union_subset_union_right A hsubset))
    (fun f hf => hlimit f (hsubset hf)) (h.justified.of_eq_append hsplit).2 List.getLast?_concat,
    if_pos hstep]

/-- With steps behind the one that derives the conclusion, a proof is refused for its last one. -/
theorem check_untrimmed (h : p.Proves rules.rules A goal)
    (hsplit : p.steps = before ++ step :: after) (hstep : step.derived = p.conclusion)
    (hlast : after.getLast? = some last) : p.check rules view =
      .error (.logic (.invalidProof (.otherConclusion last.derived p.conclusion))) := by
  have hne : last.derived ≠ p.conclusion := by
    have hnodup := h.nodup
    rw [hsplit, List.map_append, List.map_cons] at hnodup
    have hnot := (List.nodup_cons.1 hnodup.of_append_right).1
    rw [hstep] at hnot
    exact fun hl => hnot (hl ▸ List.mem_map_of_mem (List.mem_of_getLast? hlast))
  have hlast' : p.steps.getLast? = some last := by
    rw [hsplit, List.getLast?_append, List.getLast?_cons, hlast]
    rfl
  rw [check_of_last hrules hview inj hlimit h.justified hlast', if_neg hne]

end Proves

end Proof

namespace Store

variable {s : Store} {c : Counters} {rules : Rulebook} {bound : Nat} {goal : Query} {p : Proof}

/-- A proof is found in an open storage only: without facts rules derive nothing. -/
theorem isOpen_of_prove (hrules : rules.Made) (h : (s.prove c rules bound goal).2 = .ok p) :
    s.storage.isOpen = true := by
  by_contra hclosed
  have hview : s.view.Faithful ∅ (factsOver Set.univ) :=
    ⟨fun _ _ hl _ _ hf => absurd (isOpen_of_mem_find hl hf) hclosed⟩
  have hproves := prove_proves hview (Set.empty_subset _) hrules (by simp) (by simp) h
  have hempty := consequences_empty fun r hr => (hrules.sound r hr).conditions
  have hmem : p.conclusion ∈ established ∅ p.steps := hproves.conclusion.imp And.right id
  have := hproves.justified.mem_consequences hrules.sound hmem
  rw [hempty] at this
  exact this

/-- Consequences of stored facts have digests if the constants of the rules are within the
limit. -/
theorem withinLimit_of_mem_consequences (hrules : rules.Made)
    (hlimit : ∀ r ∈ rules.rules, ∀ x ∈ r.constants, x.WithinLimit) {f : Fact}
    (hf : f ∈ consequences rules.rules s.content) : f.WithinLimit := by
  refine Fact.withinLimit_iff.2 fun x hx => ?_
  rcases consequences_subset_factsOver hrules.sound Set.Subset.rfl hf x hx with
    ⟨g, hg, hx⟩ | ⟨r, hr, hx⟩
  · exact Fact.withinLimit_iff.1 (Storage.withinLimit_of_mem hg) x hx
  · exact hlimit r hr x hx

/-- A proof that is found without steps is accepted. Otherwise exactly one of its steps derives the
conclusion, and the proof is accepted if and only if no steps stand behind this one. If there are
some, the check finds fault with the last of them, while the steps up to the one that derives the
conclusion make a proof that is accepted. -/
theorem prove_check (hs : s.storage.Addressed) (hrules : rules.Made)
    (hlimit : ∀ r ∈ rules.rules, ∀ x ∈ r.constants, x.WithinLimit)
    (inj : Set.InjOn Fact.digest (factsOver
      (vocabulary rules.rules s.content ∪ {x | x ∈ (Atom.ofQuery goal).constants})))
    (h : (s.prove c rules bound goal).2 = .ok p) :
    p.steps = [] ∧ p.check rules s.view = .ok () ∨
    ∃ before step after, p.steps = before ++ step :: after ∧ step.derived = p.conclusion ∧
      (∀ other ∈ p.steps, other.derived = p.conclusion → other = step) ∧
      (p.check rules s.view = .ok () ↔ after = []) ∧
      (∀ last, after.getLast? = some last → p.check rules s.view =
        .error (.logic (.invalidProof (.otherConclusion last.derived p.conclusion)))) ∧
      ({ p with steps := before ++ [step] } : Proof).check rules s.view = .ok () := by
  have hproves := proves_of_prove hs hrules inj h
  have hview := knows_view hs (isOpen_of_prove hrules h)
  have hconsequences : established s.content p.steps ⊆ consequences rules.rules s.content :=
    fun f hf => hproves.justified.mem_consequences hrules.sound hf
  have inj' : Set.InjOn Fact.digest (established s.content p.steps) := inj.mono
    (hconsequences.trans (consequences_subset_factsOver hrules.sound Set.subset_union_left))
  have hwithin : ∀ f ∈ p.steps.map ProofStep.derived, f.WithinLimit := fun f hf =>
    withinLimit_of_mem_consequences hrules hlimit (hconsequences (Or.inr hf))
  rcases hproves.conclusion with ⟨hnil, hf⟩ | hderived
  · exact Or.inl ⟨hnil, Proof.check_of_mem hview hnil hf⟩
  obtain ⟨step, hstep, heq⟩ := List.mem_map.1 hderived
  obtain ⟨before, after, hsplit⟩ := List.append_of_mem hstep
  have htrimmed := hproves.check_trimmed hrules hview inj' hwithin hsplit heq
  have hrefused : ∀ last, after.getLast? = some last → p.check rules s.view =
      .error (.logic (.invalidProof (.otherConclusion last.derived p.conclusion))) :=
    fun last hlast => hproves.check_untrimmed hrules hview inj' hwithin hsplit heq hlast
  have hunique : ∀ other ∈ p.steps, other.derived = p.conclusion → other = step :=
    fun other hother h => List.inj_on_of_nodup_map hproves.nodup hother hstep (h.trans heq.symm)
  refine Or.inr ⟨before, step, after, hsplit, heq, hunique, ⟨fun hok => ?_, ?_⟩, hrefused,
    htrimmed⟩
  · cases hlast : after.getLast? with
    | none => exact List.getLast?_eq_none_iff.1 hlast
    | some last =>
      rw [hrefused last hlast] at hok
      cases hok
  · rintro rfl
    rw [← hsplit] at htrimmed
    exact htrimmed

/-- A search that meets a goal twice leaves out the second step for it. Where the search ends at
this step, the last step of its proof derives something else. -/
theorem prove_check_repeated :
    let f : Fact := ⟨.named "a", "b", .named "b"⟩
    let keep : Rule := {
      name := "keep"
      conditions := [{ atom := ⟨.var "x", .named "a", .var "y"⟩ },
        { atom := ⟨.var "y", .named "a", .var "z"⟩ }]
      actions := [.derive ⟨.var "x", .named "a", .var "y"⟩] }
    let same : Rule := {
      name := "same"
      conditions := [{ atom := ⟨.var "x", .named "b", .var "y"⟩ }]
      actions := [.derive ⟨.var "x", .named "a", .var "y"⟩] }
    let turn : Rule := {
      name := "turn"
      conditions := [{ atom := ⟨.var "x", .named "b", .var "y"⟩ }]
      actions := [.derive ⟨.var "y", .named "a", .var "x"⟩] }
    let rules : Rulebook := { rules := [keep, same, turn] }
    let goal : Query := { subject := some (.named "a"), predicate := some "a" }
    ∃ (s : Store) (p : Proof), s.content = {f} ∧ (s.prove {} rules 2 goal).2 = .ok p ∧
      p.conclusion = ⟨.named "a", "a", .named "b"⟩ ∧ p.check rules s.view =
        .error (.logic (.invalidProof
          (.otherConclusion ⟨.named "b", "a", .named "a"⟩ p.conclusion))) := by
  intro f keep same turn rules goal
  have hmade : rules.Made := Rulebook.made_of_addAll rfl (by decide)
  obtain ⟨s, hs, hf, hrun⟩ := exists_of_insert f
    (fun s => (s.proveFor 50 rules 2 goal).any fun r => r.toOption.any fun p =>
      p.conclusion == ⟨.named "a", "a", .named "b"⟩ &&
        p.steps.map ProofStep.derived ==
          [⟨.named "a", "a", .named "b"⟩, ⟨.named "b", "a", .named "a"⟩])
    (by decide +kernel)
  obtain ⟨p, hprove, htest⟩ := exists_of_proveFor hrun {}
  simp only [Bool.and_eq_true, beq_iff_eq] at htest
  obtain ⟨hconclusion, hderived⟩ := htest
  have hlimit : ∀ r ∈ rules.rules, ∀ x ∈ r.constants, x.WithinLimit := by
    show ∀ r ∈ rules.rules, ∀ x ∈ r.constants, ∀ t ∈ x.fields, t.length ≤ fieldLimit
    decide +kernel
  have inj : Set.InjOn Fact.digest (factsOver {x | x ∈ [.named "a", .named "b"]}) :=
    injOn_digest_of_nodup (by decide +kernel)
  have hvocabulary : vocabulary rules.rules s.content ∪ {x | x ∈ (Atom.ofQuery goal).constants} ⊆
      {x | x ∈ [.named "a", .named "b"]} := by
    rw [hf, vocabulary_singleton]
    refine Set.union_subset ?_ ?_
    · exact show ∀ x ∈ f.values ++ rules.rules.flatMap Rule.constants, _ from by decide
    · exact show ∀ x ∈ (Atom.ofQuery goal).constants, _ from by decide
  refine ⟨s, p, hf, hprove, hconclusion, ?_⟩
  rcases prove_check hs.addressed hmade hlimit (inj.mono (factsOver_mono hvocabulary)) hprove with
    ⟨hnil, -⟩ | ⟨before, step, after, hsplit, hstep, -, -, hrefused, -⟩
  · rw [hnil] at hderived
    cases hderived
  · -- The first step derives the conclusion.
    rw [hsplit, List.map_append, List.map_cons] at hderived
    cases before with
    | nil =>
      rw [List.map_nil, List.nil_append, List.cons.injEq] at hderived
      obtain ⟨last, hlast, hl⟩ := List.map_eq_singleton_iff.1 hderived.2
      rw [hrefused last (by simp [hlast]), hl]
    | cons first before =>
      rw [List.map_cons, List.cons_append, List.cons.injEq] at hderived
      have hmem : step.derived ∈ [(⟨.named "b", "a", .named "a"⟩ : Fact)] := by
        rw [← hderived.2]
        simp
      rw [hstep, hconclusion] at hmem
      exact absurd hmem (by decide)

end Store

end FactGraph
