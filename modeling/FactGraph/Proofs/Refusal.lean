import FactGraph.Proofs.Grounds

/-!
# How the check of a proof ends

A proof comes from anywhere, so that its facts need not be within the limit and its digests need not
lead anywhere. Over an open store the check of a proof accepts it, or it finds fault with it, or
else it asks for the digest of a fact that has none and fails as the store does
(`Store.check_verdict`). Where the constants of the rules are within the limit, no step that passes
the check derives a fact without a digest, and only a proof without steps can make the check fail in
this way: by its conclusion.
-/

namespace FactGraph

/-- A fact over the limit has no digest; its first field over the limit is to blame. -/
theorem Fact.id_eq_error {f : Fact} {e : StoreError} : f.id = .error e ↔
    ∃ t, f.fields.find? (fun t => fieldLimit < t.length) = some t ∧
      e = .fieldOverLimit t.length := by
  rw [Fact.id, Encoding.encode, Encoding.checkFields]
  cases f.fields.find? fun t => fieldLimit < t.length with
  | none => simp [bind, Except.bind, pure, Except.pure]
  | some t => simp [bind, Except.bind, eq_comm]

namespace Proof

variable {rules : Rulebook} {v : View} {before steps : List ProofStep} {step : ProofStep}
  {derived : Derived} {number : Nat} {p : Proof} {e : StoreError}

/-! ## Steps -/

@[simp] theorem stepFault_ne_store {α : Type} (fault : StepFault) :
    (stepFault fault : Except (StepFault ⊕ StoreError) α) ≠ .error (.inr e) := by
  intro h
  cases h

theorem premise_ne_store (hget : ∀ id, ∃ o, v.get id = .ok o) (id : Digest) :
    premise v derived id ≠ .error (.inr e) := by
  intro h
  obtain ⟨o, ho⟩ := hget id
  rw [premise, ho] at h
  cases hl : derived.lookup id <;> cases o <;> simp [hl] at h

/-- Where every digest can be looked up, the store does not fail during a step. -/
theorem checkStep_ne_store (hget : ∀ id, ∃ o, v.get id = .ok o) :
    checkStep rules v derived step ≠ .error (.inr e) := by
  intro h
  have hpremises : step.premises.mapM (premise v derived) ≠ .error (.inr e) := by
    intro hmapM
    obtain ⟨id, -, hid⟩ := exists_error_of_mapM hmapM
    exact premise_ne_store hget id hid
  unfold checkStep at h
  cases hfind : rules.find? step.rule with
  | none => simp [hfind] at h
  | some r =>
    simp only [hfind] at h
    split at h
    · simp at h
    split at h
    · simp at h
    split at h
    · simp at h
    rcases bind_eq_error.1 h with h | ⟨premises, -, h⟩
    · exact hpremises h
    cases hunify : Condition.unifyAll r.conditions premises with
    | none => simp [hunify] at h
    | some s =>
      simp only [hunify] at h
      split at h <;> simp [pure, Except.pure] at h

/-- The check of steps ends in the acceptance of all of them, in a fault or in a failure of the
store. -/
theorem checkSteps_outcomes (rules : Rulebook) (v : View) (number : Nat) (derived : Derived)
    (steps : List ProofStep) : checkSteps rules v number derived steps = .ok () ∨
      (∃ fault, checkSteps rules v number derived steps = .error (.logic (.invalidProof fault))) ∨
      ∃ e, checkSteps rules v number derived steps = .error (.store e) := by
  induction steps generalizing number derived with
  | nil => exact .inl rfl
  | cons step steps ih =>
    rw [checkSteps]
    cases checkStep rules v derived step with
    | error fault =>
      cases fault with
      | inl fault => exact .inr (.inl ⟨_, rfl⟩)
      | inr e => exact .inr (.inr ⟨e, rfl⟩)
    | ok =>
      cases step.derived.id with
      | error e => exact .inr (.inr ⟨e, rfl⟩)
      | ok id => exact ih (number + 1) (derived ++ [(id, step.derived)])

theorem checkSteps_cons_eq_store (hget : ∀ id, ∃ o, v.get id = .ok o) :
    checkSteps rules v number (derivedBy before) (step :: steps) = .error (.store e) ↔
      checkStep rules v (derivedBy before) step = .ok () ∧ (step.derived.id = .error e ∨
        step.derived.WithinLimit ∧
          checkSteps rules v (number + 1) (derivedBy (before ++ [step])) steps =
            .error (.store e)) := by
  cases hstep : checkStep rules v (derivedBy before) step with
  | error fault =>
    cases fault with
    | inl fault => simp [checkSteps, hstep]
    | inr e' => exact absurd hstep (checkStep_ne_store hget)
  | ok =>
    cases hid : step.derived.id with
    | error e' =>
      have hlimit : ¬ step.derived.WithinLimit := fun hlimit => by
        rw [hlimit.id] at hid
        cases hid
      simp [checkSteps, hstep, hid, hlimit, StoreError.lift, Except.mapError, bind, Except.bind]
    | ok id =>
      have hlimit := (Fact.id_eq_ok.1 hid).1
      rw [checkSteps_cons hstep hlimit]
      simp [hlimit]

/-- The check of steps fails as the store does if a step that passes the check behind others that do
derives a fact without a digest. -/
theorem checkSteps_eq_store (hget : ∀ id, ∃ o, v.get id = .ok o) :
    checkSteps rules v number (derivedBy before) steps = .error (.store e) ↔
      ∃ between step after, steps = between ++ step :: after ∧
        checkSteps rules v number (derivedBy before) between = .ok () ∧
        checkStep rules v (derivedBy (before ++ between)) step = .ok () ∧
        step.derived.id = .error e := by
  constructor
  · intro h
    -- What was derived is carried as `derivedBy before`, so that the induction is on the rest.
    induction steps generalizing before number with
    | nil => cases h
    | cons step steps ih =>
      obtain ⟨hstep, hid | ⟨hlimit, hrest⟩⟩ := (checkSteps_cons_eq_store hget).1 h
      · exact ⟨[], step, steps, rfl, rfl, by rwa [List.append_nil], hid⟩
      · obtain ⟨between, last, after, rfl, hbetween, hlast, hid⟩ := ih hrest
        refine ⟨step :: between, last, after, rfl,
          checkSteps_cons_eq_ok.2 ⟨hstep, hlimit, hbetween⟩, ?_, hid⟩
        rwa [← List.append_cons] at hlast
  · rintro ⟨between, step, after, rfl, hbetween, hstep, hid⟩
    induction between generalizing before number with
    | nil =>
      rw [List.append_nil] at hstep
      exact (checkSteps_cons_eq_store hget).2 ⟨hstep, .inl hid⟩
    | cons first between ih =>
      obtain ⟨hfirst, hlimit, hrest⟩ := checkSteps_cons_eq_ok.1 hbetween
      rw [List.append_cons] at hstep
      exact (checkSteps_cons_eq_store hget).2 ⟨hfirst, .inr ⟨hlimit, ih hrest hstep⟩⟩

/-! ## Proofs -/

/-- Whether the check of a proof asks for the digest of a fact: of the conclusion if there are no
steps, or else of what a step derives that passes the check behind others that do. -/
def NeedsDigest (rules : Rulebook) (v : View) (p : Proof) (f : Fact) : Prop :=
  p.steps = [] ∧ f = p.conclusion ∨
    ∃ before step after, p.steps = before ++ step :: after ∧ f = step.derived ∧
      checkSteps rules v 1 [] before = .ok () ∧
      checkStep rules v (derivedBy before) step = .ok ()

theorem check_of_contains_error (hnil : p.steps = []) (hc : v.contains p.conclusion = .error e) :
    p.check rules v = .error (.store e) := by
  simp [check, hnil, hc, StoreError.lift, Except.mapError, bind, Except.bind]

/-- The check of a proof, like that of its steps, ends in one of three ways. -/
theorem check_outcomes (rules : Rulebook) (v : View) (p : Proof) : p.check rules v = .ok () ∨
    (∃ fault, p.check rules v = .error (.logic (.invalidProof fault))) ∨
    ∃ e, p.check rules v = .error (.store e) := by
  cases hlast : p.steps.getLast? with
  | none =>
    have hnil := List.getLast?_eq_none_iff.1 hlast
    cases hc : v.contains p.conclusion with
    | error e => exact .inr (.inr ⟨e, check_of_contains_error hnil hc⟩)
    | ok b =>
      cases b with
      | true => exact .inl ((check_eq_ok_of_nil hnil).2 hc)
      | false => exact .inr (.inl ⟨_, check_of_contains_false hnil hc⟩)
  | some last =>
    have hsteps : p.steps ≠ [] := fun hnil => by simp [hnil] at hlast
    rcases checkSteps_outcomes rules v 1 [] p.steps with h | ⟨fault, h⟩ | ⟨e, h⟩
    · rw [check_of_checkSteps h hlast]
      split
      · exact .inl rfl
      · exact .inr (.inl ⟨_, rfl⟩)
    · exact .inr (.inl ⟨fault, check_of_checkSteps_eq_error hsteps h⟩)
    · exact .inr (.inr ⟨e, check_of_checkSteps_eq_error hsteps h⟩)

theorem check_eq_store_of_nil (hnil : p.steps = []) :
    p.check rules v = .error (.store e) ↔ v.contains p.conclusion = .error e := by
  refine ⟨fun h => ?_, check_of_contains_error hnil⟩
  cases hc : v.contains p.conclusion with
  | error e' =>
    rw [check_of_contains_error hnil hc] at h
    cases h
    rfl
  | ok b =>
    cases b with
    | true =>
      rw [(check_eq_ok_of_nil hnil).2 hc] at h
      cases h
    | false =>
      rw [check_of_contains_false hnil hc] at h
      cases h

theorem check_eq_store_of_steps (hsteps : p.steps ≠ []) : p.check rules v = .error (.store e) ↔
    checkSteps rules v 1 (derivedBy []) p.steps = .error (.store e) := by
  refine ⟨fun h => ?_, check_of_checkSteps_eq_error hsteps⟩
  rcases checkSteps_outcomes rules v 1 [] p.steps with h' | ⟨fault, h'⟩ | ⟨e', h'⟩
  · rw [check_of_checkSteps h' (List.getLast?_eq_some_getLast hsteps)] at h
    split at h <;> cases h
  · rw [check_of_checkSteps_eq_error hsteps h'] at h
    cases h
  · rw [check_of_checkSteps_eq_error hsteps h'] at h
    cases h
    exact h'

/-- The check fails as the store does if it asks for the digest of a fact that has none. -/
theorem check_eq_store (hget : ∀ id, ∃ o, v.get id = .ok o)
    (hcontains : ∀ f, v.contains f = .error e ↔ f.id = .error e) :
    p.check rules v = .error (.store e) ↔ ∃ f, p.NeedsDigest rules v f ∧ f.id = .error e := by
  by_cases hnil : p.steps = []
  · rw [check_eq_store_of_nil hnil, hcontains]
    constructor
    · exact fun hid => ⟨p.conclusion, .inl ⟨hnil, rfl⟩, hid⟩
    · rintro ⟨f, ⟨-, rfl⟩ | ⟨before, step, after, hsplit, -⟩, hid⟩
      · exact hid
      · simp [hnil] at hsplit
  · rw [check_eq_store_of_steps hnil, checkSteps_eq_store hget]
    constructor
    · rintro ⟨before, step, after, hsplit, hbefore, hstep, hid⟩
      exact ⟨_, .inr ⟨before, step, after, hsplit, rfl, hbefore, hstep⟩, hid⟩
    · rintro ⟨f, ⟨hnil', -⟩ | ⟨before, step, after, hsplit, rfl, hbefore, hstep⟩, hid⟩
      · exact absurd hnil' hnil
      · exact ⟨before, step, after, hsplit, hbefore, hstep, hid⟩

end Proof

/-! ## Proofs over stores -/

namespace Store

variable {s : Store} {rules : Rulebook} {p : Proof} {f : Fact} {e : StoreError}

/-- An open store fails to look a fact up only if the fact has no digest. -/
theorem contains_eq_error (ho : s.storage.isOpen = true) :
    s.contains f = .error e ↔ f.id = .error e := by
  rw [contains, bind_eq_error]
  refine ⟨fun h => h.resolve_right ?_, .inl⟩
  rintro ⟨id, -, hid⟩
  obtain ⟨b, hb⟩ := Storage.exists_has ho id
  rw [hb] at hid
  cases hid

/-- What passes the check behind steps that do is within the limit if the constants of the rules
are. -/
theorem withinLimit_of_checkStep (hs : s.storage.Addressed) (hrules : rules.Made)
    (hlimit : ∀ r ∈ rules.rules, ∀ x ∈ r.constants, x.WithinLimit) {before : List ProofStep}
    {step : ProofStep} (hbefore : Proof.checkSteps rules s.view 1 [] before = .ok ())
    (hstep : Proof.checkStep rules s.view (Proof.derivedBy before) step = .ok ()) :
    step.derived.WithinLimit := by
  have hget : ∀ id f, s.view.get id = .ok (some f) → f ∈ s.content :=
    fun id f hf => ((hs.of_get hf).1 rfl).1
  have hderived := Proof.mem_consequences_of_checkSteps hrules.sound hget (by simp) hbefore
  refine withinLimit_of_mem_consequences hrules hlimit
    (Proof.mem_consequences_of_checkStep hrules.sound hget ?_ hstep)
  intro e he
  obtain ⟨earlier, hearlier, rfl⟩ := List.mem_map.1 he
  exact hderived earlier hearlier

/-- The check of any proof over an open store accepts the proof, finds fault with it or fails for a
field over the limit. It fails if it asks for the digest of a fact that has none; this is the
conclusion of a proof without steps, unless a constant of a rule is over the limit as well. -/
theorem check_verdict (hs : s.storage.Addressed) (ho : s.storage.isOpen = true)
    (rules : Rulebook) (p : Proof) :
    (p.check rules s.view = .ok () ∧ p.fault? rules s.view = .ok none ∨
      (∃ fault, p.check rules s.view = .error (.logic (.invalidProof fault)) ∧
        p.fault? rules s.view = .ok (some fault)) ∨
      ∃ n, p.check rules s.view = .error (.store (.fieldOverLimit n)) ∧
        p.fault? rules s.view = .error (.store (.fieldOverLimit n))) ∧
    (∀ e, p.check rules s.view = .error (.store e) ↔
      ∃ f, p.NeedsDigest rules s.view f ∧ f.id = .error e) ∧
    (rules.Made → (∀ r ∈ rules.rules, ∀ x ∈ r.constants, x.WithinLimit) → ∀ e,
      p.check rules s.view = .error (.store e) ↔ p.steps = [] ∧ p.conclusion.id = .error e) := by
  have hstore (e : StoreError) : p.check rules s.view = .error (.store e) ↔
      ∃ f, p.NeedsDigest rules s.view f ∧ f.id = .error e :=
    Proof.check_eq_store (hs.exists_get ho) fun f => contains_eq_error ho
  refine ⟨?_, hstore, fun hrules hlimit e => ?_⟩
  · rcases Proof.check_outcomes rules s.view p with h | ⟨fault, h⟩ | ⟨e, h⟩
    · exact .inl ⟨h, by rw [Proof.fault?, h]⟩
    · exact .inr (.inl ⟨fault, h, by rw [Proof.fault?, h]⟩)
    · obtain ⟨f, -, hid⟩ := (hstore e).1 h
      obtain ⟨t, -, rfl⟩ := Fact.id_eq_error.1 hid
      exact .inr (.inr ⟨t.length, h, by rw [Proof.fault?, h]⟩)
  · rw [hstore]
    constructor
    · rintro ⟨f, ⟨hnil, rfl⟩ | ⟨before, step, after, -, rfl, hbefore, hstep⟩, hid⟩
      · exact ⟨hnil, hid⟩
      · rw [(withinLimit_of_checkStep hs hrules hlimit hbefore hstep).id] at hid
        cases hid
    · rintro ⟨hnil, hid⟩
      exact ⟨p.conclusion, .inl ⟨hnil, rfl⟩, hid⟩

/-- Of three proofs over a store with one fact, one is accepted, one has a premise that is not
stored, and the conclusion of one is over the limit. -/
theorem check_verdict_turn :
    let f : Fact := ⟨.named "a", "b", .named "b"⟩
    let g : Fact := ⟨.named "b", "a", .named "a"⟩
    let long : Fact := ⟨.named (List.replicate (fieldLimit + 1) 0x61), "p", .boolean true⟩
    let turn : Rule := {
      name := "turn"
      conditions := [{ atom := ⟨.var "x", .named "b", .var "y"⟩ }]
      actions := [.derive ⟨.var "y", .named "a", .var "x"⟩] }
    let rules : Rulebook := { rules := [turn] }
    ∃ s : Store, s.storage.isOpen = true ∧ s.content = {f} ∧
      Proof.check rules s.view ⟨g, [⟨"turn", [f.digest], g⟩]⟩ = .ok () ∧
      Proof.check rules s.view ⟨g, [⟨"turn", [g.digest], g⟩]⟩ =
        .error (.logic (.invalidProof (.step 1 "turn" (.missingPremise g.digest)))) ∧
      Proof.check rules s.view ⟨long, []⟩ = .error (.store (.fieldOverLimit (fieldLimit + 1))) := by
  intro f g long turn rules
  obtain ⟨s, hs, hf, htest⟩ := exists_of_insert f
    (fun s => s.storage.isOpen &&
      Proof.check rules s.view ⟨g, [⟨"turn", [f.digest], g⟩]⟩ == .ok () &&
      Proof.check rules s.view ⟨g, [⟨"turn", [g.digest], g⟩]⟩ ==
        .error (.logic (.invalidProof (.step 1 "turn" (.missingPremise g.digest)))))
    (by decide +kernel)
  simp only [Bool.and_eq_true, beq_iff_eq] at htest
  obtain ⟨⟨ho, haccepted⟩, hrefused⟩ := htest
  refine ⟨s, ho, hf, haccepted, hrefused, ?_⟩
  have hmade : rules.Made := Rulebook.made_of_addAll rfl (by decide)
  have hlimit : ∀ r ∈ rules.rules, ∀ x ∈ r.constants, x.WithinLimit := by
    show ∀ r ∈ rules.rules, ∀ x ∈ r.constants, ∀ t ∈ x.fields, t.length ≤ fieldLimit
    decide +kernel
  have hlong : long.id = .error (.fieldOverLimit (fieldLimit + 1)) := by
    refine Fact.id_eq_error.2 ⟨List.replicate (fieldLimit + 1) 0x61, ?_, ?_⟩
    · refine List.find?_cons_of_pos ?_
      rw [List.length_replicate]
      exact decide_eq_true (Nat.lt_succ_self _)
    · rw [List.length_replicate]
  exact ((check_verdict hs.addressed ho rules ⟨long, []⟩).2.2 hmade hlimit _).2 ⟨rfl, hlong⟩

end Store
end FactGraph
