import FactGraph.Proofs.Chains
import FactGraph.Proofs.Check

/-!
# How deep proofs are

A search applies rules at most as many levels deep as its bound says. What it applies on its way to
a proof makes a record, in which the premises of a step are established one level deeper than what
the step derives (`Unfolded`). Measured in the way in which proofs are, the record is no deeper than
the bound (`Unfolded.depth_le`).

A proof keeps only the first of the steps of the record that derive a fact. So it is as deep as the
record if no fact is derived twice. Otherwise a step may come to use the first derivation of a fact
where the search used a lower one, and the proof may be deeper than the bound
(`Store.prove_unfolds`).
-/

namespace FactGraph

/-- Whether steps record how facts are established one after the other, by rules that are applied at
most `n` levels above each other. -/
inductive Unfolded (rules : List Rule) (A : Set Fact) :
    Nat → List Fact → List ProofStep → Prop
  /-- There is nothing to be established. -/
  | nil {n : Nat} : Unfolded rules A n [] []
  /-- The first fact is given. -/
  | given {n : Nat} {f : Fact} {facts : List Fact} {record : List ProofStep} :
      f ∈ A → Unfolded rules A n facts record → Unfolded rules A n (f :: facts) record
  /-- The first fact is derived from premises that are established one level deeper. -/
  | derived {n : Nat} {premises facts : List Fact} {record record' : List ProofStep}
      {step : ProofStep} :
      Unfolded rules A n premises record → step.AppliesTo rules premises →
      Unfolded rules A (n + 1) facts record' →
      Unfolded rules A (n + 1) (step.derived :: facts) (record ++ step :: record')

variable {rules : List Rule} {A : Set Fact} {V : Set Value} {n bound depth : Nat} {f : Fact}
  {facts facts' found : List Fact} {record record' steps : List ProofStep} {step : ProofStep}

namespace Unfolded

theorem append (h : Unfolded rules A n facts record) (h' : Unfolded rules A n facts' record') :
    Unfolded rules A n (facts ++ facts') (record ++ record') := by
  induction h with
  | nil => exact h'
  | given hf _ ih => exact .given hf (ih h')
  | derived hpremises hstep _ _ ih =>
    rw [List.append_assoc, List.cons_append, List.cons_append]
    exact .derived hpremises hstep (ih h')

/-- What is established follows from the given facts, and so does what the steps derive. -/
theorem mem_consequences (hrules : ∀ r ∈ rules, r.Sound) (h : Unfolded rules A n facts record) :
    (∀ f ∈ facts, f ∈ consequences rules A) ∧
      ∀ step ∈ record, step.derived ∈ consequences rules A := by
  induction h with
  | nil => simp
  | given hf _ ih =>
    exact ⟨List.forall_mem_cons.2 ⟨subset_consequences rules A hf, ih.1⟩, ih.2⟩
  | derived _ hstep _ ih ih' =>
    have hderived := closed_consequences rules A _ ((hstep.applies ih.1).follows hrules)
    refine ⟨List.forall_mem_cons.2 ⟨hderived, ih'.1⟩, fun step' hmem => ?_⟩
    rcases List.mem_append.1 hmem with hmem | hmem
    · exact ih.2 step' hmem
    · rcases List.mem_cons.1 hmem with rfl | hmem
      · exact hderived
      · exact ih'.2 step' hmem

end Unfolded

/-! ## Depths of records -/

namespace Proof

variable {levels : Levels}

theorem stepLevel_le {premises : List Digest}
    (h : ∀ id ∈ premises, ∀ l, levels.lookup id = some l → l ≤ n) :
    stepLevel levels premises ≤ n + 1 := by
  rcases (isGreatest_stepLevel levels premises).1 with heq | ⟨id, hid, l, hl, heq⟩
  · omega
  · have := h id hid l hl
    omega

end Proof

namespace Unfolded

open Proof

/-- Along a record, no step gets a level that is too high: given facts have no level, and the facts
that are established last got theirs from the record itself. -/
theorem exists_levels (h : Unfolded rules A n facts record)
    (hlimit : ∀ step ∈ record, step.derived.WithinLimit)
    (hnew : ∀ step ∈ record, ∀ g ∈ A, g.digest ≠ step.derived.digest) {levels : Levels}
    (hlevels : ∀ g ∈ A, levels.lookup g.digest = none) (deepest : Nat) (rest : List ProofStep) :
    ∃ levels' deepest', depthFrom levels deepest (record ++ rest) =
        depthFrom (levels' ++ levels) deepest' rest ∧ deepest' ≤ max deepest n ∧
      (∀ e ∈ levels', e.2 ≤ n) ∧ (∀ g ∈ A, levels'.lookup g.digest = none) ∧
      ∀ f ∈ facts, f ∈ A ∨ f.digest ∈ levels'.map Prod.fst := by
  induction h generalizing levels deepest rest with
  | nil => exact ⟨[], deepest, rfl, by omega, by simp, by simp, by simp⟩
  | given hf _ ih =>
    obtain ⟨levels', deepest', heq, hdeepest, hle, hgiven, hfacts⟩ :=
      ih hlimit hnew hlevels deepest rest
    exact ⟨levels', deepest', heq, hdeepest, hle, hgiven,
      List.forall_mem_cons.2 ⟨Or.inl hf, hfacts⟩⟩
  | @derived n premises facts record record' step _ hstep _ ih ih' =>
    simp only [List.forall_mem_append, List.forall_mem_cons] at hlimit hnew
    obtain ⟨levels₁, deepest₁, heq₁, hdeepest₁, hle₁, hgiven₁, hpremises⟩ :=
      ih hlimit.1 hnew.1 hlevels deepest (step :: (record' ++ rest))
    -- A premise that is not given has its level from the record of the premises.
    have hlevel : stepLevel (levels₁ ++ levels) step.premises ≤ n + 1 := by
      refine stepLevel_le fun id hid l hl => ?_
      obtain ⟨r, -, -, -, hids, -⟩ := hstep
      rw [hids] at hid
      obtain ⟨g, hg, rfl⟩ := List.mem_map.1 hid
      rw [List.lookup_append] at hl
      rcases hpremises g hg with hA | hmem
      · rw [hgiven₁ g hA, hlevels g hA] at hl
        cases hl
      · cases hl₁ : levels₁.lookup g.digest with
        | none => exact absurd hmem (lookup_eq_none_iff_not_mem.1 hl₁)
        | some l₁ =>
          rw [hl₁] at hl
          cases hl
          exact hle₁ _ (mem_of_lookup hl₁)
    have hlevels₂ : ∀ g ∈ A, List.lookup g.digest
        ((step.derived.digest, stepLevel (levels₁ ++ levels) step.premises) ::
          (levels₁ ++ levels)) = none := by
      intro g hg
      rw [List.lookup_cons, beq_eq_false_iff_ne.2 (hnew.2.1 g hg), List.lookup_append,
        hgiven₁ g hg, hlevels g hg]
      rfl
    obtain ⟨levels₂, deepest₂, heq₂, hdeepest₂, hle₂, hgiven₂, hfacts⟩ := ih' hlimit.2.2 hnew.2.2
      hlevels₂ (max deepest₁ (stepLevel (levels₁ ++ levels) step.premises)) rest
    refine ⟨levels₂ ++ (step.derived.digest, stepLevel (levels₁ ++ levels) step.premises) ::
      levels₁, deepest₂, ?_, by omega, ?_, fun g hg => ?_, ?_⟩
    · rw [List.append_assoc, List.cons_append, heq₁, depthFrom_cons hlimit.2.1, heq₂,
        List.append_assoc, List.cons_append]
    · refine List.forall_mem_append.2 ⟨hle₂, List.forall_mem_cons.2 ⟨hlevel, fun e he => ?_⟩⟩
      exact Nat.le_succ_of_le (hle₁ e he)
    · rw [List.lookup_append, hgiven₂ g hg, List.lookup_cons,
        beq_eq_false_iff_ne.2 (hnew.2.1 g hg), hgiven₁ g hg]
      rfl
    · refine List.forall_mem_cons.2 ⟨Or.inr (by simp), fun g hg => ?_⟩
      exact (hfacts g hg).imp id fun hmem => by
        rw [List.map_append]
        exact List.mem_append_left _ hmem

/-- A record is no deeper than it may be, provided that no step derives what is given. -/
theorem depth_le (h : Unfolded rules A n facts record)
    (hlimit : ∀ step ∈ record, step.derived.WithinLimit)
    (hnew : ∀ step ∈ record, ∀ g ∈ A, g.digest ≠ step.derived.digest) (f : Fact) :
    ∃ k ≤ n, ({ conclusion := f, steps := record } : Proof).depth = .ok k := by
  obtain ⟨levels, deepest, heq, hdeepest, -⟩ :=
    h.exists_levels hlimit hnew (fun _ _ => List.lookup_nil) 0 []
  refine ⟨deepest, by omega, ?_⟩
  rw [Proof.depth, ← List.append_nil record, heq]
  rfl

end Unfolded

/-! ## Searches and their records -/

/-- What a search keeps of a record if nothing is derived twice: all of it. -/
theorem foldl_addStep_of_nodup (h : ((steps ++ record).map ProofStep.derived).Nodup) :
    record.foldl Branch.addStep steps = steps ++ record := by
  induction record generalizing steps with
  | nil => simp
  | cons step record ih =>
    have hadd : Branch.addStep steps step = steps ++ [step] := by
      rw [List.map_append, List.nodup_append] at h
      rw [Branch.addStep, if_neg]
      intro hany
      obtain ⟨t, ht, heq⟩ := List.any_eq_true.1 hany
      exact h.2.2 _ (List.mem_map_of_mem ht) _ (List.mem_map_of_mem List.mem_cons_self)
        (beq_iff_eq.1 heq)
    rw [List.foldl_cons, hadd, ih (by simpa using h), List.append_assoc, List.singleton_append]

/-- How goals, the facts found so far and what was recorded on the way fit together, where rules are
applied below a bound on the depth. -/
inductive Recorded (rules : List Rule) (A : Set Fact) (bound : Nat) :
    List Goal → List Fact → List ProofStep → Prop
  /-- The search has just begun. -/
  | start {top : Atom} {above : List Text} :
      Recorded rules A bound [.solve top none 0 above] [] []
  /-- The search has come to its end. -/
  | done {f : Fact} {record : List ProofStep} :
      Unfolded rules A bound [f] record → Recorded rules A bound [] [f] record
  /-- A rule is applied to a goal, and the facts found for the first of its conditions are
  established one level deeper. -/
  | inside {goals goals' : List Goal} {found found' premises : List Fact}
      {record record' record'' : List ProofStep} {atom head : Atom} {guard guard' : Option Guard}
      {depth count : Nat} {above above' : List Text} {name suffix : Text}
      {after : List Condition} :
      Recorded rules A bound (.solve atom guard depth above :: goals) found record →
      depth < bound → Unfolded rules A (bound - (depth + 1)) premises record' →
      goals' = Search.conditionGoals after suffix (depth + 1) above' ++
        .conclude head guard' name count :: goals →
      count = premises.length + after.length → found' = premises.reverse ++ found →
      record'' = record ++ record' → Recorded rules A bound goals' found' record''

namespace Recorded

variable {atom head : Atom} {guard : Option Guard} {above : List Text} {goals : List Goal}
  {name : Text} {count : Nat}

/-- A fact is established for the next goal. -/
theorem fill (h : Recorded rules A bound (.solve atom guard depth above :: goals) found record)
    (hf : Unfolded rules A (bound - depth) [f] record') :
    Recorded rules A bound goals (f :: found) (record ++ record') := by
  cases h with
  | start => exact .done hf
  | @inside _ _ _ _ premises _ recordᵢ _ _ _ _ _ depth' _ _ _ _ suffix after hparent hdepth
      hpremises hgoals hcount hfound hrecord =>
    cases after with
    | nil => simp [Search.conditionGoals] at hgoals
    | cons c after =>
      simp only [Search.conditionGoals, List.map_cons, List.cons_append, List.cons.injEq,
        Goal.solve.injEq] at hgoals
      obtain ⟨⟨-, -, rfl, -⟩, hgoals⟩ := hgoals
      refine .inside hparent hdepth (hpremises.append hf) hgoals ?_ (by simp [hfound])
        (by rw [hrecord, List.append_assoc])
      simp only [hcount, List.length_append, List.length_cons, List.length_nil]
      omega

/-- A head is concluded from the facts that were found for the conditions of its rule. -/
theorem conclude (h : Recorded rules A bound (.conclude head guard name count :: goals) found record)
    (hstep : step.AppliesTo rules (found.take count).reverse) :
    Recorded rules A bound goals (step.derived :: found.drop count) (record ++ [step]) := by
  cases h with
  | @inside _ _ below _ premises record₁ record₂ _ _ _ _ _ depth _ _ _ _ _ after hparent hdepth
      hpremises hgoals hcount hfound hrecord =>
    cases after with
    | cons c after => simp [Search.conditionGoals] at hgoals
    | nil =>
      simp only [Search.conditionGoals, List.map_nil, List.nil_append, List.cons.injEq,
        Goal.conclude.injEq] at hgoals
      obtain ⟨⟨rfl, rfl, rfl, rfl⟩, rfl⟩ := hgoals
      have hlength : premises.reverse.length = count := by simpa using hcount.symm
      have htake : (found.take count).reverse = premises := by
        rw [hfound, List.take_left' hlength, List.reverse_reverse]
      have hdrop : found.drop count = below := by rw [hfound, List.drop_left' hlength]
      rw [htake] at hstep
      rw [hdrop, hrecord, List.append_assoc]
      have hlevel : bound - (depth + 1) + 1 = bound - depth := by omega
      exact hparent.fill (hlevel ▸ .derived hpremises hstep .nil)

end Recorded

/-- Whether the steps of a branch are what is kept of a record. -/
def Branch.Recorded (rules : List Rule) (A : Set Fact) (bound : Nat) (b : Branch) : Prop :=
  ∃ record, FactGraph.Recorded rules A bound b.goals b.found record ∧
    b.steps = record.foldl addStep []

theorem Branch.recorded_first (rules : List Rule) (A : Set Fact) (bound : Nat) (top : Atom) :
    Branch.Recorded rules A bound { goals := [.solve top none 0 []] } := ⟨[], .start, rfl⟩

/-- Every step that is taken is recorded. -/
theorem Branch.Recorded.takes {s : Search} {b b' : Branch} {top : Atom}
    (hview : s.view.Faithful A (factsOver V)) (hsound : ∀ r ∈ s.rules, r.Sound)
    (hrules : ∀ r ∈ s.rules, ∀ x ∈ r.constants, x ∈ V) (htop : ∀ x ∈ top.constants, x ∈ V)
    (hb : b.Sound s.rules A V top) (htakes : s.Takes b b') (h : b.Recorded s.rules A s.bound) :
    b'.Recorded s.rules A s.bound := by
  obtain ⟨record, hrecorded, hsteps⟩ := h
  cases htakes with
  | @fact b _ atom guard depth above q l f _ hq hl hf hwith =>
    obtain ⟨bindings, -, -, rfl⟩ := Search.withFact_eq_some.1 hwith
    have hconstants := hb.stacked.mem_constants hrules htop
    obtain ⟨hfA, -⟩ := hview.find q l hl (fun g hg => hb.values.mem_factsOver hconstants hq hg) f hf
    exact ⟨record ++ [], hrecorded.fill (.given hfA .nil), by rw [List.append_nil, hsteps]⟩
  | rule guard _ hdepth _ =>
    exact ⟨record, .inside hrecorded hdepth .nil rfl (by simp) rfl (List.append_nil _).symm,
      hsteps⟩
  | @conclude b _ head guard rule premises hconclude =>
    obtain ⟨f, hf, hsatisfies, rfl⟩ := Search.conclude_eq_ok hconclude
    obtain ⟨hstep, -⟩ := hb.stacked.conclude hsound hb.wellFormed hf hsatisfies
    exact ⟨_, hrecorded.conclude hstep, by rw [List.foldl_append, ← hsteps]; rfl⟩

/-! ## Proving -/

namespace Store

variable {s : Store} {c : Counters} {rules : Rulebook} {bound : Nat} {goal : Query} {p : Proof}

/-- A proof is what is kept of a record in which rules are applied at most `bound` levels above each
other. If no step of the record derives a stored fact, the record is no deeper than that, and
neither is the proof if no fact is derived twice. -/
theorem prove_unfolds (hs : s.storage.Addressed) (hrules : rules.Made)
    (hlimit : ∀ r ∈ rules.rules, ∀ x ∈ r.constants, x.WithinLimit)
    (inj : Set.InjOn Fact.digest (factsOver
      (vocabulary rules.rules s.content ∪ {x | x ∈ (Atom.ofQuery goal).constants})))
    (h : (s.prove c rules bound goal).2 = .ok p) :
    ∃ record, Unfolded rules.rules s.content bound [p.conclusion] record ∧
      p.steps = record.foldl Branch.addStep [] ∧
      ((∀ step ∈ record, step.derived ∉ s.content) →
        (∃ n ≤ bound, ({ p with steps := record } : Proof).depth = .ok n) ∧
        ((record.map ProofStep.derived).Nodup → ∃ n ≤ bound, p.depth = .ok n)) := by
  have hcontent := subset_factsOver (V := vocabulary rules.rules s.content ∪
    {x | x ∈ (Atom.ofQuery goal).constants}) Set.subset_union_left
  have hview := faithful_view hs inj hcontent
  have hconstants : ∀ r ∈ rules.rules, ∀ x ∈ r.constants, x ∈ vocabulary rules.rules s.content ∪
      {x | x ∈ (Atom.ofQuery goal).constants} := fun r hr x hx => Or.inl (Or.inr ⟨r, hr, hx⟩)
  have hgoal : ∀ x ∈ (Atom.ofQuery goal).constants, x ∈ vocabulary rules.rules s.content ∪
      {x | x ∈ (Atom.ofQuery goal).constants} := fun x hx => Or.inr hx
  obtain ⟨t, hrun⟩ := prove_eq_ok h
  obtain ⟨b, ⟨-, record, hrecorded, hrecord⟩, hgoals, ⟨rest, hfound⟩, hsteps⟩ := Search.run_found
    (P := fun b => b.Sound rules.rules s.content _ (.ofQuery goal) ∧
      b.Recorded rules.rules s.content bound)
    (fun _ _ htakes hb => ⟨hb.1.leads hview hcontent hrules.sound hconstants hgoal htakes.leads,
      hb.2.takes hview hrules.sound hconstants hgoal hb.1 htakes⟩)
    (List.forall_mem_singleton.2 ⟨Branch.sound_first _ _ _ _, Branch.recorded_first _ _ _ _⟩) hrun
  rw [hgoals, hfound] at hrecorded
  have hunfolded : Unfolded rules.rules s.content bound [p.conclusion] record := by
    cases hrecorded with
    | done hunfolded => exact hunfolded
    | inside _ _ _ hnil => simp at hnil
  rw [hsteps] at hrecord
  refine ⟨record, hunfolded, hrecord, fun hnew => ?_⟩
  obtain ⟨-, hconsequences⟩ := hunfolded.mem_consequences hrules.sound
  have hover : consequences rules.rules s.content ⊆ factsOver (vocabulary rules.rules s.content ∪
      {x | x ∈ (Atom.ofQuery goal).constants}) :=
    consequences_subset_factsOver hrules.sound Set.subset_union_left
  have hdepth := hunfolded.depth_le
    (fun step hstep => withinLimit_of_mem_consequences hrules hlimit (hconsequences step hstep))
    (fun step hstep g hg heq => hnew step hstep
      (inj (hcontent hg) (hover (hconsequences step hstep)) heq ▸ hg)) p.conclusion
  refine ⟨hdepth, fun hnodup => ?_⟩
  rw [foldl_addStep_of_nodup (List.nil_append record ▸ hnodup), List.nil_append] at hrecord
  obtain ⟨conclusion, steps⟩ := p
  subst hrecord
  exact hdepth

/-- A fact that is derived in two steps at a higher level and in one step at a lower one. The proof
keeps the two steps, from which four steps are needed to the conclusion, although rules are applied
at most three levels deep. -/
theorem prove_unfolds_merged :
    let f : Fact := ⟨.named "a", "a", .named "a"⟩
    let ground (name : Text) (conditions : List Atom) (head : Atom) : Rule := {
      name, conditions := conditions.map fun atom => { atom }, actions := [.derive head] }
    let stored : Atom := ⟨.named "a", .named "a", .named "a"⟩
    let detour : Atom := ⟨.named "a", .named "a", .named "b"⟩
    let twice : Atom := ⟨.named "a", .named "b", .named "a"⟩
    let upper : Atom := ⟨.named "a", .named "b", .named "b"⟩
    let top : Atom := ⟨.named "b", .named "a", .named "a"⟩
    let rules : Rulebook := { rules := [ground "first" [stored] detour,
      ground "far" [detour] twice, ground "near" [stored] twice, ground "over" [twice] upper,
      ground "top" [twice, upper] top] }
    let goal : Query := .exact ⟨.named "b", "a", .named "a"⟩
    ∃ (s : Store) (p : Proof), s.content = {f} ∧ (s.prove {} rules 3 goal).2 = .ok p ∧
      p.depth.toOption = some 4 ∧
      ∃ record, Unfolded rules.rules s.content 3 [p.conclusion] record ∧
        p.steps = record.foldl Branch.addStep [] ∧
        ((∀ step ∈ record, step.derived ∉ s.content) →
          (∃ n ≤ 3, ({ p with steps := record } : Proof).depth = .ok n) ∧
          ((record.map ProofStep.derived).Nodup → ∃ n ≤ 3, p.depth = .ok n)) := by
  intro f ground stored detour twice upper top rules goal
  have hmade : rules.Made := Rulebook.made_of_addAll rfl (by decide)
  obtain ⟨s, hs, hf, hrun⟩ := exists_of_insert f
    (fun s => (s.proveFor 50 rules 3 goal).any fun r => r.toOption.any fun p =>
      p.depth.toOption == some 4)
    (by decide +kernel)
  obtain ⟨p, hprove, htest⟩ := exists_of_proveFor hrun {}
  have hlimit : ∀ r ∈ rules.rules, ∀ x ∈ r.constants, ∀ t ∈ x.fields, t.length ≤ fieldLimit := by
    decide +kernel
  have inj : Set.InjOn Fact.digest (factsOver {x | x ∈ [.named "a", .named "b"]}) :=
    injOn_digest_of_nodup (by decide +kernel)
  have hvocabulary : vocabulary rules.rules s.content ∪ {x | x ∈ (Atom.ofQuery goal).constants} ⊆
      {x | x ∈ [.named "a", .named "b"]} := by
    rw [hf, vocabulary_singleton]
    refine Set.union_subset ?_ ?_
    · exact show ∀ x ∈ f.values ++ rules.rules.flatMap Rule.constants, _ from by decide
    · exact show ∀ x ∈ (Atom.ofQuery goal).constants, _ from by decide
  exact ⟨s, p, hf, hprove, beq_iff_eq.1 htest,
    prove_unfolds hs.addressed hmade hlimit (inj.mono (factsOver_mono hvocabulary)) hprove⟩

end Store
end FactGraph
