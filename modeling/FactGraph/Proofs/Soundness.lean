import FactGraph.Proofs.Justification
import FactGraph.Proofs.Renaming
import FactGraph.Proofs.Resolution
import FactGraph.Proofs.Search
import FactGraph.Proofs.Store

/-!
# Goal-directed search is sound

The goals of a branch are nested: those of the conditions of a rule, the conclusion of its head, and
what is left around the goal to which the rule was applied. The facts that were found lie in the
same order (`Stacked`), and what is known about variables makes the conditions hold of them. When a
head is concluded, the facts on top are those of which all conditions hold, so that the new step
applies the rule to them (`Stacked.conclude`).

`Store.proves_of_prove` says what this comes to for a proof that is found.
-/

namespace FactGraph

open Bindings

/-! ## Goals and the facts found for them -/

/-- How goals and the facts found so far fit together, given what is known about variables and the
atom with which the search began. -/
inductive Stacked (rules : List Rule) (b : Bindings) (top : Atom) : List Goal → List Fact → Prop
  /-- The search has just begun. -/
  | start {depth : Nat} {above : List Text} : Stacked rules b top [.solve top none depth above] []
  /-- The search has come to its end. -/
  | done {f : Fact} : (∀ σ, b.Admits σ → top.StandsFor σ f) → Stacked rules b top [] [f]
  /-- A rule is applied to a goal, and facts were found for the first of its conditions. -/
  | inside {goals goals' : List Goal} {found found' premises : List Fact} {atom head : Atom}
      {guard : Option Guard} {depth depth' n : Nat} {above above' : List Text} {r : Rule}
      {before after : List Condition} :
      Stacked rules b top (.solve atom guard depth above :: goals) found →
      r ∈ rules → r.enabled = true → head ∈ r.heads →
      (∀ σ, b.Admits σ → TogetherIn σ atom (head.rename (suffixOf n))) →
      r.conditions = before ++ after →
      (∀ σ, b.Admits σ →
        List.Forall₂ (Condition.HoldsOf fun v => σ (v ++ suffixOf n)) before premises) →
      goals' = Search.conditionGoals after (suffixOf n) depth' above' ++
        .conclude (head.rename (suffixOf n)) guard r.name r.conditions.length :: goals →
      found' = premises.reverse ++ found →
      Stacked rules b top goals' found'

/-- Whether a goal concludes a head. -/
def Goal.Concludes : Goal → Prop
  | .conclude .. => True
  | .solve .. => False

namespace Stacked

variable {rules : List Rule} {b b' : Bindings} {top atom head : Atom} {guard : Option Guard}
  {depth n : Nat} {above : List Text} {goals : List Goal} {found : List Fact} {f : Fact}
  {V : Set Value}

theorem mono (h : Stacked rules b top goals found) (hbb' : ∀ σ, b'.Admits σ → b.Admits σ) :
    Stacked rules b' top goals found := by
  induction h with
  | start => exact .start
  | done hf => exact .done fun σ hσ => hf σ (hbb' σ hσ)
  | inside _ hr henabled hhead htogether hconditions hholds hgoals hfound ih =>
    exact .inside ih hr henabled hhead (fun σ hσ => htogether σ (hbb' σ hσ)) hconditions
      (fun σ hσ => hholds σ (hbb' σ hσ)) hgoals hfound

/-- The values in the atom of the next goal are those of the first atom and of rules. -/
theorem mem_constants (h : Stacked rules b top (.solve atom guard depth above :: goals) found)
    (hrules : ∀ r ∈ rules, ∀ x ∈ r.constants, x ∈ V) (htop : ∀ x ∈ top.constants, x ∈ V) :
    ∀ x ∈ atom.constants, x ∈ V := by
  cases h with
  | start => exact htop
  | @inside _ _ _ _ _ _ _ _ _ _ _ _ _ r before after _ hr _ _ _ hconditions _ hgoals _ =>
    cases after with
    | nil => simp [Search.conditionGoals] at hgoals
    | cons c after =>
      simp only [Search.conditionGoals, List.map_cons, List.cons_append, List.cons.injEq,
        Goal.solve.injEq] at hgoals
      intro x hx
      rw [hgoals.1.1, Condition.rename, Atom.constants_rename] at hx
      refine hrules r hr x (List.mem_append_left _ (List.mem_flatMap.2 ⟨c, ?_, hx⟩))
      simp [hconditions]

/-- A fact is found for the next goal. -/
theorem fill (h : Stacked rules b top (.solve atom guard depth above :: goals) found)
    (hf : ∀ σ, b.Admits σ → atom.StandsFor σ f)
    (hguard : ∀ σ, b.Admits σ → ∀ g ∈ guard, g.holds (σ g.var) = true) :
    Stacked rules b top goals (f :: found) := by
  cases h with
  | start => exact .done hf
  | @inside _ _ _ _ premises _ _ _ _ _ n _ _ r before after hparent hr henabled hhead htogether
      hconditions hholds hgoals hfound =>
    cases after with
    | nil => simp [Search.conditionGoals] at hgoals
    | cons c after =>
      simp only [Search.conditionGoals, List.map_cons, List.cons_append, List.cons.injEq,
        Goal.solve.injEq] at hgoals
      obtain ⟨⟨rfl, rfl, -, -⟩, hgoals⟩ := hgoals
      have hholds' : ∀ σ, b.Admits σ → List.Forall₂
          (Condition.HoldsOf fun v => σ (v ++ suffixOf n)) (before ++ [c]) (premises ++ [f]) := by
        intro σ hσ
        have hc : c.HoldsOf (fun v => σ (v ++ suffixOf n)) f :=
          Condition.holdsOf_rename.1 ⟨hf σ hσ, hguard σ hσ⟩
        exact List.rel_append (hholds σ hσ) (.cons hc .nil)
      exact .inside hparent hr henabled hhead htogether (by simp [hconditions]) hholds' hgoals
        (by simp [hfound])

/-- A rule is applied to the next goal. -/
theorem enter (h : Stacked rules b top (.solve atom guard depth above :: goals) found) {r : Rule}
    (hr : r ∈ rules) (henabled : r.enabled = true) (hhead : head ∈ r.heads)
    (htogether : ∀ σ, b.Admits σ → TogetherIn σ atom (head.rename (suffixOf n))) (depth' : Nat)
    (above' : List Text) :
    Stacked rules b top (Search.conditionGoals r.conditions (suffixOf n) depth' above' ++
      .conclude (head.rename (suffixOf n)) guard r.name r.conditions.length :: goals) found :=
  .inside h hr henabled hhead htogether (List.nil_append _).symm (fun _ _ => .nil) rfl rfl

/-- A head is concluded: the facts on top are premises to which the rule applies, and the head is a
fact for the goal to which it was applied. -/
theorem conclude {name : Text} {count : Nat} (hrules : ∀ r ∈ rules, r.Sound) (hb : b.WellFormed)
    (h : Stacked rules b top (.conclude head guard name count :: goals) found)
    (hf : (head.map b.resolve).instantiate? [] = some f) (hguard : b.satisfies guard = true) :
    ProofStep.AppliesTo rules (found.take count).reverse
        ⟨name, (found.take count).reverse.map Fact.digest, f⟩ ∧
      Stacked rules b top goals (f :: found.drop count) := by
  cases h with
  | @inside _ _ below _ premises atom head' _ _ _ n _ _ r before after hparent hr henabled hhead
      htogether hconditions hholds hgoals hfound =>
    cases after with
    | cons c after => simp [Search.conditionGoals] at hgoals
    | nil =>
      simp only [Search.conditionGoals, List.map_nil, List.nil_append, List.cons.injEq,
        Goal.conclude.injEq] at hgoals
      obtain ⟨⟨rfl, rfl, rfl, rfl⟩, rfl⟩ := hgoals
      rw [List.append_nil] at hconditions
      rw [← hconditions] at hholds
      have hwildcard : (head'.rename (suffixOf n)).hasWildcard = false := by
        rw [Atom.hasWildcard_rename]
        exact (hrules r hr).heads head' hhead
      have hstands : ∀ σ, b.Admits σ → (head'.rename (suffixOf n)).StandsFor σ f :=
        fun σ hσ => hσ.standsFor_of_instantiate? hb hf
      obtain ⟨σ, hσ, -⟩ := hb.exists_admits fun _ => default
      have hlength : premises.reverse.length = r.conditions.length := by
        rw [List.length_reverse, (hholds σ hσ).length_eq]
      have htake : (found.take r.conditions.length).reverse = premises := by
        rw [hfound, List.take_left' hlength, List.reverse_reverse]
      have hdrop : found.drop r.conditions.length = below := by
        rw [hfound, List.drop_left' hlength]
      rw [htake, hdrop]
      constructor
      · obtain ⟨s, hs, hagrees, hbinds⟩ :=
          Condition.unifyAll_of_holdsOf (hrules r hr).guards (hholds σ hσ)
        refine ⟨r, hr, rfl, henabled, rfl, s, hs, head', hhead, ?_⟩
        exact Atom.instantiate?_of_standsFor hagrees (Atom.standsFor_rename.1 (hstands σ hσ))
          ((hrules r hr).heads head' hhead) fun v hv =>
            hbinds v ((hrules r hr).binds head' hhead v hv)
      · exact hparent.fill (fun σ hσ => (htogether σ hσ).standsFor (hstands σ hσ) hwildcard)
          fun σ hσ => hσ.guard_of_satisfies hb hguard

/-- Where a fact was found and no head is left to be concluded, nothing is left to be done. -/
theorem concludes_or (h : Stacked rules b top goals (f :: found)) :
    (∃ g ∈ goals, g.Concludes) ∨ goals = [] ∧ found = [] := by
  cases h with
  | done => exact Or.inr ⟨rfl, rfl⟩
  | inside _ _ _ _ _ _ _ hgoals _ =>
    rw [hgoals]
    exact Or.inl ⟨_, List.mem_append_right _ (List.mem_cons_self ..), trivial⟩

end Stacked

/-! ## Branches -/

/-- What the goals of a branch keep to, whatever the facts are. -/
structure Branch.Coherent (rules : List Rule) (top : Atom) (b : Branch) : Prop where
  /-- The bindings make sense. -/
  wellFormed : b.bindings.WellFormed
  /-- Goals and facts fit together. -/
  stacked : Stacked rules b.bindings top b.goals b.found

/-- Every step of the search keeps the goals of branches coherent. -/
theorem Branch.Coherent.leads {s : Search} {b b' : Branch} {top : Atom}
    (hsound : ∀ r ∈ s.rules, r.Sound) (hleads : s.Leads b b') (h : b.Coherent s.rules top) :
    b'.Coherent s.rules top := by
  cases hleads with
  | @fact b _ atom guard depth above q l f hq hl hf hwith =>
    obtain ⟨bindings, hunify, hsatisfies, rfl⟩ := Search.withFact_eq_some.1 hwith
    have hadmits (σ : Valuation) := admits_unifyAtoms? (σ := σ) h.wellFormed hunify
    have hwf := h.wellFormed.unifyAtoms? hunify
    refine ⟨hwf, (h.stacked.mono fun σ hσ => ((hadmits σ).1 hσ).1).fill ?_ ?_⟩
    · exact fun σ hσ => togetherIn_ofFact.1 ((hadmits σ).1 hσ).2
    · exact fun σ hσ => hσ.guard_of_satisfies hwf hsatisfies
  | @rule b atom guard depth above a ha =>
    obtain ⟨hr, henabled, ⟨head, hhead, heq⟩, hunify⟩ := Search.mem_applicable.1 ha
    have hadmits (σ : Valuation) := admits_unifyAtoms? (σ := σ) h.wellFormed hunify
    refine ⟨h.wellFormed.unifyAtoms? hunify, ?_⟩
    simp only [Search.withRule, heq]
    refine (h.stacked.mono fun σ hσ => ((hadmits σ).1 hσ).1).enter hr henabled hhead ?_ _ _
    exact fun σ hσ => heq ▸ ((hadmits σ).1 hσ).2
  | @conclude b _ head guard rule premises hconclude =>
    obtain ⟨f, hf, hsatisfies, rfl⟩ := Search.conclude_eq_ok hconclude
    exact ⟨h.wellFormed, (h.stacked.conclude hsound h.wellFormed hf hsatisfies).2⟩

/-- What a branch keeps to, given the facts, values for all of them and the atom with which the
search began. -/
structure Branch.Sound (rules : List Rule) (A : Set Fact) (V : Set Value) (top : Atom)
    (b : Branch) : Prop where
  /-- The bindings make sense. -/
  wellFormed : b.bindings.WellFormed
  /-- Variables have the given values only. -/
  values : b.bindings.Over V
  /-- Goals and facts fit together. -/
  stacked : Stacked rules b.bindings top b.goals b.found
  /-- The steps are justified. -/
  justified : Justified rules A b.steps
  /-- No two steps derive one fact. -/
  nodup : (b.steps.map ProofStep.derived).Nodup
  /-- What was found is stored or derived by a step. -/
  found : ∀ f ∈ b.found, f ∈ established A b.steps
  /-- Where there are steps, some head is left to be concluded, or what was found in the end is
  derived by a step. -/
  origin : b.steps = [] ∨ (∃ g ∈ b.goals, g.Concludes) ∨
    b.goals = [] ∧ ∀ f ∈ b.found, f ∈ b.steps.map ProofStep.derived

section Steps

variable {rules : List Rule} {A : Set Fact} {V : Set Value} {steps : List ProofStep}
  {step : ProofStep} {f : Fact} {top : Atom} {s : Search} {b b' : Branch}

theorem mem_derived_addStep : f ∈ (Branch.addStep steps step).map ProofStep.derived ↔
    f = step.derived ∨ f ∈ steps.map ProofStep.derived := by
  rw [Branch.addStep]
  split
  · next h =>
    obtain ⟨t, ht, heq⟩ := List.any_eq_true.1 h
    refine ⟨Or.inr, fun hf => hf.elim ?_ id⟩
    rintro rfl
    exact beq_iff_eq.1 heq ▸ List.mem_map_of_mem ht
  · simp [or_comm]

theorem nodup_derived_addStep (h : (steps.map ProofStep.derived).Nodup) :
    ((Branch.addStep steps step).map ProofStep.derived).Nodup := by
  rw [Branch.addStep]
  split
  · exact h
  · next hnot =>
    rw [List.map_append, List.map_singleton, List.nodup_append]
    refine ⟨h, List.nodup_singleton _, fun f hf g hg => ?_⟩
    rw [List.mem_singleton.1 hg]
    rintro rfl
    obtain ⟨t, ht, heq⟩ := List.mem_map.1 hf
    exact hnot (List.any_eq_true.2 ⟨t, ht, beq_iff_eq.2 heq⟩)

theorem Justified.addStep (h : Justified rules A steps)
    (hstep : step.Applies rules (established A steps)) :
    Justified rules A (Branch.addStep steps step) := by
  rw [Branch.addStep]
  split
  · exact h
  · exact h.snoc hstep

theorem ProofStep.Applies.mono {B : Set Fact} (h : step.Applies rules A) (hAB : A ⊆ B) :
    step.Applies rules B := by
  obtain ⟨r, hr, hname, henabled, premises, hids, hpremises, hs⟩ := h
  exact ⟨r, hr, hname, henabled, premises, hids, fun g hg => hAB (hpremises g hg), hs⟩

/-- Every step of the search keeps to it. -/
theorem Branch.Sound.leads (hview : s.view.Faithful A (factsOver V)) (hA : A ⊆ factsOver V)
    (hsound : ∀ r ∈ s.rules, r.Sound) (hrules : ∀ r ∈ s.rules, ∀ x ∈ r.constants, x ∈ V)
    (htop : ∀ x ∈ top.constants, x ∈ V) (hleads : s.Leads b b')
    (h : b.Sound s.rules A V top) : b'.Sound s.rules A V top := by
  have ⟨hwellFormed, hstacked⟩ := Branch.Coherent.leads hsound hleads ⟨h.wellFormed, h.stacked⟩
  cases hleads with
  | @fact b _ atom guard depth above q l f hq hl hf hwith =>
    obtain ⟨bindings, hunify, -, rfl⟩ := Search.withFact_eq_some.1 hwith
    have hconstants := h.stacked.mem_constants hrules htop
    obtain ⟨hfA, -⟩ := hview.find q l hl (fun g hg => h.values.mem_factsOver hconstants hq hg) f hf
    refine ⟨hwellFormed, h.values.unifyAtoms? hconstants ?_ hunify, hstacked, h.justified, h.nodup,
      ?_, ?_⟩
    · exact fun x hx => hA hfA x (mem_constants_ofFact.1 hx)
    · exact List.forall_mem_cons.2 ⟨Or.inl hfA, h.found⟩
    · rcases h.origin with hnil | ⟨g, hg, hconcludes⟩ | ⟨hnil, -⟩
      · exact Or.inl hnil
      · rcases List.mem_cons.1 hg with rfl | hg
        · exact hconcludes.elim
        · exact Or.inr (Or.inl ⟨g, hg, hconcludes⟩)
      · cases hnil
  | @rule b atom guard depth above a ha =>
    obtain ⟨hr, -, ⟨head, hhead, heq⟩, hunify⟩ := Search.mem_applicable.1 ha
    have hconstants := h.stacked.mem_constants hrules htop
    refine ⟨hwellFormed, h.values.unifyAtoms? hconstants ?_ hunify, hstacked, h.justified, h.nodup,
      h.found, Or.inr (Or.inl ⟨_, List.mem_append_right _ (List.mem_cons_self ..), trivial⟩)⟩
    intro x hx
    rw [heq, Atom.constants_rename] at hx
    exact hrules _ hr x (List.mem_append_right _ (List.mem_flatMap.2 ⟨head, hhead, hx⟩))
  | @conclude b _ head guard rule premises hconclude =>
    obtain ⟨f, hf, hsatisfies, rfl⟩ := Search.conclude_eq_ok hconclude
    have hstep := (h.stacked.conclude hsound h.wellFormed hf hsatisfies).1
    have hpremises : ∀ g ∈ (b.found.take premises).reverse, g ∈ established A b.steps :=
      fun g hg => h.found g (List.mem_of_mem_take (List.mem_reverse.1 hg))
    refine ⟨hwellFormed, h.values, hstacked, h.justified.addStep (hstep.applies hpremises),
      nodup_derived_addStep h.nodup, ?_, ?_⟩
    · refine List.forall_mem_cons.2 ⟨Or.inr (mem_derived_addStep.2 (Or.inl rfl)), fun g hg => ?_⟩
      exact (h.found g (List.mem_of_mem_drop hg)).imp id fun hg =>
        mem_derived_addStep.2 (Or.inr hg)
    · rcases hstacked.concludes_or with hconcludes | ⟨hgoals, hdrop⟩
      · exact Or.inr (Or.inl hconcludes)
      · refine Or.inr (Or.inr ⟨hgoals, fun g hg => ?_⟩)
        simp only [hdrop, List.mem_singleton] at hg
        exact mem_derived_addStep.2 (Or.inl hg)

/-- What the branch with which a search begins keeps to. -/
theorem Branch.sound_first (rules : List Rule) (A : Set Fact) (V : Set Value) (top : Atom) :
    Branch.Sound rules A V top { goals := [.solve top none 0 []] } where
  wellFormed := wellFormed_empty
  values := by simp [Over]
  stacked := .start
  justified := .nil
  nodup := List.nodup_nil
  found := by simp
  origin := Or.inl rfl

end Steps

/-! ## Proofs -/

/-- Whether a proof proves a goal from given facts: its steps are justified and derive different
facts, and its conclusion is what was asked for. -/
structure Proof.Proves (rules : List Rule) (A : Set Fact) (goal : Query) (p : Proof) : Prop where
  /-- The conclusion is what was asked for. -/
  accepts : goal.accepts p.conclusion = true
  /-- The steps are justified. -/
  justified : Justified rules A p.steps
  /-- No two steps derive one fact. -/
  nodup : (p.steps.map ProofStep.derived).Nodup
  /-- A step derives the conclusion, or there are no steps and it is given. -/
  conclusion : p.steps = [] ∧ p.conclusion ∈ A ∨ p.conclusion ∈ p.steps.map ProofStep.derived

namespace Store

variable {s : Store} {c : Counters} {rules : Rulebook} {bound : Nat} {goal : Query} {p : Proof}

/-- What a search finds is a proof of the goal. -/
theorem prove_proves {A : Set Fact} {V : Set Value} (hview : s.view.Faithful A (factsOver V))
    (hA : A ⊆ factsOver V) (hrules : rules.Made) (hV : ∀ r ∈ rules.rules, ∀ x ∈ r.constants, x ∈ V)
    (hgoal : ∀ x ∈ (Atom.ofQuery goal).constants, x ∈ V)
    (h : (s.prove c rules bound goal).2 = .ok p) : p.Proves rules.rules A goal := by
  obtain ⟨t, hrun⟩ := prove_eq_ok h
  obtain ⟨b, hb, hgoals, ⟨rest, hfound⟩, hsteps⟩ := Search.run_found
    (P := Branch.Sound rules.rules A V (.ofQuery goal))
    (fun _ _ htakes hb => hb.leads hview hA hrules.sound hV hgoal htakes.leads)
    (by simpa using Branch.sound_first rules.rules A V (.ofQuery goal)) hrun
  have hmem : p.conclusion ∈ b.found := by simp [hfound]
  refine ⟨?_, hsteps ▸ hb.justified, hsteps ▸ hb.nodup, ?_⟩
  · have hstacked := hb.stacked
    rw [hgoals, hfound] at hstacked
    obtain ⟨σ, hσ, -⟩ := hb.wellFormed.exists_admits fun _ => default
    cases hstacked with
    | done hf => exact Atom.standsFor_ofQuery.1 (hf σ hσ)
    | inside _ _ _ _ _ _ _ hnil _ => simp at hnil
  · rw [← hsteps]
    rcases hb.origin with hnil | ⟨g, hg, -⟩ | ⟨-, hderived⟩
    · have hestablished := hb.found _ hmem
      rw [hnil] at hestablished
      exact Or.inl ⟨hnil, hestablished.resolve_right (by simp)⟩
    · rw [hgoals] at hg
      cases hg
    · exact Or.inr (hderived _ hmem)

/-- What is proved in a store is proved from the stored facts, even if the index misses some. -/
theorem proves_of_prove (hs : s.storage.Addressed) (hrules : rules.Made)
    (inj : Set.InjOn Fact.digest (factsOver
      (vocabulary rules.rules s.content ∪ {x | x ∈ (Atom.ofQuery goal).constants})))
    (h : (s.prove c rules bound goal).2 = .ok p) : p.Proves rules.rules s.content goal := by
  refine prove_proves (faithful_view hs inj (subset_factsOver Set.subset_union_left))
    (subset_factsOver Set.subset_union_left) hrules
    (fun r hr x hx => Or.inl (Or.inr ⟨r, hr, hx⟩)) (fun x hx => Or.inr hx) h

end Store

end FactGraph
