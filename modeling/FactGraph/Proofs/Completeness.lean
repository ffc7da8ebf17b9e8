import FactGraph.Proofs.Soundness

/-!
# Goal-directed search is complete

A derivation of a fact shows the search the way to it. For a goal whose atom stands for the fact
under some valuation that a branch admits, the branch leads to one in which the fact is found, and
in which all that was known before is known still (`Search.Solves`). A stored fact is found at once;
a derived one by the rule that derives it, whose variables are new and can be given the values that
they have in the derivation.

A step may also run into an error, so that a search that comes to its end without a proof and
without an error has left no way untried (`Search.finds_of_mem_consequences`).
-/

namespace FactGraph

open Bindings

variable {s : Search} {b b' b'' : Branch} {σ σ' σ'' : Valuation} {atom head : Atom}
  {guard : Option Guard} {depth n : Nat} {above : List Text} {f : Fact} {facts facts' : List Fact}

/-! ## Branches and valuations -/

/-- Whether a branch admits a valuation, and goes on to admit it if the variables are changed that
later applications of rules will bring in. -/
structure Branch.Ready (b : Branch) (σ : Valuation) : Prop where
  /-- The bindings make sense. -/
  wellFormed : b.bindings.WellFormed
  /-- Nothing is known about the variables of later applications. -/
  older : ∀ τ υ, AgreeBefore b.applied τ υ → b.bindings.Admits τ → b.bindings.Admits υ
  /-- The valuation is admitted. -/
  admits : b.bindings.Admits σ

/-- Whether a branch is one in which some facts were found in addition, and which admits a valuation
that agrees with a given one on the variables that there were. -/
structure Branch.Extends (b : Branch) (σ : Valuation) (facts : List Fact) (b' : Branch)
    (σ' : Valuation) : Prop where
  /-- The goals are the same. -/
  goals : b'.goals = b.goals
  /-- The facts were found in addition. -/
  found : b'.found = facts ++ b.found
  /-- Rules may have been applied. -/
  applied : b.applied ≤ b'.applied
  /-- What was known is known still. -/
  admits : ∀ τ, b'.bindings.Admits τ → b.bindings.Admits τ
  /-- The variables that there were have the same values. -/
  agree : AgreeBefore b.applied σ σ'

/-- Whether a fact fits a goal: the atom stands for it, the guard holds, the variables are old, and
that of the guard has a value at the latest when the fact is found. -/
structure Branch.Fits (b : Branch) (σ : Valuation) (atom : Atom) (guard : Option Guard) (f : Fact) :
    Prop where
  /-- The atom stands for the fact. -/
  standsFor : atom.StandsFor σ f
  /-- The variables of the atom are old. -/
  older : ∀ v, .var v ∈ atom.terms → Older b.applied v
  /-- The guard holds of a variable of the atom or of one that has a value already. -/
  guard : ∀ g ∈ guard, g.holds (σ g.var) = true ∧ Older b.applied g.var ∧
    (.var g.var ∈ atom.terms ∨ b.bindings.Fixed g.var)

theorem Branch.eq_of_goals {goals : List Goal} (h : b.goals = goals) : b = { b with goals } := by
  rw [← h]

/-- A branch in which atoms are unified that agree under the valuation still admits it. -/
theorem Branch.Ready.unifyAtoms? {atom' : Atom} (h : b.Ready σ)
    (hunify : b.bindings.unifyAtoms? atom atom' = some b'.bindings)
    (htogether : TogetherIn σ atom atom') (happlied : b.applied ≤ b'.applied)
    (holder : ∀ v, .var v ∈ atom.terms → Older b'.applied v)
    (holder' : ∀ v, .var v ∈ atom'.terms → Older b'.applied v) : b'.Ready σ where
  wellFormed := h.wellFormed.unifyAtoms? hunify
  older := fun τ υ hagree hτ => by
    obtain ⟨hadmits, htogether⟩ := (admits_unifyAtoms? h.wellFormed hunify).1 hτ
    exact (admits_unifyAtoms? h.wellFormed hunify).2 ⟨h.older τ υ (hagree.mono happlied) hadmits,
      htogether.congr (fun v hv => hagree v (holder v hv)) fun v hv => hagree v (holder' v hv)⟩
  admits := (admits_unifyAtoms? h.wellFormed hunify).2 ⟨h.admits, htogether⟩

theorem Branch.Extends.trans (h : b.Extends σ facts b' σ') (h' : b'.Extends σ' facts' b'' σ'') :
    b.Extends σ (facts' ++ facts) b'' σ'' where
  goals := h'.goals.trans h.goals
  found := by rw [h'.found, h.found, List.append_assoc]
  applied := h.applied.trans h'.applied
  admits := fun τ hτ => h.admits τ (h'.admits τ hτ)
  agree := h.agree.trans (h'.agree.mono h.applied)

/-- Where a fact that fits is found, the guard is satisfied. -/
theorem Branch.Fits.satisfies (hfits : b.Fits σ atom guard f) (hready : b'.Ready σ')
    (hadmits : ∀ τ, b'.bindings.Admits τ → b.bindings.Admits τ)
    (hagree : AgreeBefore b.applied σ σ')
    (hfound : ∀ τ, b'.bindings.Admits τ → atom.StandsFor τ f) :
    b'.bindings.satisfies guard = true := by
  refine satisfies_of_fixed hready.wellFormed hready.admits fun g hg => ?_
  obtain ⟨hholds, holder, hfixed⟩ := hfits.guard g hg
  refine ⟨?_, hagree _ holder ▸ hholds⟩
  rcases hfixed with hv | hfixed
  · exact fixed_of_standsFor hfound hv
  · exact hfixed.mono hadmits

namespace Search

/-- Whether the search finds its way to a fact from every goal that it fits, provided that it finds
its way on from there. -/
def Solves (s : Search) (f : Fact) : Prop :=
  ∀ (b : Branch) (σ : Valuation) (atom : Atom) (guard : Option Guard) (depth : Nat)
    (above : List Text), b.Ready σ → b.Fits σ atom guard f →
    (∀ b' σ', b'.Ready σ' → b.Extends σ [f] b' σ' →
      (∀ τ, b'.bindings.Admits τ → atom.StandsFor τ f) → s.Finds b') →
    s.Finds { b with goals := .solve atom guard depth above :: b.goals }

/-! ## Stored facts -/

/-- A fact that fits a goal can be taken for it. Then the atom is known to stand for the fact, and
nothing else in addition. -/
theorem exists_withFact (hready : b.Ready σ) (hfits : b.Fits σ atom guard f) :
    ∃ bindings, b.bindings.unifyAtoms? atom (.ofFact f) = some bindings ∧
      b.withFact atom guard f = some { b with bindings, found := f :: b.found } ∧
      Branch.Ready { b with bindings, found := f :: b.found } σ ∧
      ∀ τ, bindings.Admits τ ↔ b.bindings.Admits τ ∧ atom.StandsFor τ f := by
  have htogether := togetherIn_ofFact.2 hfits.standsFor
  obtain ⟨bindings, hunify⟩ := Option.isSome_iff_exists.1
    (unifyAtoms?_isSome hready.wellFormed hready.admits htogether)
  have hready' : Branch.Ready { b with bindings, found := f :: b.found } σ :=
    hready.unifyAtoms? hunify htogether Nat.le.refl hfits.older (by simp [Atom.ofFact, Atom.terms,
      Term.named])
  have hadmits (τ : Valuation) :
      bindings.Admits τ ↔ b.bindings.Admits τ ∧ atom.StandsFor τ f := by
    rw [admits_unifyAtoms? hready.wellFormed hunify, togetherIn_ofFact]
  refine ⟨bindings, hunify, withFact_eq_some.2 ⟨bindings, hunify, ?_, rfl⟩, hready', hadmits⟩
  exact hfits.satisfies hready' (fun τ hτ => ((hadmits τ).1 hτ).1) (.refl _ σ)
    fun τ hτ => ((hadmits τ).1 hτ).2

/-- A stored fact is found at once. -/
theorem solves_of_mem {A : Set Fact} (hview : s.view.Exhaustive A) (hf : f ∈ A) :
    s.Solves f := by
  intro b σ atom guard depth above hready hfits hnext
  obtain ⟨q, hq, haccepts⟩ := hready.admits.exists_query? hready.wellFormed hfits.standsFor
  cases hl : s.view.find q with
  | error e => exact .failed (.find guard depth above hq hl)
  | ok l =>
    obtain ⟨bindings, -, hwith, hready', hadmits⟩ := exists_withFact hready hfits
    exact .step (.fact depth above hq hl (hview.mem_find q l hl f hf haccepts) hwith)
      (hnext _ σ hready' ⟨rfl, rfl, Nat.le.refl, fun τ hτ => ((hadmits τ).1 hτ).1, .refl _ σ⟩
        fun τ hτ => ((hadmits τ).1 hτ).2)

/-! ## Conditions of rules -/

/-- A fact of which a condition holds fits the goal that the condition becomes, if its guard is on
one of its own variables or on one that has a value already. -/
theorem fits_condition {c : Condition} {bound : List Text} (hn : n < b.applied)
    (hc : c.HoldsOf (fun v => σ (v ++ suffixOf n)) f)
    (hguard : ∀ g ∈ c.guard, g.var ∈ bound ++ c.atom.varNames)
    (hbound : ∀ v ∈ bound, b.bindings.Fixed (v ++ suffixOf n)) :
    b.Fits σ (c.rename (suffixOf n)).atom (c.rename (suffixOf n)).guard f := by
  rw [← Condition.holdsOf_rename] at hc
  refine ⟨hc.1, fun v hv => (Atom.older_rename hv).mono hn, fun g hg => ⟨hc.2 g hg, ?_⟩⟩
  obtain ⟨g', hg', rfl⟩ := Option.map_eq_some_iff.1 hg
  refine ⟨(older_renamed _ n).mono hn, ?_⟩
  rcases List.mem_append.1 (hguard g' hg') with hv | hv
  · exact Or.inr (hbound _ hv)
  · exact Or.inl (Atom.mem_terms_rename.2 ⟨_, Atom.mem_varNames.1 hv, rfl⟩)

/-- Facts of which conditions hold are found for them, one after the other. -/
theorem finds_conditions {conditions : List Condition} {bound : List Text}
    (hsolves : ∀ g ∈ facts, s.Solves g) (hguards : Condition.GuardsBound bound conditions)
    (hn : n < b.applied) (hready : b.Ready σ)
    (hmatch : List.Forall₂ (Condition.HoldsOf fun v => σ (v ++ suffixOf n)) conditions facts)
    (hbound : ∀ v ∈ bound, b.bindings.Fixed (v ++ suffixOf n))
    (hnext : ∀ b' σ', b'.Ready σ' → b.Extends σ facts.reverse b' σ' →
      (∀ v ∈ bound ++ Rule.boundVariables conditions, b'.bindings.Fixed (v ++ suffixOf n)) →
      s.Finds b') :
    s.Finds { b with goals := conditionGoals conditions (suffixOf n) depth above ++ b.goals } := by
  induction conditions generalizing facts bound b σ with
  | nil =>
    cases hmatch
    refine hnext b σ hready ⟨rfl, rfl, Nat.le.refl, fun _ hτ => hτ, .refl _ σ⟩ ?_
    simpa [Rule.boundVariables] using hbound
  | cons c conditions ih =>
    cases hmatch with
    | @cons _ f _ facts hc hmatch =>
    rw [List.forall_mem_cons] at hsolves
    obtain ⟨hguard, hguards⟩ := hguards
    -- The variables of the rule are old now.
    have holder (v : Text) : Older b.applied (v ++ suffixOf n) := (older_renamed v n).mono hn
    refine hsolves.1
      { b with goals := conditionGoals conditions (suffixOf n) depth above ++ b.goals } σ _ _ depth
      above ⟨hready.wellFormed, hready.older, hready.admits⟩ (fits_condition hn hc hguard hbound) ?_
    intro b₁ σ₁ hready₁ hext hstands
    have hext₁ : b.Extends σ [f] { b₁ with goals := b.goals } σ₁ :=
      ⟨rfl, hext.found, hext.applied, hext.admits, hext.agree⟩
    have hvalues : (fun v => σ₁ (v ++ suffixOf n)) = fun v => σ (v ++ suffixOf n) :=
      funext fun v => (hext.agree _ (holder v)).symm
    have hbound₁ : ∀ v ∈ bound ++ c.atom.varNames, b₁.bindings.Fixed (v ++ suffixOf n) := by
      intro v hv
      rcases List.mem_append.1 hv with hv | hv
      · exact (hbound v hv).mono hext.admits
      · exact fixed_of_standsFor hstands
          (Atom.mem_terms_rename.2 ⟨v, Atom.mem_varNames.1 hv, rfl⟩)
    have hfinds := ih hsolves.2 hguards (Nat.lt_of_lt_of_le hn hext₁.applied)
      ⟨hready₁.wellFormed, hready₁.older, hready₁.admits⟩ (hvalues ▸ hmatch) hbound₁ ?_
    · rw [Branch.eq_of_goals hext.goals]
      exact hfinds
    · intro b₂ σ₂ hready₂ hext₂ hbound₂
      refine hnext b₂ σ₂ hready₂ ?_ ?_
      · rw [List.reverse_cons]
        exact hext₁.trans hext₂
      · simpa [Rule.boundVariables, or_assoc] using hbound₂

/-! ## Derived facts -/

/-- The variables of a new application can be given any values. -/
theorem exists_ready (hready : b.Ready σ) (ρ : Valuation) : ∃ υ, b.Ready υ ∧
    AgreeBefore b.applied σ υ ∧ (fun v => υ (v ++ suffixOf b.applied)) = ρ := by
  obtain ⟨υ, hagree, hvalues⟩ := Valuation.exists_renamed σ ρ b.applied
  exact ⟨υ, ⟨hready.wellFormed, hready.older, hready.older σ υ hagree hready.admits⟩, hagree,
    funext hvalues⟩

/-- A rule that derives a fact which fits a goal can be applied to the goal, where its variables are
given the values that they have in the derivation. -/
theorem exists_application {r : Rule} {ρ : Valuation} (hr : r ∈ s.rules)
    (henabled : r.enabled = true) (hhead : head ∈ r.heads) (hf : head.StandsFor ρ f)
    (hready : b.Ready σ) (hfits : b.Fits σ atom guard f) :
    ∃ bindings υ, b.bindings.unifyAtoms? atom (head.rename (suffixOf b.applied)) = some bindings ∧
      ⟨r, head.rename (suffixOf b.applied), bindings⟩ ∈ s.applicable b atom ∧
      (∀ goals, Branch.Ready { b with goals, bindings, applied := b.applied + 1 } υ) ∧
      AgreeBefore b.applied σ υ ∧ (fun v => υ (v ++ suffixOf b.applied)) = ρ := by
  obtain ⟨υ, hready', hagree, hρ⟩ := exists_ready hready ρ
  have hatom : atom.StandsFor υ f :=
    hfits.standsFor.congr fun v hv => hagree v (hfits.older v hv)
  have htogether := togetherIn_of_standsFor hatom (Atom.standsFor_rename.2 (hρ.symm ▸ hf))
  obtain ⟨bindings, hunify⟩ := Option.isSome_iff_exists.1
    (unifyAtoms?_isSome hready'.wellFormed hready'.admits htogether)
  refine ⟨bindings, υ, hunify, mem_applicable.2 ⟨hr, henabled, ⟨head, hhead, rfl⟩, hunify⟩,
    fun goals => ?_, hagree, hρ⟩
  exact hready'.unifyAtoms? hunify htogether (Nat.le_succ _)
    (fun v hv => (hfits.older v hv).mono (Nat.le_succ _)) fun v hv => Atom.older_rename hv

/-- Once the variables of the conditions have values, the head has become a fact. -/
theorem instantiate?_head {r : Rule} (hr : r.Sound) (hhead : head ∈ r.heads) (hready : b.Ready σ)
    (hf : (head.rename (suffixOf n)).StandsFor σ f)
    (hfixed : ∀ v ∈ Rule.boundVariables r.conditions, b.bindings.Fixed (v ++ suffixOf n)) :
    ((head.rename (suffixOf n)).map b.bindings.resolve).instantiate? [] = some f := by
  refine instantiate?_of_fixed hready.wellFormed hready.admits ?_ (fun v hv => ?_) hf
  · rw [Atom.hasWildcard_rename, hr.heads head hhead]
  · obtain ⟨w, hw, rfl⟩ := Atom.mem_terms_rename.1 hv
    exact hfixed w (hr.binds head hhead w hw)

/-- A head that is a fact is concluded, or a premise has no digest. -/
theorem finds_conclude {name : Text} {count : Nat}
    (hf : (head.map b.bindings.resolve).instantiate? [] = some f)
    (hguard : b.bindings.satisfies guard = true) (hcount : count ≤ b.found.length)
    (hnext : ∀ steps, s.Finds { b with found := f :: b.found.drop count, steps }) :
    s.Finds { b with goals := .conclude head guard name count :: b.goals } := by
  have hconclude := conclude_eq name hf hguard hcount
  cases hids : (b.found.take count).reverse.mapM Fact.id with
  | error e =>
    rw [hids] at hconclude
    exact .failed (.conclude hconclude)
  | ok ids =>
    rw [hids] at hconclude
    exact .step (.conclude hconclude) (hnext _)

/-- What a rule derives is found by applying the rule, if its premises are found. -/
theorem solves_of_follows (hsound : ∀ r ∈ s.rules, r.Sound)
    (h : Follows s.rules {g | s.Solves g} f) : s.Solves f := by
  obtain ⟨r, hr, henabled, ρ, premises, hmatch, hpremises, head, hhead, hwildcard, hf⟩ := h
  intro b σ atom guard depth above hready hfits hnext
  obtain ⟨bindings, υ, hunify, happlicable, hready₁, hagree, hρ⟩ :=
    exists_application hr henabled hhead hf hready hfits
  have hhead' : (head.rename (suffixOf b.applied)).StandsFor υ f :=
    Atom.standsFor_rename.2 (hρ.symm ▸ hf)
  refine .step (.rule guard depth above happlicable) (finds_conditions hpremises
    (hsound r hr).guards (Nat.lt_succ_self _) (hready₁ _) (hρ.symm ▸ hmatch) (by simp) ?_)
  intro b₂ σ₂ hready₂ hext hfixed
  -- All premises were found. What is known now makes the atom stand for the fact.
  have hinstantiate := instantiate?_head (hsound r hr) hhead hready₂
    (hhead'.congr fun v hv => hext.agree v (Atom.older_rename hv)) hfixed
  have hadmits (τ : Valuation) (hτ : b₂.bindings.Admits τ) :
      b.bindings.Admits τ ∧ TogetherIn τ atom (head.rename (suffixOf b.applied)) :=
    (admits_unifyAtoms? hready.wellFormed hunify).1 (hext.admits τ hτ)
  have hstands (τ : Valuation) (hτ : b₂.bindings.Admits τ) : atom.StandsFor τ f :=
    (hadmits τ hτ).2.standsFor (hτ.standsFor_of_instantiate? hready₂.wellFormed hinstantiate)
      (by rw [Atom.hasWildcard_rename, hwildcard])
  have hagree₂ : AgreeBefore b.applied σ σ₂ := hagree.trans (hext.agree.mono (Nat.le_succ _))
  have hsatisfies :=
    hfits.satisfies hready₂ (fun τ hτ => (hadmits τ hτ).1) hagree₂ hstands
  have hfound : b₂.found = premises.reverse ++ b.found := hext.found
  have hcount : premises.reverse.length = r.conditions.length := by
    rw [List.length_reverse, hmatch.length_eq]
  rw [Branch.eq_of_goals hext.goals]
  refine finds_conclude (b := { b₂ with goals := b.goals }) hinstantiate hsatisfies ?_
    fun steps => ?_
  · simp [hfound, hmatch.length_eq]
  · refine hnext _ σ₂ ⟨hready₂.wellFormed, hready₂.older, hready₂.admits⟩ ?_ hstands
    refine ⟨rfl, ?_, (Nat.le_succ _).trans hext.applied, fun τ hτ => (hadmits τ hτ).1, hagree₂⟩
    simp only [hfound, List.drop_left' hcount, List.singleton_append]

/-! ## Consequences -/

theorem solves_of_mem_consequences {A : Set Fact} (hview : s.view.Exhaustive A)
    (hsound : ∀ r ∈ s.rules, r.Sound) (hf : f ∈ consequences s.rules A) : s.Solves f :=
  consequences_induction (fun _ hg => solves_of_mem hview hg)
    (fun _ hg => solves_of_follows hsound (hg.mono fun _ h => h.2)) hf

/-- The search finds its way to every consequence that a goal accepts, or runs into an error. -/
theorem finds_of_mem_consequences {A : Set Fact} (hview : s.view.Exhaustive A)
    (hsound : ∀ r ∈ s.rules, r.Sound) {goal : Query} (hf : f ∈ consequences s.rules A)
    (haccepts : goal.accepts f = true) :
    s.Finds { goals := [.solve (.ofQuery goal) none 0 []] } := by
  have hsolves := solves_of_mem_consequences hview hsound hf
  refine hsolves { goals := [] } (fun _ => default) (.ofQuery goal) none 0 [] ?_ ?_ ?_
  · exact ⟨wellFormed_empty, fun τ υ _ _ => admits_empty υ, admits_empty _⟩
  · exact ⟨Atom.standsFor_ofQuery.2 haccepts, fun v hv => absurd hv Atom.not_var_mem_ofQuery,
      by simp⟩
  · intro b' σ' _ hext _
    exact .found hext.goals (by simp [hext.found])

end Search

/-! ## Proving -/

namespace Store

variable {s : Store} {rules : Rulebook}

/-- Where digests tell facts apart, a proof that is found derives nothing but consequences of the
stored facts, and its conclusion is what was asked for. If no proof is found because a precondition
is missing, no consequence is what was asked for. -/
theorem prove_correct (hs : s.Coherent) (hrules : rules.Made) (c : Counters) (bound : Nat)
    (goal : Query) :
    (Set.InjOn Fact.digest (factsOver
        (vocabulary rules.rules s.content ∪ {x | x ∈ (Atom.ofQuery goal).constants})) →
      ∀ p, (s.prove c rules bound goal).2 = .ok p → goal.accepts p.conclusion = true ∧
        p.conclusion ∈ consequences rules.rules s.content ∧
          ∀ step ∈ p.steps, step.derived ∈ consequences rules.rules s.content) ∧
    ∀ e, (s.prove c rules bound goal).2 = .error (.logic e) → e.kind = .missingPrecondition →
      ∀ f ∈ consequences rules.rules s.content, goal.accepts f = false := by
  refine ⟨fun inj p hp => ?_, fun e he hkind f hf => ?_⟩
  · have hproves := proves_of_prove hs.addressed hrules inj hp
    have hmem {f : Fact} (hf : f ∈ established s.content p.steps) :
        f ∈ consequences rules.rules s.content :=
      hproves.justified.mem_consequences hrules.sound hf
    exact ⟨hproves.accepts, hmem (hproves.conclusion.imp And.right id),
      fun step hstep => hmem (Or.inr (List.mem_map_of_mem hstep))⟩
  · obtain ⟨t, hrun, hdepth, hloop⟩ := prove_eq_error he hkind
    obtain ⟨-, -, hfinds⟩ := Search.run_none hrun hdepth hloop
    rw [← Bool.not_eq_true]
    intro haccepts
    exact hfinds _ (List.mem_singleton_self _)
      (Search.finds_of_mem_consequences hs.exhaustive_view hrules.sound hf haccepts)

/-- A rule that turns facts around proves one thing and misses a precondition for another one. -/
theorem prove_correct_turn :
    let f : Fact := ⟨.named "a", "b", .named "b"⟩
    let turn : Rule := {
      name := "turn"
      conditions := [{ atom := ⟨.var "x", .named "b", .var "y"⟩ }]
      actions := [.derive ⟨.var "y", .named "a", .var "x"⟩] }
    let rules : Rulebook := { rules := [turn] }
    let goal : Query := { subject := some (.named "b"), predicate := some "a" }
    let other : Query := { subject := some (.named "a"), predicate := some "a" }
    ∃ (s : Store) (p : Proof) (e : LogicError), s.content = {f} ∧
      ((s.prove {} rules 1 goal).2 = .ok p ∧ p.conclusion = ⟨.named "b", "a", .named "a"⟩ ∧
        p.conclusion ∈ consequences rules.rules s.content) ∧
      (s.prove {} rules 1 other).2 = .error (.logic e) ∧ e.kind = .missingPrecondition ∧
        ∀ g ∈ consequences rules.rules s.content, other.accepts g = false := by
  intro f turn rules goal other
  have hmade : rules.Made := Rulebook.made_of_addAll rfl (by decide)
  obtain ⟨s, hs, hf, hrun⟩ := exists_of_insert f
    (fun s => ((s.proveFor 50 rules 1 goal).any fun r => r.toOption.any fun p =>
        p.conclusion == ⟨.named "b", "a", .named "a"⟩) &&
      s.proveFor 50 rules 1 other == some (.error (.logic (.notEstablished other))))
    (by decide +kernel)
  rw [Bool.and_eq_true, beq_iff_eq] at hrun
  obtain ⟨hok, hmissing⟩ := hrun
  have herror := prove_of_proveFor hmissing {}
  obtain ⟨p, hprove, hconclusion⟩ := exists_of_proveFor hok {}
  rw [beq_iff_eq] at hconclusion
  have inj : Set.InjOn Fact.digest (factsOver {x | x ∈ [.named "a", .named "b"]}) :=
    injOn_digest_of_nodup (by decide +kernel)
  have hvocabulary : vocabulary rules.rules s.content ∪ {x | x ∈ (Atom.ofQuery goal).constants} ⊆
      {x | x ∈ [.named "a", .named "b"]} := by
    rw [hf, vocabulary_singleton]
    refine Set.union_subset ?_ ?_
    · exact show ∀ x ∈ f.values ++ rules.rules.flatMap Rule.constants, _ from by decide
    · exact show ∀ x ∈ (Atom.ofQuery goal).constants, _ from by decide
  obtain ⟨hproved, -⟩ := prove_correct hs hmade {} 1 goal
  obtain ⟨-, hunproved⟩ := prove_correct hs hmade {} 1 other
  have hproved := hproved (inj.mono (factsOver_mono hvocabulary))
  exact ⟨s, p, _, hf, ⟨hprove, hconclusion, (hproved p hprove).2.1⟩, herror, rfl,
    hunproved _ herror rfl⟩

end Store

end FactGraph
