import FactGraph.Proofs.Matching
import FactGraph.Proofs.Soundness

/-!
# Rules without faults can be evaluated

A rule without faults uses no variable that its conditions do not bind. So wherever the rule is
evaluated, the variables have values when they are needed. A match of the conditions, partial or
complete, has a value for the variable of every guard that is tested on it, and a complete match one
for every variable of every action (`Rule.Evaluates`): no guard fails for want of a value, and a
head fails to become a fact only if a value stands where it cannot.

In a search, the variable of a guard may have been identified with variables of other rules, which
get values later. But a guard is tested only when there is a fact for its goal, and by then there
are facts for the conditions in front of it; so the variable has one value under all valuations that
the bindings admit (`Stacked.fixed`), and the bindings know it.
-/

namespace FactGraph

open Bindings

/-! ## Variables of rules without faults -/

namespace Rule

variable {r : Rule} {bound : List Text} {v : Text}

theorem binds_of_actionFaults {a : Action} {index : Nat} (h : actionFaults bound a index = [])
    (hv : .var v ∈ a.atom.terms) : v ∈ bound := by
  have hfilter {fault : Text → RuleFault} {names : List Text}
      (h : (names.filter fun v => !bound.contains v).map fault = []) (hv : v ∈ names) :
      v ∈ bound := by
    rw [List.map_eq_nil_iff, List.filter_eq_nil_iff] at h
    simpa using h v hv
  cases a with
  | reject reason => simp [Action.atom, Atom.any, Atom.terms] at hv
  | derive head =>
    simp only [actionFaults, List.append_eq_nil_iff] at h
    exact hfilter h.2 (Atom.mem_varNames.2 hv)
  | require atom =>
    simp only [actionFaults, List.append_eq_nil_iff] at h
    exact hfilter h.2 (Atom.mem_varNames.2 hv)

/-- Conditions bind the variables of actions. -/
theorem binds_of_faults (h : r.faults = []) {a : Action} (ha : a ∈ r.actions)
    (hv : .var v ∈ a.atom.terms) : v ∈ boundVariables r.conditions := by
  simp only [faults, List.append_eq_nil_iff, List.flatMap_eq_nil_iff] at h
  obtain ⟨i, hi, heq⟩ := List.getElem_of_mem ha
  have hz : (a, i) ∈ r.actions.zipIdx := by
    rw [List.mem_zipIdx_iff_getElem?, List.getElem?_eq_getElem hi, heq]
  exact binds_of_actionFaults (h.2 _ hz) hv

end Rule

namespace Condition

variable {c : Condition} {before after conditions : List Condition} {bound : List Text}

/-- The variable of a guard is bound before, in front of its condition or by it. -/
theorem GuardsBound.split (h : GuardsBound bound (before ++ c :: after)) :
    ∀ g ∈ c.guard, g.var ∈ bound ∨ g.var ∈ Rule.boundVariables before ∨
      .var g.var ∈ c.atom.terms := by
  induction before generalizing bound with
  | nil =>
    intro g hg
    rcases List.mem_append.1 (h.1 g hg) with hv | hv
    · exact .inl hv
    · exact .inr (.inr (Atom.mem_varNames.1 hv))
  | cons c' before ih =>
    intro g hg
    rw [Rule.boundVariables, List.flatMap_cons, List.mem_append]
    rcases ih h.2 g hg with hv | hv | hv
    · exact (List.mem_append.1 hv).imp_right fun hv => .inl (.inl hv)
    · exact .inr (.inl (.inr hv))
    · exact .inr (.inr hv)

/-! ## Matches -/

variable {view : View} {s s' : Substitution} {m m' : Match} {found out : List Match} {v : Text}

theorem exists_extendBy_of_mem_extend (h : c.extend view m = .ok out) (hm' : m' ∈ out) :
    ∃ f, c.extendBy m f = some m' := by
  rw [extend] at h
  split at h
  · cases h
    cases hm'
  · obtain ⟨l, -, h⟩ := bind_eq_ok.1 h
    rw [← pure_eq_ok.1 h, List.mem_filterMap] at hm'
    obtain ⟨f, -, hf⟩ := hm'
    exact ⟨f, hf⟩

/-- Whatever a view answers, a match that was extended by conditions has facts for them. -/
theorem exists_unifyEach_of_mem_join (h : join view conditions found = .ok out) (hm' : m' ∈ out) :
    ∃ m ∈ found, ∃ facts, unifyEach conditions facts m.bindings = some m'.bindings := by
  induction conditions generalizing found with
  | nil =>
    rw [join] at h
    cases h
    exact ⟨m', hm', [], rfl⟩
  | cons c rest ih =>
    rw [join] at h
    obtain ⟨next, hn, h⟩ := bind_eq_ok.1 h
    obtain ⟨m₁, hm₁, facts, hfacts⟩ := ih h
    obtain ⟨m, hm, l, hl, hml⟩ := (mem_flatten_of_mapM hn).1 hm₁
    obtain ⟨f, hf⟩ := exists_extendBy_of_mem_extend hl hml
    refine ⟨m, hm, f :: facts, ?_⟩
    rw [unifyEach, (extendBy_eq_some.1 hf).1]
    exact hfacts

/-- A match binds the variables of the conditions by which it was extended. -/
theorem binds_of_mem_join (h : join view conditions [⟨s, []⟩] = .ok out) (hm : m ∈ out)
    (hv : v ∈ Rule.boundVariables conditions) : m.bindings.Binds v := by
  obtain ⟨m₀, -, facts, hfacts⟩ := exists_unifyEach_of_mem_join h hm
  exact (binds_unifyEach hfacts).2 (.inr hv)

end Condition

/-! ## Evaluating rules on matches -/

theorem Substitution.Binds.exists_lookup {s : Substitution} {v : Text} (h : s.Binds v) :
    ∃ x, s.lookup v = some x := by
  cases hl : s.lookup v with
  | none => exact absurd h (lookup_eq_none_iff_not_mem.1 hl)
  | some x => exact ⟨x, rfl⟩

/-- What a match has for the evaluation of a rule. -/
structure Rule.Evaluates (r : Rule) (m : Match) : Prop where
  /-- Every guard is tested on a value. -/
  guards : ∀ c ∈ r.conditions, ∀ g ∈ c.guard, ∃ x, m.bindings.lookup g.var = some x ∧
    c.holds m.bindings = g.holds x
  /-- Every variable of an action has a value. -/
  actions : ∀ a ∈ r.actions, ∀ v, .var v ∈ a.atom.terms → ∃ x, m.bindings.lookup v = some x
  /-- Every head has values in all places, and it becomes a fact unless the subject is no node or
  the predicate no name. -/
  heads : ∀ head ∈ r.heads, ∃ x y z, head.subject.value? m.bindings = some x ∧
    head.predicate.value? m.bindings = some y ∧ head.object.value? m.bindings = some z ∧
    (head.instantiate? m.bindings = none ↔ x.node? = none ∨ y.name? = none)

namespace Rule

variable {r : Rule} {c : Condition} {g : Guard} {s : Substitution} {view : View} {m : Match}
  {found : List Match}

theorem exists_holds (hc : c.guard = some g) (hv : s.Binds g.var) :
    ∃ x, s.lookup g.var = some x ∧ c.holds s = g.holds x := by
  obtain ⟨x, hx⟩ := hv.exists_lookup
  exact ⟨x, hx, by simp [Condition.holds, hc, hx]⟩

theorem exists_refuted (hc : c.guard = some g) (hv : s.Binds g.var) :
    ∃ x, s.lookup g.var = some x ∧ c.refuted s = !g.holds x := by
  obtain ⟨x, hx⟩ := hv.exists_lookup
  exact ⟨x, hx, by simp [Condition.refuted, hc, hx]⟩

theorem exists_value? {t : Term} (hany : t.isAny = false) (hv : ∀ v, t = .var v → s.Binds v) :
    ∃ x, t.value? s = some x := by
  cases t with
  | any => cases hany
  | var v => exact (hv v rfl).exists_lookup
  | constant c => exact ⟨c, rfl⟩

theorem instantiate?_eq_none_iff {a : Atom} {x y z : Value} (hx : a.subject.value? s = some x)
    (hy : a.predicate.value? s = some y) (hz : a.object.value? s = some z) :
    a.instantiate? s = none ↔ x.node? = none ∨ y.name? = none := by
  simp only [Atom.instantiate?, hx, hy, hz]
  cases hn : x.node? <;> cases hp : y.name? <;> simp [hn, hp]

/-- A substitution that has values for all variables of the conditions is all that the evaluation of
a rule needs. -/
theorem evaluates_of_binds (h : r.faults = [])
    (hbinds : ∀ v ∈ boundVariables r.conditions, m.bindings.Binds v) : r.Evaluates m := by
  have hactions : ∀ a ∈ r.actions, ∀ v, .var v ∈ a.atom.terms → m.bindings.Binds v :=
    fun a ha v hv => hbinds v (binds_of_faults h ha hv)
  refine ⟨fun c hc g hg => ?_, fun a ha v hv => (hactions a ha v hv).exists_lookup,
    fun head hhead => ?_⟩
  · have hvar := (((sound_of_faults h).guards).mem hc g hg).resolve_left List.not_mem_nil
    exact exists_holds hg (hbinds _ hvar)
  · have hvalue {t : Term} (ht : t ∈ head.terms) : ∃ x, t.value? m.bindings = some x := by
      refine exists_value? (Atom.isAny_of_mem ((sound_of_faults h).heads head hhead) ht) ?_
      rintro v rfl
      exact hactions _ (mem_heads.1 hhead) v ht
    obtain ⟨x, hx⟩ := hvalue (t := head.subject) (by simp [Atom.terms])
    obtain ⟨y, hy⟩ := hvalue (t := head.predicate) (by simp [Atom.terms])
    obtain ⟨z, hz⟩ := hvalue (t := head.object) (by simp [Atom.terms])
    exact ⟨x, y, z, hx, hy, hz, instantiate?_eq_none_iff hx hy hz⟩

/-- The guard of the next condition is tested on a value as soon as the condition is matched. -/
theorem refuted_of_join (h : r.faults = []) {before after : List Condition}
    (hsplit : r.conditions = before ++ c :: after)
    (hjoin : Condition.join view before [⟨s, []⟩] = .ok found) (hm : m ∈ found) {f : Fact}
    {s' : Substitution} (hunify : c.atom.unify f m.bindings = some s') (hg : c.guard = some g) :
    ∃ x, s'.lookup g.var = some x ∧ c.refuted s' = !g.holds x := by
  have hguards := (sound_of_faults h).guards
  rw [hsplit] at hguards
  refine exists_refuted hg ((Atom.binds_unify hunify).2 ?_)
  rcases hguards.split g hg with hv | hv | hv
  · cases hv
  · exact .inl (Condition.binds_of_mem_join hjoin hm hv)
  · exact .inr hv

end Rule

/-! ## Guards in a search -/

namespace Stacked

variable {rules : List Rule} {b : Bindings} {top atom : Atom} {g : Guard} {depth n : Nat}
  {above : List Text} {goals : List Goal} {found : List Fact} {f : Fact}

/-- The variables of conditions that hold of facts are fixed. -/
theorem fixed_of_holdsOf {conditions : List Condition} {facts : List Fact} {suffix v : Text}
    (h : ∀ σ, b.Admits σ →
      List.Forall₂ (Condition.HoldsOf fun v => σ (v ++ suffix)) conditions facts)
    (hv : v ∈ Rule.boundVariables conditions) : b.Fixed (v ++ suffix) := by
  induction conditions generalizing facts with
  | nil => cases hv
  | cons c rest ih =>
    rw [Rule.boundVariables, List.flatMap_cons, List.mem_append, Atom.mem_varNames] at hv
    cases facts with
    | nil =>
      intro σ _ hσ
      cases h σ hσ
    | cons f facts =>
      rcases hv with hv | hv
      · have hstands : ∀ σ, b.Admits σ → (c.atom.rename suffix).StandsFor σ f :=
          fun σ hσ => Atom.standsFor_rename.2 (List.forall₂_cons.1 (h σ hσ)).1.1
        exact fixed_of_standsFor hstands (Atom.mem_terms_rename.2 ⟨v, hv, rfl⟩)
      · exact ih (fun σ hσ => (List.forall₂_cons.1 (h σ hσ)).2) hv

/-- Once there is a fact for a goal, the variable of its guard is fixed. -/
theorem fixed (hrules : ∀ r ∈ rules, r.Sound)
    (h : Stacked rules b top (.solve atom (some g) depth above :: goals) found)
    (hf : ∀ σ, b.Admits σ → atom.StandsFor σ f) : b.Fixed g.var := by
  cases h with
  | @inside _ _ _ _ premises _ _ _ _ _ n _ _ r before after _ hr _ _ _ hconditions hholds hgoals
      _ =>
    cases after with
    | nil => simp [Search.conditionGoals] at hgoals
    | cons c after =>
      simp only [Search.conditionGoals, List.map_cons, List.cons_append, List.cons.injEq,
        Goal.solve.injEq] at hgoals
      obtain ⟨⟨rfl, hguard, -, -⟩, -⟩ := hgoals
      obtain ⟨g', hg', rfl⟩ := Option.map_eq_some_iff.1 hguard.symm
      have hguards := (hrules r hr).guards
      rw [hconditions] at hguards
      rcases hguards.split g' hg' with hv | hv | hv
      · cases hv
      · exact fixed_of_holdsOf hholds hv
      · exact fixed_of_standsFor hf (Atom.mem_terms_rename.2 ⟨_, hv, rfl⟩)

/-- Once the head of a rule that was applied to a goal is a fact, the variable of the guard of the
goal is fixed. -/
theorem fixed_of_head {head : Atom} {name : Text} {count : Nat} (hrules : ∀ r ∈ rules, r.Sound)
    (hb : b.WellFormed)
    (h : Stacked rules b top (.conclude head (some g) name count :: goals) found)
    (hf : (head.map b.resolve).instantiate? [] = some f) : b.Fixed g.var := by
  cases h with
  | @inside _ _ _ _ _ atom head' _ _ _ n _ _ r before after hparent hr _ hhead htogether _ _ hgoals
      _ =>
    cases after with
    | cons c after => simp [Search.conditionGoals] at hgoals
    | nil =>
      simp only [Search.conditionGoals, List.map_nil, List.nil_append, List.cons.injEq,
        Goal.conclude.injEq] at hgoals
      obtain ⟨⟨rfl, rfl, -, -⟩, rfl⟩ := hgoals
      have hwildcard : (head'.rename (suffixOf n)).hasWildcard = false := by
        rw [Atom.hasWildcard_rename]
        exact (hrules r hr).heads head' hhead
      refine hparent.fixed (f := f) hrules fun σ hσ => ?_
      exact (htogether σ hσ).standsFor (hσ.standsFor_of_instantiate? hb hf) hwildcard

end Stacked

namespace Search

/-- Whether a search that works on a branch tests a guard under bindings. -/
inductive Tests (s : Search) : Branch → Guard → Bindings → Prop
  /-- The guard of the next goal is tested where the goal was unified with a stored fact. -/
  | fact {b : Branch} {atom : Atom} {g : Guard} {depth : Nat} {above : List Text} {q : Query}
      {l : List Fact} {f : Fact} {bindings : Bindings} :
      (atom.map b.bindings.resolve).key ∉ above →
      (atom.map b.bindings.resolve).query? [] = some q → s.view.find q = .ok l → f ∈ l →
      b.bindings.unifyAtoms? atom (.ofFact f) = some bindings →
      Tests s { b with goals := .solve atom (some g) depth above :: b.goals } g bindings
  /-- The guard of a goal is tested where the head of a rule that was applied to it is a fact. -/
  | head {b : Branch} {head : Atom} {g : Guard} {rule : Text} {premises : Nat} {f : Fact} :
      (head.map b.bindings.resolve).instantiate? [] = some f →
      Tests s { b with goals := .conclude head (some g) rule premises :: b.goals } g b.bindings

variable {s : Search} {b : Branch} {top : Atom} {g : Guard} {bindings : Bindings}

/-- Where a guard is tested, its variable has a value. -/
theorem Tests.exists_value (hrules : ∀ r ∈ s.rules, r.Sound) (hb : b.Coherent s.rules top)
    (h : s.Tests b g bindings) : ∃ x, bindings.resolve (.var g.var) = .constant x := by
  obtain ⟨hwf, hfixed⟩ : bindings.WellFormed ∧ bindings.Fixed g.var := by
    cases h with
    | @fact b _ _ _ _ _ _ f _ _ _ _ _ hunify =>
      have hadmits (σ : Valuation) := admits_unifyAtoms? (σ := σ) hb.wellFormed hunify
      refine ⟨hb.wellFormed.unifyAtoms? hunify, ?_⟩
      refine (hb.stacked.mono fun σ hσ => ((hadmits σ).1 hσ).1).fixed (f := f) hrules ?_
      exact fun σ hσ => togetherIn_ofFact.1 ((hadmits σ).1 hσ).2
    | head hf => exact ⟨hb.wellFormed, hb.stacked.fixed_of_head hrules hb.wellFormed hf⟩
  obtain ⟨σ, hσ, -⟩ := hwf.exists_admits fun _ => default
  exact ⟨_, hfixed.resolve hwf hσ⟩

theorem coherent_first (rules : List Rule) (top : Atom) :
    Branch.Coherent rules top { goals := [.solve top none 0 []] } := ⟨wellFormed_empty, .start⟩

/-- The branches on which a search works are coherent. -/
theorem Visits.coherent (hrules : ∀ r ∈ s.rules, r.Sound)
    (h : s.Visits [{ goals := [.solve top none 0 []] }] b) : b.Coherent s.rules top :=
  h.induct (fun _ _ htakes hb => hb.leads hrules htakes.leads)
    (by simpa using coherent_first s.rules top)

end Search

/-! ## Rules without faults -/

/-- A rule without faults can be evaluated on everything that a join of its conditions comes to,
from whatever values it starts and whatever the view answers, so on every match; and on the way
there, too, every guard is tested on a value. So it is in a search for a proof: wherever a guard is
tested, its variable has a value. -/
theorem checked_evaluates :
    (∀ r : Rule, r.checked = .ok r → ∀ (view : View) (s : Substitution),
      (∀ found, Condition.allMatches view r.conditions s = .ok found → ∀ m ∈ found,
        r.Evaluates m) ∧
      (∀ found, Condition.join view r.conditions [⟨s, []⟩] = .ok found → ∀ m ∈ found,
        r.Evaluates m) ∧
      ∀ before c after, r.conditions = before ++ c :: after →
        ∀ found, Condition.join view before [⟨s, []⟩] = .ok found → ∀ m ∈ found,
          ∀ f s', c.atom.unify f m.bindings = some s' → ∀ g, c.guard = some g →
            ∃ x, s'.lookup g.var = some x ∧ c.refuted s' = !g.holds x) ∧
    ∀ rules : Rulebook, rules.Made → ∀ (view : View) (bound : Nat) (goal : Query) (b : Branch)
      (g : Guard) (bindings : Bindings),
      let s : Search := { view, rules := rules.rules, bound }
      s.Visits [{ goals := [.solve (.ofQuery goal) none 0 []] }] b → s.Tests b g bindings →
        ∃ x, bindings.resolve (.var g.var) = .constant x ∧
          bindings.satisfies (some g) = g.holds x := by
  refine ⟨fun r hr view s => ?_, fun rules hrules view bound goal b g bindings => ?_⟩
  · have hfaults := (Rule.faults_of_checked hr).2
    have hjoin : ∀ found, Condition.join view r.conditions [⟨s, []⟩] = .ok found → ∀ m ∈ found,
        r.Evaluates m := fun found hfound m hm =>
      Rule.evaluates_of_binds hfaults fun v hv => Condition.binds_of_mem_join hfound hm hv
    refine ⟨fun found hfound m hm => ?_, hjoin, ?_⟩
    · obtain ⟨out, hout, hfound⟩ := bind_eq_ok.1 hfound
      rw [← pure_eq_ok.1 hfound] at hm
      exact hjoin out hout m (List.mem_of_mem_filter hm)
    · intro before c after hsplit found hfound m hm f s' hunify g hg
      exact Rule.refuted_of_join hfaults hsplit hfound hm hunify hg
  · intro s hvisits htests
    obtain ⟨x, hx⟩ := htests.exists_value hrules.sound (hvisits.coherent hrules.sound)
    exact ⟨x, hx, by rw [satisfies, hx]⟩

/-- A rule with a guard is evaluated on its one match. In a search, the rule is applied to a goal,
and the guard is tested. -/
theorem checked_evaluates_turn :
    let f : Fact := ⟨.named "a", "p", .named "b"⟩
    let g : Guard := ⟨"y", .equal, .named "b"⟩
    let turn : Rule := {
      name := "turn"
      conditions := [{ atom := ⟨.var "x", .named "p", .var "y"⟩, guard := some g }]
      actions := [.derive ⟨.var "y", .named "p", .var "x"⟩] }
    let view : View := {
      find := fun q => .ok ([f].filter q.accepts)
      get := fun _ => .ok none
      contains := fun f' => .ok (f' == f)
      extent := 1 }
    let goal : Query := { subject := some (.named "b") }
    let s : Search := { view, rules := [turn], bound := 1 }
    let g' : Guard := ⟨("y" : Text) ++ suffixOf 0, .equal, .named "b"⟩
    (∃ m, Condition.allMatches view turn.conditions [] = .ok [m] ∧ turn.Evaluates m) ∧
      ∃ b bindings, s.Visits [{ goals := [.solve (.ofQuery goal) none 0 []] }] b ∧
        s.Tests b g' bindings ∧ ∃ x, bindings.resolve (.var g'.var) = .constant x ∧
          bindings.satisfies (some g') = g'.holds x := by
  intro f g turn view goal s g'
  let rules : Rulebook := { rules := [turn] }
  have hmade : rules.Made := Rulebook.made_of_addAll rfl (by decide)
  have hmatches : Condition.allMatches view turn.conditions [] =
      .ok [⟨[("x", .named "a"), ("y", .named "b")], [f]⟩] := by rfl
  obtain ⟨hrule, -, -⟩ := checked_evaluates.1 turn rfl view []
  refine ⟨⟨_, hmatches, hrule _ hmatches _ List.mem_cons_self⟩, ?_⟩
  let first : Branch := { goals := [] }
  let key : Text := ((Atom.ofQuery goal).map first.bindings.resolve).key
  let b : Branch := Search.withRule first none 0 [key] {
    rule := turn
    head := Atom.rename (suffixOf 0) ⟨.var "y", .named "p", .var "x"⟩
    bindings := { values := [(g'.var, .named "b")] } }
  have hnext : s.next {} first (.solve (.ofQuery goal) none 0 []) =
      ({ expansions := 1 }, .ok [b]) := by
    decide +kernel
  have hvisits : s.Visits [{ goals := [.solve (.ofQuery goal) none 0 []] }] b :=
    .next hnext (.first b [])
  let x : Text := ("x" : Text) ++ suffixOf 0
  have htests : s.Tests b g' { values := [(x, .named "a"), (g'.var, .named "b")] } := by
    refine .fact (b := { b with goals := b.goals.tail }) (f := f) (l := [f])
      (q := ⟨none, some "p", some (.named "b")⟩) ?_ ?_ rfl List.mem_cons_self ?_
    · decide +kernel
    · decide +kernel
    · decide +kernel
  exact ⟨b, _, hvisits, htests, checked_evaluates.2 rules hmade view 1 goal b g' _ hvisits htests⟩

end FactGraph
