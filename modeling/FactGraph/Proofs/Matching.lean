import FactGraph.Proofs.Outcome
import FactGraph.Proofs.Substitution
import FactGraph.Proofs.View

/-!
# Matches

Conditions match facts, one by one, exactly under the valuations under which every condition holds
of its fact (`unifyAll_of_holdsOf`, `holdsOf_of_unifyAll`). The matches found in a view that shows a
set of facts are those of all lists of its members (`mem_allMatches_iff`): asking only for facts
that fit the values found so far, and dropping a match as soon as a guard fails, loses nothing.
-/

namespace FactGraph.Condition

variable {s s' : Substitution} {σ : Valuation} {c : Condition} {conditions : List Condition}
  {facts : List Fact} {bound : List Text}

/-! ## Guards -/

theorem holds_of_guard (hσ : s.Agrees σ) (h : ∀ g ∈ c.guard, g.holds (σ g.var) = true)
    (hv : ∀ g ∈ c.guard, s.Binds g.var) : c.holds s = true := by
  rw [holds]
  split
  · rfl
  · next g hg => simp [hσ.lookup (hv g hg), h g hg]

theorem guard_of_holds (hσ : s.Agrees σ) (h : c.holds s = true) :
    ∀ g ∈ c.guard, g.holds (σ g.var) = true := by
  intro g hg
  rw [Option.mem_def] at hg
  rw [holds, hg] at h
  cases hl : s.lookup g.var with
  | none => simp [hl] at h
  | some x =>
    rw [hσ.of_lookup hl]
    simpa [hl] using h

/-- A guard that holds of the value of its variable does not fail, whether or not the variable has a
value already. -/
theorem not_refuted (hσ : s.Agrees σ) (h : ∀ g ∈ c.guard, g.holds (σ g.var) = true) :
    c.refuted s = false := by
  rw [refuted]
  split
  · rfl
  · next g hg =>
    cases hl : s.lookup g.var with
    | none => rfl
    | some x => simp [← hσ.of_lookup hl, h g hg]

theorem GuardsBound.mem (h : GuardsBound bound conditions) (hc : c ∈ conditions) :
    ∀ g ∈ c.guard, g.var ∈ bound ∨ g.var ∈ Rule.boundVariables conditions := by
  induction conditions generalizing bound with
  | nil => cases hc
  | cons c' rest ih =>
    obtain ⟨hguard, hrest⟩ := h
    intro g hg
    rw [Rule.boundVariables, List.flatMap_cons, List.mem_append]
    rcases List.mem_cons.1 hc with rfl | hc
    · exact (List.mem_append.1 (hguard g hg)).imp_right Or.inl
    · rcases ih hrest hc g hg with hb | hb
      · exact (List.mem_append.1 hb).imp_right Or.inl
      · exact Or.inr (Or.inr hb)

/-! ## Unifying conditions with facts -/

/-- Unifying conditions with facts keeps the valuations under which the atoms stand for the
facts. -/
theorem agrees_unifyEach (h : unifyEach conditions facts s = some s') : s'.Agrees σ ↔
    s.Agrees σ ∧ List.Forall₂ (fun c f => c.atom.StandsFor σ f) conditions facts := by
  induction conditions generalizing facts s with
  | nil =>
    cases facts with
    | nil => simp [← Option.some.inj h]
    | cons => cases h
  | cons c rest ih =>
    cases facts with
    | nil => cases h
    | cons f facts =>
      obtain ⟨s₁, h₁, h⟩ := Option.bind_eq_some_iff.1 h
      rw [ih h, Atom.agrees_unify h₁, List.forall₂_cons, and_assoc]

theorem binds_unifyEach (h : unifyEach conditions facts s = some s') {v : Text} :
    s'.Binds v ↔ s.Binds v ∨ v ∈ Rule.boundVariables conditions := by
  induction conditions generalizing facts s with
  | nil =>
    cases facts with
    | nil => simp [← Option.some.inj h, Rule.boundVariables]
    | cons => cases h
  | cons c rest ih =>
    cases facts with
    | nil => cases h
    | cons f facts =>
      obtain ⟨s₁, h₁, h⟩ := Option.bind_eq_some_iff.1 h
      rw [ih h, Atom.binds_unify h₁, Rule.boundVariables, Rule.boundVariables, List.flatMap_cons,
        List.mem_append, Atom.mem_varNames, or_assoc]

theorem ascending_unifyEach (hs : s.Ascending) (h : unifyEach conditions facts s = some s') :
    s'.Ascending := by
  induction conditions generalizing facts s with
  | nil =>
    cases facts with
    | nil => exact Option.some.inj h ▸ hs
    | cons => cases h
  | cons c rest ih =>
    cases facts with
    | nil => cases h
    | cons f facts =>
      obtain ⟨s₁, h₁, h⟩ := Option.bind_eq_some_iff.1 h
      exact ih (Atom.ascending_unify hs h₁) h

theorem unifyEach_isSome (hσ : s.Agrees σ)
    (h : List.Forall₂ (fun c f => c.atom.StandsFor σ f) conditions facts) :
    (unifyEach conditions facts s).isSome := by
  induction h generalizing s with
  | nil => rfl
  | cons hf _ ih =>
    obtain ⟨s₁, h₁⟩ := Option.isSome_iff_exists.1 (Atom.unify_isSome hσ hf)
    simpa [unifyEach, h₁] using ih ((Atom.agrees_unify h₁).2 ⟨hσ, hf⟩)

/-! ## Matches of facts one by one -/

theorem unifyAll_eq_some : unifyAll conditions facts = some s ↔
    unifyEach conditions facts [] = some s ∧ allHold conditions s = true := by
  simp only [unifyAll, bind, Option.bind_eq_some_iff]
  constructor
  · rintro ⟨s₁, h₁, h⟩
    split at h
    · next hall => exact ⟨Option.some.inj h ▸ h₁, Option.some.inj h ▸ hall⟩
    · cases h
  · rintro ⟨h, hall⟩
    exact ⟨s, h, if_pos hall⟩

theorem forall₂_holdsOf_iff : List.Forall₂ (HoldsOf σ) conditions facts ↔
    List.Forall₂ (fun c f => c.atom.StandsFor σ f) conditions facts ∧
      ∀ c ∈ conditions, ∀ g ∈ c.guard, g.holds (σ g.var) = true := by
  induction conditions generalizing facts with
  | nil => simp
  | cons c rest ih =>
    cases facts with
    | nil => simp
    | cons f facts =>
      rw [List.forall₂_cons, List.forall₂_cons, ih, List.forall_mem_cons, HoldsOf]
      tauto

/-- A match of facts stands for valuations under which the conditions hold of the facts. -/
theorem holdsOf_of_unifyAll (h : unifyAll conditions facts = some s) (hσ : s.Agrees σ) :
    List.Forall₂ (HoldsOf σ) conditions facts := by
  obtain ⟨heach, hall⟩ := unifyAll_eq_some.1 h
  rw [forall₂_holdsOf_iff]
  refine ⟨((agrees_unifyEach heach).1 hσ).2, fun c hc => ?_⟩
  exact guard_of_holds hσ (List.all_eq_true.1 hall c hc)

/-- Conditions that hold of facts under a valuation match the facts, and the match has values for
all variables of the conditions. -/
theorem unifyAll_of_holdsOf (hguards : GuardsBound [] conditions)
    (h : List.Forall₂ (HoldsOf σ) conditions facts) :
    ∃ s, unifyAll conditions facts = some s ∧ s.Agrees σ ∧
      ∀ v ∈ Rule.boundVariables conditions, s.Binds v := by
  obtain ⟨hatoms, hholds⟩ := forall₂_holdsOf_iff.1 h
  have hnil : Substitution.Agrees [] σ := by simp [Substitution.Agrees]
  obtain ⟨s, hs⟩ := Option.isSome_iff_exists.1 (unifyEach_isSome hnil hatoms)
  have hσ : s.Agrees σ := (agrees_unifyEach hs).2 ⟨hnil, hatoms⟩
  have hbinds : ∀ v ∈ Rule.boundVariables conditions, s.Binds v := fun v hv =>
    (binds_unifyEach hs).2 (Or.inr hv)
  refine ⟨s, unifyAll_eq_some.2 ⟨hs, List.all_eq_true.2 fun c hc => ?_⟩, hσ, hbinds⟩
  exact holds_of_guard hσ (hholds c hc) fun g hg =>
    hbinds _ ((hguards.mem hc g hg).resolve_left (by simp))

theorem exists_agrees_of_unifyAll (h : unifyAll conditions facts = some s) :
    ∃ σ, s.Agrees σ :=
  (ascending_unifyEach Substitution.ascending_nil (unifyAll_eq_some.1 h).1).exists_agrees

/-! ## Matches in a view -/

/-- Extends a match by facts for conditions, one by one. -/
def extendEach : List Condition → List Fact → Match → Option Match
  | [], [], m => some m
  | c :: conditions, f :: facts, m => (c.extendBy m f).bind (extendEach conditions facts)
  | _, _, _ => none

/-- Whether the values of a match are among given ones, and its variables in order. -/
structure Orderly (V : Set Value) (m : Match) : Prop where
  /-- The variables stand in ascending order. -/
  ascending : m.bindings.Ascending
  /-- The values are among the given ones. -/
  values : ∀ e ∈ m.bindings, e.2 ∈ V

variable {view : View} {A asked : Set Fact} {V : Set Value} {m m' : Match} {found : List Match}

theorem extendBy_eq_some {f : Fact} : c.extendBy m f = some m' ↔
    c.atom.unify f m.bindings = some m'.bindings ∧ c.refuted m'.bindings = false ∧
      m'.premises = m.premises ++ [f] := by
  obtain ⟨s, premises⟩ := m'
  simp only [extendBy, bind, Option.bind_eq_some_iff]
  constructor
  · rintro ⟨s₁, h₁, h⟩
    split at h
    · cases h
    · next hr =>
      rw [Option.some.injEq, Match.mk.injEq] at h
      obtain ⟨rfl, rfl⟩ := h
      exact ⟨h₁, by simpa using hr, rfl⟩
  · rintro ⟨h, hr, rfl⟩
    exact ⟨s, h, by simp [hr]⟩

theorem Orderly.extendBy {f : Fact} (hm : Orderly V m) (hf : f ∈ factsOver V)
    (h : c.extendBy m f = some m') : Orderly V m' := by
  obtain ⟨hu, -, -⟩ := extendBy_eq_some.1 h
  exact ⟨Atom.ascending_unify hm.ascending hu, Atom.values_unify hf hm.values hu⟩

/-- Whether a fact is looked up when conditions are matched with members of a set, from given values
on: a condition asks for the fact when those in front of it are matched. -/
inductive LooksUp (A : Set Fact) : List Condition → Substitution → Fact → Prop
  /-- The first condition asks for the fact. -/
  | here {c : Condition} {rest : List Condition} {s : Substitution} {q : Query} {f : Fact}
      (asked : c.atom.query? s = some q) (exact : q.fact? = some f) : LooksUp A (c :: rest) s f
  /-- The first condition is matched with a member, and the others look the fact up. -/
  | later {c : Condition} {rest : List Condition} {s s' : Substitution} {f g : Fact} (mem : g ∈ A)
      (matched : c.atom.unify g s = some s') (behind : LooksUp A rest s' f) :
      LooksUp A (c :: rest) s f

theorem LooksUp.mono {B : Set Fact} {f : Fact} (h : LooksUp A conditions s f) (hAB : A ⊆ B) :
    LooksUp B conditions s f := by
  induction h with
  | here asked exact => exact .here asked exact
  | later mem matched _ ih => exact .later (hAB mem) matched ih

/-- What is looked up is a fact over the values of the set, the conditions and the given values. -/
theorem LooksUp.mem_factsOver {f : Fact} (h : LooksUp A conditions s f) (hA : A ⊆ factsOver V)
    (hc : ∀ c ∈ conditions, ∀ x ∈ c.atom.constants, x ∈ V) (hs : ∀ e ∈ s, e.2 ∈ V) :
    f ∈ factsOver V := by
  induction h with
  | here asked exact =>
    rw [List.forall_mem_cons] at hc
    exact Atom.mem_factsOver_of_query? hc.1 hs asked exact
  | later mem matched _ ih =>
    rw [List.forall_mem_cons] at hc
    exact ih hc.2 (Atom.values_unify (hA mem) hs matched)

/-- A match is extended by exactly the members of the set by which it can be extended. -/
theorem mem_extend (hview : view.Shows A asked) (hm : m.bindings.Ascending)
    (hasked : ∀ q f, c.atom.query? m.bindings = some q → q.fact? = some f → f ∈ asked)
    {next : List Match} (h : c.extend view m = .ok next) :
    m' ∈ next ↔ ∃ f ∈ A, c.extendBy m f = some m' := by
  -- A fact by which the match can be extended is accepted by the query.
  have hquery {f : Fact} (hf : c.extendBy m f = some m') :
      ∃ q, c.atom.query? m.bindings = some q ∧ q.accepts f = true := by
    obtain ⟨hu, -, -⟩ := extendBy_eq_some.1 hf
    exact Atom.exists_query?_of_unify hm hu
  rw [extend] at h
  split at h
  · next hq =>
    cases h
    simp only [List.not_mem_nil, false_iff, not_exists, not_and]
    intro f _ hf
    obtain ⟨q, hq', -⟩ := hquery hf
    rw [hq] at hq'
    cases hq'
  · next q hq =>
    obtain ⟨l, hl, h⟩ := bind_eq_ok.1 h
    rw [← pure_eq_ok.1 h, List.mem_filterMap]
    constructor
    · rintro ⟨f, hf, hext⟩
      exact ⟨f, (hview.find q l hl (fun f hf => hasked q f hq hf) f hf).1, hext⟩
    · rintro ⟨f, hf, hext⟩
      obtain ⟨q', hq', haccepts⟩ := hquery hext
      rw [hq, Option.some.injEq] at hq'
      exact ⟨f, hview.mem_find q l hl f hf (hq' ▸ haccepts), hext⟩

theorem mem_join (hview : view.Shows A asked) (hfound : ∀ m ∈ found, m.bindings.Ascending)
    (hasked : ∀ m ∈ found, ∀ f, LooksUp A conditions m.bindings f → f ∈ asked)
    {out : List Match} (h : join view conditions found = .ok out) :
    m' ∈ out ↔ ∃ m ∈ found, ∃ facts, (∀ f ∈ facts, f ∈ A) ∧
      extendEach conditions facts m = some m' := by
  induction conditions generalizing found with
  | nil =>
    rw [join] at h
    cases h
    constructor
    · intro hm
      exact ⟨m', hm, [], by simp, rfl⟩
    · rintro ⟨m, hm, facts, -, hext⟩
      cases facts with
      | nil => exact Option.some.inj hext ▸ hm
      | cons => cases hext
  | cons c rest ih =>
    rw [join] at h
    obtain ⟨next, hn, h⟩ := bind_eq_ok.1 h
    have hextend {m m₁ : Match} {l : List Match} (hm : m ∈ found) (hl : c.extend view m = .ok l) :
        m₁ ∈ l ↔ ∃ f ∈ A, c.extendBy m f = some m₁ :=
      mem_extend hview (hfound m hm) (fun q f hq hf => hasked m hm f (.here hq hf)) hl
    have hnext : ∀ m₁, m₁ ∈ next.flatten ↔ ∃ m ∈ found, ∃ f ∈ A, c.extendBy m f = some m₁ := by
      intro m₁
      rw [mem_flatten_of_mapM hn]
      constructor
      · rintro ⟨m, hm, l, hl, hm₁⟩
        exact ⟨m, hm, (hextend hm hl).1 hm₁⟩
      · rintro ⟨m, hm, hf⟩
        obtain ⟨l, hl⟩ := exists_of_mapM hn hm
        exact ⟨m, hm, l, hl, (hextend hm hl).2 hf⟩
    have hascending : ∀ m₁ ∈ next.flatten, m₁.bindings.Ascending := by
      intro m₁ hm₁
      obtain ⟨m, hm, f, -, hext⟩ := (hnext m₁).1 hm₁
      exact Atom.ascending_unify (hfound m hm) (extendBy_eq_some.1 hext).1
    have hlooked : ∀ m₁ ∈ next.flatten, ∀ f, LooksUp A rest m₁.bindings f → f ∈ asked := by
      intro m₁ hm₁ f hf
      obtain ⟨m, hm, g, hg, hext⟩ := (hnext m₁).1 hm₁
      exact hasked m hm f (.later hg (extendBy_eq_some.1 hext).1 hf)
    rw [ih hascending hlooked h]
    constructor
    · rintro ⟨m₁, hm₁, facts, hfacts, hext⟩
      obtain ⟨m, hm, f, hf, hext₁⟩ := (hnext m₁).1 hm₁
      refine ⟨m, hm, f :: facts, List.forall_mem_cons.2 ⟨hf, hfacts⟩, ?_⟩
      simp [extendEach, hext₁, hext]
    · rintro ⟨m, hm, facts, hfacts, hext⟩
      cases facts with
      | nil => cases hext
      | cons f facts =>
        rw [List.forall_mem_cons] at hfacts
        obtain ⟨m₁, hext₁, hext⟩ := Option.bind_eq_some_iff.1 hext
        exact ⟨m₁, (hnext m₁).2 ⟨m, hm, f, hfacts.1, hext₁⟩, facts, hfacts.2, hext⟩

theorem unifyEach_of_extendEach (h : extendEach conditions facts m = some m') :
    unifyEach conditions facts m.bindings = some m'.bindings ∧
      m'.premises = m.premises ++ facts := by
  induction conditions generalizing facts m with
  | nil =>
    cases facts with
    | nil => simp [← Option.some.inj h, unifyEach]
    | cons => cases h
  | cons c rest ih =>
    cases facts with
    | nil => cases h
    | cons f facts =>
      obtain ⟨m₁, h₁, h⟩ := Option.bind_eq_some_iff.1 h
      obtain ⟨hu, -, hp₁⟩ := extendBy_eq_some.1 h₁
      obtain ⟨hrest, hp⟩ := ih h
      exact ⟨by simp [unifyEach, hu, hrest], by simp [hp, hp₁]⟩

/-- No guard that holds in the end fails on the way. -/
theorem extendEach_of_unifyEach (h : unifyEach conditions facts m.bindings = some s)
    (hσ : s.Agrees σ) (hguards : ∀ c ∈ conditions, ∀ g ∈ c.guard, g.holds (σ g.var) = true) :
    extendEach conditions facts m = some ⟨s, m.premises ++ facts⟩ := by
  induction conditions generalizing facts m with
  | nil =>
    cases facts with
    | nil =>
      rw [unifyEach, Option.some.injEq] at h
      simp [extendEach, ← h]
    | cons => cases h
  | cons c rest ih =>
    cases facts with
    | nil => cases h
    | cons f facts =>
      rw [List.forall_mem_cons] at hguards
      obtain ⟨s₁, h₁, h⟩ := Option.bind_eq_some_iff.1 h
      have hσ₁ : s₁.Agrees σ := ((agrees_unifyEach h).1 hσ).1
      have hext : c.extendBy m f = some ⟨s₁, m.premises ++ [f]⟩ :=
        extendBy_eq_some.2 ⟨h₁, not_refuted hσ₁ hguards.1, rfl⟩
      rw [extendEach, hext, Option.bind_some, ih (m := ⟨s₁, m.premises ++ [f]⟩) h hguards.2]
      simp

/-- The matches found from given values on are those of all lists of members of the set, if the view
shows the set where it is asked for what is looked up. -/
theorem mem_allMatches_of_looksUp (hview : view.Shows A asked) (hs : s.Ascending)
    (hasked : ∀ f, LooksUp A conditions s f → f ∈ asked)
    (h : allMatches view conditions s = .ok found) : m ∈ found ↔
      (∀ f ∈ m.premises, f ∈ A) ∧ unifyEach conditions m.premises s = some m.bindings ∧
        allHold conditions m.bindings = true := by
  rw [allMatches] at h
  obtain ⟨out, hj, h⟩ := bind_eq_ok.1 h
  rw [← pure_eq_ok.1 h, List.mem_filter,
    mem_join hview (by simpa using hs) (by simpa using hasked) hj]
  simp only [List.mem_singleton, exists_eq_left]
  constructor
  · rintro ⟨⟨facts, hfacts, hext⟩, hall⟩
    obtain ⟨hu, hp⟩ := unifyEach_of_extendEach hext
    rw [List.nil_append] at hp
    exact ⟨hp ▸ hfacts, hp ▸ hu, hall⟩
  · rintro ⟨hfacts, hu, hall⟩
    obtain ⟨σ, hσ⟩ := (ascending_unifyEach hs hu).exists_agrees
    refine ⟨⟨m.premises, hfacts, ?_⟩, hall⟩
    exact extendEach_of_unifyEach (m := ⟨s, []⟩) hu hσ fun c hc =>
      guard_of_holds hσ (List.all_eq_true.1 hall c hc)

/-- The matches found from given values on are those of all lists of members of the set. -/
theorem mem_allMatches_from_iff (hview : view.Shows A (factsOver V)) (hA : A ⊆ factsOver V)
    (hc : ∀ c ∈ conditions, ∀ x ∈ c.atom.constants, x ∈ V) (hs : Orderly V ⟨s, []⟩)
    (h : allMatches view conditions s = .ok found) : m ∈ found ↔
      (∀ f ∈ m.premises, f ∈ A) ∧ unifyEach conditions m.premises s = some m.bindings ∧
        allHold conditions m.bindings = true :=
  mem_allMatches_of_looksUp hview hs.ascending (fun _ hf => hf.mem_factsOver hA hc hs.values) h

/-- The matches found in a view that shows a set of facts are the matches of all lists of members
of the set. -/
theorem mem_allMatches_iff (hview : view.Shows A (factsOver V)) (hA : A ⊆ factsOver V)
    (hc : ∀ c ∈ conditions, ∀ x ∈ c.atom.constants, x ∈ V)
    (h : allMatches view conditions [] = .ok found) : m ∈ found ↔
      (∀ f ∈ m.premises, f ∈ A) ∧ unifyAll conditions m.premises = some m.bindings := by
  have hstart : Orderly V ⟨[], []⟩ := ⟨Substitution.ascending_nil, by simp⟩
  rw [mem_allMatches_from_iff hview hA hc hstart h, unifyAll_eq_some]

end FactGraph.Condition

/-! ## Matches of rules -/

namespace FactGraph.Rule

variable {r : Rule} {A : Set Fact} {f : Fact} {V : Set Value}

/-- What a head becomes under a match of members is derived from them. -/
theorem yields_of_unifyAll (hr : r.Sound) (enabled : r.enabled = true) {premises : List Fact}
    (hpremises : ∀ g ∈ premises, g ∈ A) {s : Substitution}
    (hs : Condition.unifyAll r.conditions premises = some s) {head : Atom} (hhead : head ∈ r.heads)
    (hf : head.instantiate? s = some f) : r.Yields A f := by
  obtain ⟨σ, hσ⟩ := Condition.exists_agrees_of_unifyAll hs
  exact ⟨enabled, σ, premises, Condition.holdsOf_of_unifyAll hs hσ, hpremises, head, hhead,
    hr.heads head hhead, Atom.standsFor_of_instantiate? hσ hf⟩

/-- What is derived from members is what a head becomes under a match of them. -/
theorem Yields.exists_unifyAll (hr : r.Sound) (h : r.Yields A f) :
    ∃ premises, (∀ g ∈ premises, g ∈ A) ∧ ∃ s,
      Condition.unifyAll r.conditions premises = some s ∧
        ∃ head ∈ r.heads, head.instantiate? s = some f := by
  obtain ⟨-, σ, premises, hmatch, hpremises, head, hhead, hwildcard, hf⟩ := h
  obtain ⟨s, hs, hσ, hbinds⟩ := Condition.unifyAll_of_holdsOf hr.guards hmatch
  refine ⟨premises, hpremises, s, hs, head, hhead, ?_⟩
  exact Atom.instantiate?_of_standsFor hσ hf hwildcard fun v hv =>
    hbinds v (hr.binds head hhead v hv)

/-- Every variable that conditions bind has a value of a fact that they match. -/
theorem value_mem_of_holdsOf {σ : Valuation} {conditions : List Condition} {premises : List Fact}
    (h : List.Forall₂ (Condition.HoldsOf σ) conditions premises)
    (hV : ∀ g ∈ premises, g ∈ factsOver V) {v : Text} (hv : v ∈ boundVariables conditions) :
    σ v ∈ V := by
  induction h with
  | nil => cases hv
  | @cons c f rest facts hc _ ih =>
    rw [List.forall_mem_cons] at hV
    rw [boundVariables, List.flatMap_cons, List.mem_append] at hv
    rcases hv with hv | hv
    · exact hV.1 _ (hc.1.value_mem (Atom.mem_varNames.1 hv))
    · exact ih hV.2 hv

/-- A rule derives facts over the values of its premises and of its heads. -/
theorem Yields.mem_factsOver (hr : r.Sound) (h : r.Yields A f) (hA : A ⊆ factsOver V)
    (hV : ∀ x ∈ r.constants, x ∈ V) : f ∈ factsOver V := by
  obtain ⟨-, σ, premises, hmatch, hpremises, head, hhead, hwildcard, hf⟩ := h
  have hvalue {t : Term} {x : Value} (ht : t ∈ head.terms) (hx : t.StandsFor σ x) : x ∈ V := by
    cases t with
    | any => exact absurd (Atom.isAny_of_mem hwildcard ht) (by simp [Term.isAny])
    | var v =>
      rw [← show σ v = x from hx]
      exact value_mem_of_holdsOf hmatch (fun g hg => hA (hpremises g hg))
        (hr.binds head hhead v ht)
    | constant c =>
      rw [← show c = x from hx]
      exact hV c (List.mem_append_right _
        (List.mem_flatMap.2 ⟨head, hhead, Term.mem_constants.2 ht⟩))
  rw [Atom.standsFor_iff] at hf
  rw [Fact.mem_factsOver]
  exact ⟨hvalue (by simp [Atom.terms]) hf.1, hvalue (by simp [Atom.terms]) hf.2.1,
    hvalue (by simp [Atom.terms]) hf.2.2⟩

end FactGraph.Rule

namespace FactGraph

/-- Consequences are facts over the values of the given facts and of the rules. -/
theorem consequences_subset_factsOver {rules : List Rule} (hrules : ∀ r ∈ rules, r.Sound)
    {A : Set Fact} {V : Set Value} (hV : vocabulary rules A ⊆ V) :
    consequences rules A ⊆ factsOver V := by
  refine consequences_subset
    ((subset_factsOver_vocabulary rules A).trans (factsOver_mono hV)) fun f hf => ?_
  obtain ⟨r, hr, hf⟩ := hf
  exact hf.mem_factsOver (hrules r hr) Set.Subset.rfl fun x hx => hV (Or.inr ⟨r, hr, hx⟩)

end FactGraph
