import FactGraph.Proofs.Substitution

/-!
# Unifying extends a substitution as little as possible

An atom is unified with a fact by giving values to those of its variables that have none. This
succeeds exactly if the substitution can be extended at all so that the terms of the atom are the
values of the fact, and it leads to the least such extension, which has values for the variables of
the atom and of the substitution only (`Atom.unify_least`).
-/

namespace FactGraph

namespace Substitution

/-- Whether a substitution gives the values of another one to the variables of that one. -/
def Extends (e s : Substitution) : Prop := ∀ v x, s.lookup v = some x → e.lookup v = some x

variable {s s' e : Substitution} {σ : Valuation} {v : Text}

theorem Extends.binds (h : e.Extends s) (hv : s.Binds v) : e.Binds v := by
  obtain ⟨x, hx⟩ := Option.ne_none_iff_exists'.1 fun hnone => lookup_eq_none_iff_not_mem.1 hnone hv
  exact List.mem_map_of_mem (mem_of_lookup (h v x hx))

theorem Extends.agrees (hs : s.Ascending) (h : e.Extends s) (hσ : e.Agrees σ) : s.Agrees σ :=
  fun p hp => hσ.of_lookup (h p.1 p.2 (lookup_of_mem hs.nodup hp))

/-- A substitution is extended by those that have its variables, if valuations that agree with them
agree with it. -/
theorem Agrees.extends (hσ : s.Agrees σ) (hσ' : e.Agrees σ) (hv : ∀ v, s.Binds v → e.Binds v) :
    e.Extends s := by
  intro v x hx
  have hbinds : s.Binds v := List.mem_map_of_mem (mem_of_lookup hx)
  rw [hσ'.lookup (hv v hbinds), hσ.of_lookup hx]

theorem Extends.antisymm (hs : s.Ascending) (he : e.Ascending) (h : e.Extends s)
    (h' : s.Extends e) : s = e := by
  obtain ⟨σ, hσ⟩ := he.exists_agrees
  exact hs.ext he (h.agrees hs hσ) hσ fun v => ⟨h.binds, h'.binds⟩

end Substitution

/-- Whether a term is a value under a substitution: the constant is the value, or the variable is
bound to it. A wildcard is every value. -/
def Term.Is (e : Substitution) : Term → Value → Prop
  | .any, _ => True
  | .var v, x => e.lookup v = some x
  | .constant c, x => c = x

namespace Atom

/-- Whether the terms of an atom are the values of a fact under a substitution. -/
def Is (e : Substitution) (a : Atom) (f : Fact) : Prop := List.Forall₂ (Term.Is e) a.terms f.values

/-- Whether a substitution extends another one so that an atom is a fact. -/
structure Completes (a : Atom) (f : Fact) (s e : Substitution) : Prop where
  /-- The variables stand in ascending order. -/
  ascending : e.Ascending
  /-- No value is given up. -/
  kept : e.Extends s
  /-- The terms are the values of the fact. -/
  fact : a.Is e f

variable {s s' e : Substitution} {σ : Valuation} {a : Atom} {f : Fact} {v : Text}

theorem is_iff : a.Is e f ↔ a.subject.Is e (.node f.subject) ∧
    a.predicate.Is e (.named f.predicate) ∧ a.object.Is e f.object := by
  simp [Is, terms, Fact.values]

/-- Under a substitution an atom is the facts for which it stands, if its variables are bound. -/
theorem is_iff_standsFor (he : e.Agrees σ) :
    a.Is e f ↔ a.StandsFor σ f ∧ ∀ v, .var v ∈ a.terms → e.Binds v := by
  have hterm {t : Term} {x : Value} :
      t.Is e x ↔ t.StandsFor σ x ∧ ∀ v, t = .var v → e.Binds v := by
    cases t with
    | any => simp [Term.Is, Term.StandsFor]
    | constant c => simp [Term.Is, Term.StandsFor]
    | var w =>
      constructor
      · intro h
        refine ⟨he.of_lookup h, fun v hv => ?_⟩
        cases hv
        exact List.mem_map_of_mem (mem_of_lookup h)
      · rintro ⟨h, hv⟩
        rw [Term.Is, he.lookup (hv w rfl), show σ w = x from h]
  rw [is_iff, standsFor_iff, hterm, hterm, hterm]
  simp only [terms, List.mem_cons, List.not_mem_nil, or_false, eq_comm (a := Term.var _)]
  constructor
  · rintro ⟨⟨hs, hvs⟩, ⟨hp, hvp⟩, ho, hvo⟩
    refine ⟨⟨hs, hp, ho⟩, ?_⟩
    rintro v (hv | hv | hv)
    · exact hvs v hv
    · exact hvp v hv
    · exact hvo v hv
  · rintro ⟨⟨hs, hp, ho⟩, hv⟩
    exact ⟨⟨hs, fun v e => hv v (.inl e)⟩, ⟨hp, fun v e => hv v (.inr (.inl e))⟩,
      ho, fun v e => hv v (.inr (.inr e))⟩

/-- What completes an atom stands for valuations with which the substitution agrees and under which
the atom stands for the fact. -/
theorem Completes.agrees (hs : s.Ascending) (h : a.Completes f s e) (hσ : e.Agrees σ) :
    s.Agrees σ ∧ a.StandsFor σ f :=
  ⟨h.kept.agrees hs hσ, ((is_iff_standsFor hσ).1 h.fact).1⟩

/-- Unifying completes the atom. -/
theorem completes_of_unify (hs : s.Ascending) (h : a.unify f s = some s') :
    a.Completes f s s' := by
  have hascending := ascending_unify hs h
  obtain ⟨σ, hσ⟩ := hascending.exists_agrees
  obtain ⟨hbase, hstands⟩ := (agrees_unify h).1 hσ
  exact ⟨hascending, hbase.extends hσ fun v hv => (binds_unify h).2 (.inl hv),
    (is_iff_standsFor hσ).2 ⟨hstands, fun v hv => (binds_unify h).2 (.inr hv)⟩⟩

/-- Whatever completes the atom extends what unifying leads to. -/
theorem Completes.extends (hs : s.Ascending) (h : a.unify f s = some s')
    (he : a.Completes f s e) : e.Extends s' := by
  obtain ⟨σ, hσ⟩ := he.ascending.exists_agrees
  refine Substitution.Agrees.extends ((agrees_unify h).2 (he.agrees hs hσ)) hσ fun v hv => ?_
  rcases (binds_unify h).1 hv with hv | hv
  · exact he.kept.binds hv
  · exact ((is_iff_standsFor hσ).1 he.fact).2 v hv

theorem exists_unify_iff (hs : s.Ascending) :
    (∃ s', a.unify f s = some s') ↔ ∃ e, a.Completes f s e := by
  constructor
  · rintro ⟨s', h⟩
    exact ⟨s', completes_of_unify hs h⟩
  · rintro ⟨e, he⟩
    obtain ⟨σ, hσ⟩ := he.ascending.exists_agrees
    obtain ⟨hbase, hstands⟩ := he.agrees hs hσ
    exact Option.isSome_iff_exists.1 (unify_isSome hbase hstands)

/-- What unifying leads to is known by being the least that completes the atom. -/
theorem unify_eq_some_iff (hs : s.Ascending) : a.unify f s = some s' ↔
    a.Completes f s s' ∧ ∀ e, a.Completes f s e → e.Extends s' := by
  constructor
  · exact fun h => ⟨completes_of_unify hs h, fun e he => he.extends hs h⟩
  · rintro ⟨h, hleast⟩
    obtain ⟨u, hu⟩ := (exists_unify_iff hs).2 ⟨s', h⟩
    have hcompletes := completes_of_unify hs hu
    have hsame : s' = u := Substitution.Extends.antisymm h.ascending hcompletes.ascending
      (hleast u hcompletes) (h.extends hs hu)
    rw [hu, hsame]

/-- Unifying an atom with a fact succeeds exactly if the substitution can be extended so that the
atom is the fact, and it leads to the least such extension. This gives values to the variables of
the atom and to no others, and it leaves the values that are there. The query for the atom under the
substitution is there and accepts the fact, and an atom without wildcards becomes the fact. -/
theorem unify_least (hs : s.Ascending) :
    ((∃ s', a.unify f s = some s') ↔ ∃ e, a.Completes f s e) ∧
    ∀ s', (a.unify f s = some s' ↔
        a.Completes f s s' ∧ ∀ e, a.Completes f s e → e.Extends s') ∧
      (a.unify f s = some s' →
        (∀ v, s'.Binds v ↔ s.Binds v ∨ v ∈ a.varNames) ∧
        (∀ v, s.Binds v → s'.lookup v = s.lookup v) ∧
        (∃ q, a.query? s = some q ∧ q.accepts f = true) ∧
        (a.hasWildcard = false → a.instantiate? s' = some f)) := by
  refine ⟨exists_unify_iff hs, fun s' => ⟨unify_eq_some_iff hs, fun h => ?_⟩⟩
  have hcompletes := completes_of_unify hs h
  obtain ⟨σ, hσ⟩ := hcompletes.ascending.exists_agrees
  have hbinds : ∀ v, s'.Binds v ↔ s.Binds v ∨ v ∈ a.varNames := fun v => by
    rw [binds_unify h, mem_varNames]
  refine ⟨hbinds, fun v hv => ?_, exists_query?_of_unify hs h, fun hwildcard => ?_⟩
  · obtain ⟨hbase, -⟩ := hcompletes.agrees hs hσ
    rw [hbase.lookup hv, hσ.lookup ((hbinds v).2 (.inl hv))]
  · exact instantiate?_of_standsFor hσ (hcompletes.agrees hs hσ).2 hwildcard
      fun v hv => (binds_unify h).2 (.inr hv)

/-- One variable stands for the predicate and for the object, and the subject has its value
already. -/
theorem unify_least_repeated :
    let a : Atom := ⟨.var "x", .var "p", .var "p"⟩
    let f : Fact := ⟨.named "n", "q", .named "q"⟩
    let s : Substitution := [("x", .named "n")]
    ∃ s', a.unify f s = some s' ∧ (∀ e, a.Completes f s e → e.Extends s') ∧
      (∀ v, s'.Binds v ↔ s.Binds v ∨ v ∈ a.varNames) ∧
      (∃ q, a.query? s = some q ∧ q.accepts f = true) ∧ a.instantiate? s' = some f := by
  intro a f s
  have hs : s.Ascending := List.pairwise_singleton _ _
  obtain ⟨s', hs'⟩ := Option.isSome_iff_exists.1 (show (a.unify f s).isSome = true by decide)
  obtain ⟨hleast, hmore⟩ := (unify_least (a := a) (f := f) hs).2 s'
  obtain ⟨hbinds, -, hquery, hinstantiate⟩ := hmore hs'
  exact ⟨s', hs', (hleast.1 hs').2, hbinds, hquery, hinstantiate (by decide)⟩

end Atom
end FactGraph
