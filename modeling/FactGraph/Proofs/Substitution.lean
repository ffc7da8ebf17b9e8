import FactGraph.Matching
import FactGraph.Proofs.Lookup
import FactGraph.Proofs.Rulebook

/-!
# Substitutions and the valuations with which they agree

A substitution stands for the valuations that give its values to its variables. Unifying an atom
with a fact succeeds exactly if such a valuation lets the atom stand for the fact; the extended
substitution then stands for those valuations, and it has a value for every variable of the atom.
The same goes for conditions and facts, one by one (`unifyEach`), and with guards (`unifyAll`).
-/

namespace FactGraph

namespace Substitution

/-- Whether a valuation gives the values of a substitution to its variables. -/
def Agrees (s : Substitution) (σ : Valuation) : Prop := ∀ e ∈ s, σ e.1 = e.2

/-- Whether a substitution has a value for a variable. -/
def Binds (s : Substitution) (v : Text) : Prop := v ∈ s.map Prod.fst

/-- Whether the variables of a substitution stand in ascending order. -/
def Ascending (s : Substitution) : Prop := s.Pairwise fun e e' => compare e.1 e'.1 = .lt

variable {s s' : Substitution} {σ : Valuation} {v : Text} {x : Value}

theorem mem_bind (h : s.bind v x = some s') {e : Text × Value} :
    e ∈ s' ↔ e = (v, x) ∨ e ∈ s := by
  induction s generalizing s' with
  | nil => simp [← Option.some.inj h]
  | cons e' rest ih =>
    obtain ⟨w, y⟩ := e'
    rw [Substitution.bind] at h
    split at h
    · simp [← Option.some.inj h]
    · next hc =>
      have hvw : v = w := Std.LawfulEqCmp.eq_of_compare hc
      split at h
      · next hy =>
        rw [← Option.some.inj h, hvw, beq_iff_eq.1 hy]
        simp
      · cases h
    · obtain ⟨rest', h', rfl⟩ := Option.map_eq_some_iff.1 h
      rw [List.mem_cons, ih h', List.mem_cons]
      tauto

/-- Binding a variable keeps the valuations that give it the value. -/
theorem agrees_bind (h : s.bind v x = some s') : s'.Agrees σ ↔ s.Agrees σ ∧ σ v = x := by
  constructor
  · intro hσ
    exact ⟨fun e he => hσ e ((mem_bind h).2 (Or.inr he)), hσ _ ((mem_bind h).2 (Or.inl rfl))⟩
  · rintro ⟨hσ, hv⟩ e he
    rcases (mem_bind h).1 he with rfl | he
    · exact hv
    · exact hσ e he

theorem binds_bind (h : s.bind v x = some s') {w : Text} : s'.Binds w ↔ s.Binds w ∨ w = v := by
  simp only [Binds, List.mem_map, mem_bind h]
  constructor
  · rintro ⟨e, rfl | he, rfl⟩
    · exact Or.inr rfl
    · exact Or.inl ⟨e, he, rfl⟩
  · rintro (⟨e, he, rfl⟩ | rfl)
    · exact ⟨e, Or.inr he, rfl⟩
    · exact ⟨_, Or.inl rfl, rfl⟩

theorem bind_isSome (hσ : s.Agrees σ) (hv : σ v = x) : (s.bind v x).isSome := by
  induction s with
  | nil => rfl
  | cons e rest ih =>
    obtain ⟨w, y⟩ := e
    rw [Substitution.bind]
    split
    · rfl
    · next hc =>
      have hvw : v = w := Std.LawfulEqCmp.eq_of_compare hc
      have hy : y = x := by
        rw [← hv, hvw]
        exact (hσ (w, y) (List.mem_cons_self ..)).symm
      simp [hy]
    · simpa using ih fun e he => hσ e (List.mem_cons_of_mem _ he)

theorem Ascending.bind (hs : s.Ascending) (h : s.bind v x = some s') : s'.Ascending := by
  induction s generalizing s' with
  | nil =>
    rw [← Option.some.inj h]
    exact List.pairwise_singleton _ _
  | cons e rest ih =>
    obtain ⟨w, y⟩ := e
    obtain ⟨hw, hrest⟩ := List.pairwise_cons.1 hs
    rw [Substitution.bind] at h
    split at h
    · next hc =>
      rw [← Option.some.inj h]
      refine List.pairwise_cons.2 ⟨fun e he => ?_, hs⟩
      rcases List.mem_cons.1 he with rfl | he
      · exact hc
      · exact Std.TransCmp.lt_trans hc (hw e he)
    · split at h
      · exact Option.some.inj h ▸ hs
      · cases h
    · next hc =>
      obtain ⟨rest', h', rfl⟩ := Option.map_eq_some_iff.1 h
      refine List.pairwise_cons.2 ⟨fun e he => ?_, ih hrest h'⟩
      rcases (mem_bind h').1 he with rfl | he
      · exact Std.OrientedCmp.gt_iff_lt.1 hc
      · exact hw e he

theorem ascending_nil : Ascending [] := List.Pairwise.nil

theorem Ascending.nodup (hs : s.Ascending) : (s.map Prod.fst).Nodup := by
  rw [List.Nodup, List.pairwise_map]
  refine List.Pairwise.imp (fun {e e'} h heq => ?_) hs
  simp [heq] at h

/-- There is a valuation that gives its values to the variables of a substitution. -/
theorem Ascending.exists_agrees (hs : s.Ascending) : ∃ σ, s.Agrees σ := by
  refine ⟨fun v => (s.lookup v).getD default, fun e he => ?_⟩
  have : s.lookup e.1 = some e.2 := lookup_of_mem hs.nodup he
  simp only [this, Option.getD_some]

/-- The value of a variable of a substitution is the value that a valuation gives it. -/
theorem Agrees.lookup (hσ : s.Agrees σ) (hv : s.Binds v) : s.lookup v = some (σ v) := by
  cases h : s.lookup v with
  | none => exact absurd hv (lookup_eq_none_iff_not_mem.1 h)
  | some x => rw [show σ v = x from hσ _ (mem_of_lookup h)]

theorem Agrees.of_lookup (hσ : s.Agrees σ) (h : s.lookup v = some x) : σ v = x :=
  hσ _ (mem_of_lookup h)

theorem Agrees.eq_map (hσ : s.Agrees σ) : s = (s.map Prod.fst).map fun v => (v, σ v) := by
  rw [List.map_map]
  conv_lhs => rw [← List.map_id s]
  exact List.map_congr_left fun e he => Prod.ext rfl (hσ e he).symm

/-- A substitution is known by the variables that it binds and a valuation with which it agrees. -/
theorem Ascending.ext (hs : s.Ascending) (hs' : s'.Ascending) (hσ : s.Agrees σ)
    (hσ' : s'.Agrees σ) (hbinds : ∀ v, s.Binds v ↔ s'.Binds v) : s = s' := by
  have hperm : (s.map Prod.fst).Perm (s'.map Prod.fst) :=
    (List.perm_ext_iff_of_nodup hs.nodup hs'.nodup).2 hbinds
  have hkeys : s.map Prod.fst = s'.map Prod.fst := by
    have hascending : (s.map Prod.fst).Pairwise fun v w => compare v w = .lt :=
      List.pairwise_map.2 hs
    refine hperm.eq_of_pairwise (fun v w _ _ hvw hwv => ?_) hascending (List.pairwise_map.2 hs')
    exact absurd (Std.TransCmp.lt_trans hvw hwv) (by simp)
  rw [hσ.eq_map, hσ'.eq_map, hkeys]

end Substitution

/-! ## Unifying atoms with facts -/

variable {s s' : Substitution} {σ : Valuation}

namespace Term

variable {t : Term} {x : Value}

theorem agrees_unify (h : t.unify x s = some s') : s'.Agrees σ ↔ s.Agrees σ ∧ t.StandsFor σ x := by
  cases t with
  | any => simp [← Option.some.inj h, StandsFor]
  | var v => exact Substitution.agrees_bind h
  | constant c =>
    rw [unify] at h
    split at h
    · next hc => simp [← Option.some.inj h, StandsFor, beq_iff_eq.1 hc]
    · cases h

theorem binds_unify (h : t.unify x s = some s') {v : Text} :
    s'.Binds v ↔ s.Binds v ∨ t = .var v := by
  cases t with
  | any => simp [← Option.some.inj h]
  | var w => simp [Substitution.binds_bind h, eq_comm]
  | constant c =>
    rw [unify] at h
    split at h
    · simp [← Option.some.inj h]
    · cases h

theorem unify_isSome (hσ : s.Agrees σ) (ht : t.StandsFor σ x) : (t.unify x s).isSome := by
  cases t with
  | any => rfl
  | var v => exact Substitution.bind_isSome hσ ht
  | constant c => simp [unify, show c = x from ht]

theorem ascending_unify (hs : s.Ascending) (h : t.unify x s = some s') : s'.Ascending := by
  cases t with
  | any => exact Option.some.inj h ▸ hs
  | var v => exact hs.bind h
  | constant c =>
    rw [unify] at h
    split at h
    · exact Option.some.inj h ▸ hs
    · cases h

theorem values_unify {V : Set Value} (hx : x ∈ V) (hs : ∀ e ∈ s, e.2 ∈ V)
    (h : t.unify x s = some s') : ∀ e ∈ s', e.2 ∈ V := by
  cases t with
  | any => exact Option.some.inj h ▸ hs
  | var v =>
    intro e he
    rcases (Substitution.mem_bind h).1 he with rfl | he
    · exact hx
    · exact hs e he
  | constant c =>
    rw [unify] at h
    split at h
    · exact Option.some.inj h ▸ hs
    · cases h

/-- The value of a term is a value for which the term stands. -/
theorem standsFor_of_value? (hσ : s.Agrees σ) (h : t.value? s = some x) : t.StandsFor σ x := by
  cases t with
  | any => cases h
  | var v => exact hσ.of_lookup h
  | constant c => exact Option.some.inj h

theorem value?_of_standsFor (hσ : s.Agrees σ) (ht : t.StandsFor σ x) (hany : t.isAny = false)
    (hv : ∀ v, t = .var v → s.Binds v) : t.value? s = some x := by
  cases t with
  | any => cases hany
  | var v => rw [value?, hσ.lookup (hv v rfl), show σ v = x from ht]
  | constant c => rw [value?, show c = x from ht]

/-- A term that stands for a value has this value or none. -/
theorem value?_eq (hσ : s.Agrees σ) (ht : t.StandsFor σ x) :
    t.value? s = none ∨ t.value? s = some x := by
  cases h : t.value? s with
  | none => exact Or.inl rfl
  | some y =>
    have hany : t.isAny = false := by
      cases t <;> simp_all [value?, isAny]
    exact Or.inr (congrArg some ((standsFor_of_value? hσ h).unique ht hany))

end Term

namespace Atom

variable {a : Atom} {f : Fact}

/-- Unifying an atom with a fact keeps the valuations under which the atom stands for the fact. -/
theorem agrees_unify (h : a.unify f s = some s') :
    s'.Agrees σ ↔ s.Agrees σ ∧ a.StandsFor σ f := by
  obtain ⟨s₁, h₁, h⟩ := Option.bind_eq_some_iff.1 h
  obtain ⟨s₂, h₂, h⟩ := Option.bind_eq_some_iff.1 h
  rw [Term.agrees_unify h, Term.agrees_unify h₂, Term.agrees_unify h₁, standsFor_iff, and_assoc,
    and_assoc]

theorem binds_unify (h : a.unify f s = some s') {v : Text} :
    s'.Binds v ↔ s.Binds v ∨ .var v ∈ a.terms := by
  obtain ⟨s₁, h₁, h⟩ := Option.bind_eq_some_iff.1 h
  obtain ⟨s₂, h₂, h⟩ := Option.bind_eq_some_iff.1 h
  rw [Term.binds_unify h, Term.binds_unify h₂, Term.binds_unify h₁]
  simp only [terms, List.mem_cons, List.not_mem_nil, or_false, eq_comm (b := Term.var v)]
  tauto

theorem ascending_unify (hs : s.Ascending) (h : a.unify f s = some s') : s'.Ascending := by
  obtain ⟨s₁, h₁, h⟩ := Option.bind_eq_some_iff.1 h
  obtain ⟨s₂, h₂, h⟩ := Option.bind_eq_some_iff.1 h
  exact Term.ascending_unify (Term.ascending_unify (Term.ascending_unify hs h₁) h₂) h

/-- Unifying with a fact brings in values of the fact only. -/
theorem values_unify {V : Set Value} (hf : f ∈ factsOver V) (hs : ∀ e ∈ s, e.2 ∈ V)
    (h : a.unify f s = some s') : ∀ e ∈ s', e.2 ∈ V := by
  obtain ⟨s₁, h₁, h⟩ := Option.bind_eq_some_iff.1 h
  obtain ⟨s₂, h₂, h⟩ := Option.bind_eq_some_iff.1 h
  obtain ⟨hsubject, hpredicate, hobject⟩ := Fact.mem_factsOver.1 hf
  exact Term.values_unify hobject
    (Term.values_unify hpredicate (Term.values_unify hsubject hs h₁) h₂) h

theorem unify_isSome (hσ : s.Agrees σ) (ha : a.StandsFor σ f) : (a.unify f s).isSome := by
  rw [standsFor_iff] at ha
  obtain ⟨s₁, h₁⟩ := Option.isSome_iff_exists.1 (Term.unify_isSome hσ ha.1)
  have hσ₁ := (Term.agrees_unify h₁).2 ⟨hσ, ha.1⟩
  obtain ⟨s₂, h₂⟩ := Option.isSome_iff_exists.1 (Term.unify_isSome hσ₁ ha.2.1)
  have hσ₂ := (Term.agrees_unify h₂).2 ⟨hσ₁, ha.2.1⟩
  simpa [unify, h₁, h₂] using Term.unify_isSome hσ₂ ha.2.2

end Atom

/-! ## Facts from atoms -/

namespace Atom

variable {a : Atom} {f : Fact}

theorem instantiate?_eq_some :
    a.instantiate? s = some f ↔ a.subject.value? s = some (.node f.subject) ∧
      a.predicate.value? s = some (.named f.predicate) ∧ a.object.value? s = some f.object := by
  simp only [instantiate?, bind, Option.bind_eq_some_iff, pure, Option.some.injEq,
    Value.node?_eq_some, Value.name?_eq_some]
  constructor
  · rintro ⟨_, hs, _, hp, _, ho, _, rfl, _, rfl, rfl⟩
    exact ⟨hs, hp, ho⟩
  · rintro ⟨hs, hp, ho⟩
    exact ⟨_, hs, _, hp, _, ho, _, rfl, _, rfl, rfl⟩

/-- An atom becomes a fact for which it stands. -/
theorem standsFor_of_instantiate? (hσ : s.Agrees σ) (h : a.instantiate? s = some f) :
    a.StandsFor σ f := by
  obtain ⟨hs, hp, ho⟩ := instantiate?_eq_some.1 h
  exact standsFor_iff.2 ⟨Term.standsFor_of_value? hσ hs, Term.standsFor_of_value? hσ hp,
    Term.standsFor_of_value? hσ ho⟩

theorem isAny_of_mem (ha : a.hasWildcard = false) {t : Term} (ht : t ∈ a.terms) :
    t.isAny = false := by
  simpa using List.any_eq_false.1 ha t ht

/-- An atom without wildcards becomes the fact for which it stands if its variables have values. -/
theorem instantiate?_of_standsFor (hσ : s.Agrees σ) (h : a.StandsFor σ f)
    (ha : a.hasWildcard = false) (hv : ∀ v, .var v ∈ a.terms → s.Binds v) :
    a.instantiate? s = some f := by
  have hvalue {t : Term} {x : Value} (ht : t ∈ a.terms) (hx : t.StandsFor σ x) :
      t.value? s = some x :=
    Term.value?_of_standsFor hσ hx (isAny_of_mem ha ht) fun v e => hv v (e ▸ ht)
  rw [standsFor_iff] at h
  rw [instantiate?_eq_some]
  exact ⟨hvalue (by simp [terms]) h.1, hvalue (by simp [terms]) h.2.1,
    hvalue (by simp [terms]) h.2.2⟩

/-! ## Queries from atoms -/

/-- The fields that a query asks for are the values of the terms. -/
theorem query?_eq_some {q : Query} :
    a.query? s = some q ↔ a.subject.value? s = q.subject.map Value.node ∧
      a.predicate.value? s = q.predicate.map Value.named ∧ a.object.value? s = q.object := by
  obtain ⟨subject, predicate, object⟩ := q
  cases hs : a.subject.value? s <;> cases hp : a.predicate.value? s <;>
    cases subject <;> cases predicate <;>
    simp [query?, hs, hp, Option.bind_eq_some_iff, Value.node?_eq_some, Value.name?_eq_some]

/-- There is a query for an atom that stands for a fact, and it accepts the fact. -/
theorem exists_query? (hσ : s.Agrees σ) (h : a.StandsFor σ f) :
    ∃ q, a.query? s = some q ∧ q.accepts f = true := by
  rw [standsFor_iff] at h
  refine ⟨⟨(a.subject.value? s).map fun _ => f.subject,
    (a.predicate.value? s).map fun _ => f.predicate, a.object.value? s⟩, ?_, ?_⟩
  · rw [query?_eq_some]
    rcases Term.value?_eq hσ h.1 with hs | hs <;> rcases Term.value?_eq hσ h.2.1 with hp | hp <;>
      simp [hs, hp]
  · rcases Term.value?_eq hσ h.1 with hs | hs <;> rcases Term.value?_eq hσ h.2.1 with hp | hp <;>
      rcases Term.value?_eq hσ h.2.2 with ho | ho <;>
      simp [Query.accepts, Query.agrees, hs, hp, ho]

/-- A fact with which an atom can be unified is accepted by the query for the atom. -/
theorem exists_query?_of_unify (hs : s.Ascending) (h : a.unify f s = some s') :
    ∃ q, a.query? s = some q ∧ q.accepts f = true := by
  obtain ⟨σ, hσ⟩ := (ascending_unify hs h).exists_agrees
  obtain ⟨hagrees, hstands⟩ := (agrees_unify h).1 hσ
  exact exists_query? hagrees hstands

/-! ## Values of atoms -/

section Values

variable {V : Set Value} (ha : ∀ c ∈ a.constants, c ∈ V) (hs : ∀ e ∈ s, e.2 ∈ V)

include ha hs

theorem mem_of_value? {t : Term} (ht : t ∈ a.terms) {x : Value} (hx : t.value? s = some x) :
    x ∈ V := by
  cases t with
  | any => cases hx
  | var v => exact hs _ (mem_of_lookup hx)
  | constant c => exact Option.some.inj hx ▸ ha c (Term.mem_constants.2 ht)

/-- A query without open fields asks for a fact over the values of the atom and the substitution. -/
theorem mem_factsOver_of_query? {q : Query} (hq : a.query? s = some q) (hf : q.fact? = some f) :
    f ∈ factsOver V := by
  obtain ⟨subject, predicate, object⟩ := q
  obtain ⟨hsubject, hpredicate, hobject⟩ := query?_eq_some.1 hq
  simp only [Query.fact?, bind, Option.bind_eq_some_iff, pure, Option.some.injEq] at hf
  obtain ⟨n, rfl, p, rfl, o, rfl, rfl⟩ := hf
  rw [Fact.mem_factsOver]
  exact ⟨mem_of_value? ha hs (by simp [terms]) hsubject,
    mem_of_value? ha hs (by simp [terms]) hpredicate, mem_of_value? ha hs (by simp [terms]) hobject⟩

/-- What an atom becomes is a fact over its values and those of the substitution. -/
theorem mem_factsOver_of_instantiate? (h : a.instantiate? s = some f) : f ∈ factsOver V := by
  obtain ⟨hsubject, hpredicate, hobject⟩ := instantiate?_eq_some.1 h
  rw [Fact.mem_factsOver]
  exact ⟨mem_of_value? ha hs (by simp [terms]) hsubject,
    mem_of_value? ha hs (by simp [terms]) hpredicate, mem_of_value? ha hs (by simp [terms]) hobject⟩

end Values

end Atom
end FactGraph
