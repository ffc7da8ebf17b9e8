import FactGraph.Proofs.Bindings
import FactGraph.Proofs.Substitution

/-!
# What atoms are under bindings

A search asks for the facts that an atom is under its bindings, and concludes what a head is under
them. Both are read off the valuations that the bindings admit: an atom becomes a query that accepts
the facts for which it stands under such a valuation, and it becomes a fact if all of them give its
variables the same values (`Fixed`).
-/

namespace FactGraph.Bindings

variable {b b' : Bindings} {σ : Valuation} {a a' : Atom} {f : Fact} {V : Set Value}

/-! ## Values -/

/-- Whether the values of bindings are among given ones. -/
def Over (V : Set Value) (b : Bindings) : Prop := ∀ e ∈ b.values, e.2 ∈ V

/-- Whether a term is no constant but one of given values. -/
def TermOver (V : Set Value) (t : Term) : Prop := ∀ x, t = .constant x → x ∈ V

theorem Over.resolve (h : b.Over V) {t : Term} (ht : TermOver V t) : TermOver V (b.resolve t) := by
  intro x hx
  cases t with
  | any => cases hx
  | constant c => exact ht x hx
  | var v =>
    rw [Bindings.resolve] at hx
    split at hx
    · next y hl =>
      rw [← Term.constant.inj hx]
      exact h _ (mem_of_lookup hl)
    · cases hx

theorem Over.bind {v : Text} {x : Value} (h : b.Over V) (hx : x ∈ V) (hb : b.bind v x = some b') :
    b'.Over V := by
  rw [Bindings.bind] at hb
  split at hb
  · cases hb
    exact List.forall_mem_cons.2 ⟨hx, h⟩
  · split at hb
    · exact Option.some.inj hb ▸ h
    · cases hb

theorem Over.join {v w : Text} (h : b.Over V) (hb : b.join v w = some b') : b'.Over V := by
  rw [Bindings.join] at hb
  split at hb
  · exact Option.some.inj hb ▸ h
  · split at hb
    · split at hb
      · exact Option.some.inj hb ▸ h
      · cases hb
    · next x hl _ =>
      cases hb
      have hx : x ∈ V := h (b.root v, x) (mem_of_lookup hl)
      exact List.forall_mem_cons.2 ⟨hx, fun e he => h e (List.mem_filter.1 he).1⟩
    · cases hb
      exact h

theorem Over.unify? {s t : Term} (h : b.Over V) (hs : TermOver V s) (ht : TermOver V t)
    (hb : b.unify? s t = some b') : b'.Over V := by
  have hs := h.resolve hs
  have ht := h.resolve ht
  rw [Bindings.unify?] at hb
  split at hb
  · exact Option.some.inj hb ▸ h
  · exact Option.some.inj hb ▸ h
  · split at hb
    · exact Option.some.inj hb ▸ h
    · cases hb
  · exact h.join hb
  · next heq => exact h.bind (ht _ heq) hb
  · next heq _ => exact h.bind (hs _ heq) hb

theorem Over.unifyEach? {equations : List (Term × Term)} (h : b.Over V)
    (he : ∀ e ∈ equations, TermOver V e.1 ∧ TermOver V e.2)
    (hb : b.unifyEach? equations = some b') : b'.Over V := by
  induction equations generalizing b with
  | nil => exact Option.some.inj hb ▸ h
  | cons e rest ih =>
    rw [List.forall_mem_cons] at he
    obtain ⟨b₁, hb₁, hb⟩ := Option.bind_eq_some_iff.1 hb
    exact ih (h.unify? he.1.1 he.1.2 hb₁) he.2 hb

theorem termOver_of_constants (ha : ∀ x ∈ a.constants, x ∈ V) {t : Term} (ht : t ∈ a.terms) :
    TermOver V t := by
  rintro x rfl
  exact ha x (Term.mem_constants.2 ht)

/-- Unifying atoms brings in values of the atoms only. -/
theorem Over.unifyAtoms? (h : b.Over V) (ha : ∀ x ∈ a.constants, x ∈ V)
    (ha' : ∀ x ∈ a'.constants, x ∈ V) (hb : b.unifyAtoms? a a' = some b') : b'.Over V :=
  h.unifyEach? (fun _ he => ⟨termOver_of_constants ha (List.of_mem_zip he).1,
    termOver_of_constants ha' (List.of_mem_zip he).2⟩) hb

theorem mem_constants_ofFact {x : Value} : x ∈ (Atom.ofFact f).constants ↔ x ∈ f.values := by
  simp [Atom.constants, Atom.terms, Atom.ofFact, Term.named, Term.constant?, Fact.values]

theorem Over.constants_resolve (h : b.Over V) (ha : ∀ x ∈ a.constants, x ∈ V) :
    ∀ x ∈ (a.map b.resolve).constants, x ∈ V := by
  intro x hx
  rw [Term.mem_constants] at hx
  obtain ⟨t, ht, heq⟩ := List.mem_map.1 (show .constant x ∈ a.terms.map b.resolve from hx)
  exact h.resolve (termOver_of_constants ha ht) x heq

/-! ## Atoms -/

theorem Admits.standsFor_map_resolve (hσ : b.Admits σ) (hb : b.WellFormed) :
    (a.map b.resolve).StandsFor σ f ↔ a.StandsFor σ f := by
  simp only [Atom.standsFor_iff, Atom.map, hσ.standsFor_resolve hb]

/-- An atom stands for the fact that it is. -/
theorem Admits.standsFor_of_instantiate? (hσ : b.Admits σ) (hb : b.WellFormed)
    (h : (a.map b.resolve).instantiate? [] = some f) : a.StandsFor σ f :=
  (hσ.standsFor_map_resolve hb).1 (Atom.standsFor_of_instantiate? (by simp [Substitution.Agrees]) h)

/-- There is a query for an atom that stands for a fact, and it accepts the fact. -/
theorem Admits.exists_query? (hσ : b.Admits σ) (hb : b.WellFormed) (h : a.StandsFor σ f) :
    ∃ q, (a.map b.resolve).query? [] = some q ∧ q.accepts f = true :=
  Atom.exists_query? (s := []) (by simp [Substitution.Agrees])
    ((hσ.standsFor_map_resolve hb).2 h)

/-- A query for one fact asks for a fact over the values of the atom and the bindings. -/
theorem Over.mem_factsOver (h : b.Over V) (ha : ∀ x ∈ a.constants, x ∈ V) {q : Query}
    (hq : (a.map b.resolve).query? [] = some q) (hf : q.fact? = some f) : f ∈ factsOver V :=
  Atom.mem_factsOver_of_query? (h.constants_resolve ha) (by simp) hq hf

/-! ## Fixed variables -/

/-- Whether a variable has one value under all valuations that bindings admit. -/
def Fixed (b : Bindings) (v : Text) : Prop := ∀ σ τ, b.Admits σ → b.Admits τ → σ v = τ v

theorem Fixed.mono {v : Text} (h : b.Fixed v) (hbb' : ∀ σ, b'.Admits σ → b.Admits σ) :
    b'.Fixed v := fun σ τ hσ hτ => h σ τ (hbb' σ hσ) (hbb' τ hτ)

theorem Fixed.resolve {v : Text} (h : b.Fixed v) (hb : b.WellFormed) (hσ : b.Admits σ) :
    b.resolve (.var v) = .constant (σ v) :=
  hb.resolve_of_fixed fun τ hτ => h τ σ hτ hσ

/-- Where an atom always stands for one fact its variables are fixed. -/
theorem fixed_of_standsFor (h : ∀ σ, b.Admits σ → a.StandsFor σ f) {v : Text}
    (hv : .var v ∈ a.terms) : b.Fixed v := by
  have hvalue {t : Term} (ht : t = .var v) (x : Value) (hx : ∀ σ, b.Admits σ → t.StandsFor σ x) :
      b.Fixed v := by
    subst ht
    exact fun σ τ hσ hτ => (hx σ hσ).trans (hx τ hτ).symm
  simp only [Atom.terms, List.mem_cons, List.not_mem_nil, or_false] at hv
  rcases hv with hv | hv | hv
  · exact hvalue hv.symm _ fun σ hσ => (Atom.standsFor_iff.1 (h σ hσ)).1
  · exact hvalue hv.symm _ fun σ hσ => (Atom.standsFor_iff.1 (h σ hσ)).2.1
  · exact hvalue hv.symm _ fun σ hσ => (Atom.standsFor_iff.1 (h σ hσ)).2.2

/-- An atom without wildcards whose variables are fixed is the fact for which it stands. -/
theorem instantiate?_of_fixed (hb : b.WellFormed) (hσ : b.Admits σ) (ha : a.hasWildcard = false)
    (hfixed : ∀ v, .var v ∈ a.terms → b.Fixed v) (h : a.StandsFor σ f) :
    (a.map b.resolve).instantiate? [] = some f := by
  -- Every term has become a constant.
  have hconstant : ∀ t ∈ a.terms, ∃ x, b.resolve t = .constant x := by
    intro t ht
    cases t with
    | any => exact absurd (Atom.isAny_of_mem ha ht) (by simp [Term.isAny])
    | var v => exact ⟨_, (hfixed v ht).resolve hb hσ⟩
    | constant c => exact ⟨c, rfl⟩
  have hterms : ∀ t ∈ (a.map b.resolve).terms, ∃ x, t = .constant x := by
    intro t ht
    obtain ⟨t', ht', rfl⟩ := List.mem_map.1 (show t ∈ a.terms.map b.resolve from ht)
    exact hconstant t' ht'
  have hnil : Substitution.Agrees [] σ := by simp [Substitution.Agrees]
  refine Atom.instantiate?_of_standsFor hnil
    ((hσ.standsFor_map_resolve hb).2 h) ?_ fun v hv => ?_
  · refine List.any_eq_false.2 fun t ht => ?_
    obtain ⟨x, rfl⟩ := hterms t ht
    simp [Term.isAny]
  · obtain ⟨x, hx⟩ := hterms _ hv
    cases hx

/-! ## Guards -/

theorem Admits.guard_of_satisfies (hσ : b.Admits σ) (hb : b.WellFormed) {guard : Option Guard}
    (h : b.satisfies guard = true) : ∀ g ∈ guard, g.holds (σ g.var) = true := by
  intro g hg
  rw [Option.mem_def] at hg
  subst hg
  rw [satisfies] at h
  split at h
  · next x hx =>
    have hσx := (hσ.standsFor_resolve hb (.var g.var) x).1 (by rw [hx]; rfl)
    rwa [show σ g.var = x from hσx]
  · cases h

/-- A guard on a fixed variable is satisfied if it holds of its value. -/
theorem satisfies_of_fixed (hb : b.WellFormed) (hσ : b.Admits σ) {guard : Option Guard}
    (h : ∀ g ∈ guard, b.Fixed g.var ∧ g.holds (σ g.var) = true) : b.satisfies guard = true := by
  cases guard with
  | none => rfl
  | some g =>
    obtain ⟨hfixed, hholds⟩ := h g rfl
    rw [satisfies, hfixed.resolve hb hσ]
    exact hholds

end FactGraph.Bindings
