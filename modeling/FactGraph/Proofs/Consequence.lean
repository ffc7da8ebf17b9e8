import Mathlib.Order.Bounds.Basic
import Mathlib.Data.List.Forall2
import FactGraph.Rulebook

/-!
# Consequences

What rules say about facts, told without a procedure. A valuation gives values to all variables at
once. Under it an atom stands for facts, a condition holds of those of them that its guard accepts,
and a rule in force derives what its heads stand for from facts of which its conditions hold.

The consequences of facts are the least set of facts that contains them and everything that rules
derive from its members (`isLeast_consequences`).
-/

namespace FactGraph

/-- Values of all variables. -/
abbrev Valuation := Text → Value

/-- Whether a term stands for a value; a wildcard stands for every value. -/
def Term.StandsFor (σ : Valuation) : Term → Value → Prop
  | .any, _ => True
  | .var v, x => σ v = x
  | .constant c, x => c = x

/-- The values in the three places of a fact, a predicate being the named node of its name. -/
def Fact.values (f : Fact) : List Value := [.node f.subject, .named f.predicate, f.object]

/-- Whether an atom stands for a fact. -/
def Atom.StandsFor (σ : Valuation) (a : Atom) (f : Fact) : Prop :=
  List.Forall₂ (Term.StandsFor σ) a.terms f.values

/-- Whether a condition holds of a fact: its atom stands for the fact, and its guard accepts the
value of its variable. -/
def Condition.HoldsOf (σ : Valuation) (c : Condition) (f : Fact) : Prop :=
  c.atom.StandsFor σ f ∧ ∀ g ∈ c.guard, g.holds (σ g.var) = true

/-- Whether a rule in force derives a fact from members of a set. -/
def Rule.Yields (r : Rule) (A : Set Fact) (f : Fact) : Prop :=
  r.enabled = true ∧ ∃ σ premises, List.Forall₂ (Condition.HoldsOf σ) r.conditions premises ∧
    (∀ g ∈ premises, g ∈ A) ∧ ∃ head ∈ r.heads, head.hasWildcard = false ∧ head.StandsFor σ f

/-- Whether some rule derives a fact from members of a set. -/
def Follows (rules : List Rule) (A : Set Fact) (f : Fact) : Prop := ∃ r ∈ rules, r.Yields A f

/-- Whether a set contains everything that rules derive from its members. -/
def Closed (rules : List Rule) (A : Set Fact) : Prop := ∀ f, Follows rules A f → f ∈ A

/-- What every closed set contains that contains the given facts. -/
def consequences (rules : List Rule) (A : Set Fact) : Set Fact :=
  {f | ∀ B, A ⊆ B → Closed rules B → f ∈ B}

/-! ## The least closed set -/

variable {rules : List Rule} {A B : Set Fact} {f : Fact}

theorem Rule.Yields.mono {r : Rule} (h : r.Yields A f) (hAB : A ⊆ B) : r.Yields B f := by
  obtain ⟨enabled, σ, premises, matched, mem, head⟩ := h
  exact ⟨enabled, σ, premises, matched, fun g hg => hAB (mem g hg), head⟩

theorem Follows.mono (h : Follows rules A f) (hAB : A ⊆ B) : Follows rules B f := by
  obtain ⟨r, hr, hf⟩ := h
  exact ⟨r, hr, hf.mono hAB⟩

theorem subset_consequences (rules : List Rule) (A : Set Fact) : A ⊆ consequences rules A :=
  fun _ hf _ hA _ => hA hf

theorem consequences_subset (hA : A ⊆ B) (hB : Closed rules B) : consequences rules A ⊆ B :=
  fun _ hf => hf B hA hB

theorem closed_consequences (rules : List Rule) (A : Set Fact) :
    Closed rules (consequences rules A) :=
  fun f hf _ hA hB => hB f (hf.mono (consequences_subset hA hB))

theorem isLeast_consequences (rules : List Rule) (A : Set Fact) :
    IsLeast {B | A ⊆ B ∧ Closed rules B} (consequences rules A) :=
  ⟨⟨subset_consequences rules A, closed_consequences rules A⟩,
    fun _ hB => consequences_subset hB.1 hB.2⟩

/-- What holds of the given facts, and of what follows from consequences of which it holds, holds of
all consequences. -/
theorem consequences_induction {motive : Fact → Prop} (given : ∀ f ∈ A, motive f)
    (step : ∀ f, Follows rules {g | g ∈ consequences rules A ∧ motive g} f → motive f)
    (hf : f ∈ consequences rules A) : motive f := by
  have hA : A ⊆ {g | g ∈ consequences rules A ∧ motive g} := fun g hg =>
    ⟨subset_consequences rules A hg, given g hg⟩
  have hB : Closed rules {g | g ∈ consequences rules A ∧ motive g} := fun g hg =>
    ⟨closed_consequences rules A g (hg.mono fun _ h => h.1), step g hg⟩
  exact (hf _ hA hB).2

/-- Nothing follows from no facts if all rules have conditions. -/
theorem consequences_empty (h : ∀ r ∈ rules, r.conditions ≠ []) : consequences rules ∅ = ∅ := by
  refine Set.subset_empty_iff.1 (consequences_subset Set.Subset.rfl fun f hf => ?_)
  obtain ⟨r, hr, -, σ, premises, hmatch, hpremises, -⟩ := hf
  cases premises with
  | nil => exact absurd (List.forall₂_nil_right_iff.1 hmatch) (h r hr)
  | cons g premises => exact hpremises g (List.mem_cons_self ..)

/-! ## Derivations -/

/-- Lists each of whose entries has something to do with the entries in front of it. -/
inductive Successive {α : Type} (P : List α → α → Prop) : List α → Prop
  /-- There are no entries. -/
  | nil : Successive P []
  /-- There is one more entry. -/
  | snoc {l : List α} {a : α} : Successive P l → P l a → Successive P (l ++ [a])

namespace Successive

variable {α : Type} {P : List α → α → Prop} {l : List α}

theorem of_eq_append (h : Successive P l) {before after : List α} {a : α}
    (hl : l = before ++ a :: after) : P before a ∧ Successive P (before ++ [a]) := by
  induction h generalizing after with
  | nil => simp at hl
  | @snoc l b hbefore hb ih =>
    rcases List.eq_nil_or_concat after with rfl | ⟨after', b', rfl⟩
    · obtain ⟨rfl, hab⟩ := List.append_inj' hl rfl
      rw [List.cons.injEq] at hab
      exact hab.1 ▸ ⟨hb, hbefore.snoc hb⟩
    · rw [List.concat_eq_append, ← List.cons_append, ← List.append_assoc] at hl
      exact ih (List.append_inj' hl rfl).1

end Successive

/-- Lists of facts each of which follows from given facts and those in front of it. -/
abbrev Derivation (rules : List Rule) (A : Set Fact) : List Fact → Prop :=
  Successive fun l f => Follows rules (A ∪ {g | g ∈ l}) f

theorem Derivation.mem_consequences {l : List Fact} (h : Derivation rules A l) :
    ∀ f ∈ l, f ∈ consequences rules A := by
  induction h with
  | nil => simp
  | snoc _ hf ih =>
    intro g hg
    rcases List.mem_append.1 hg with hg | hg
    · exact ih g hg
    · rw [List.mem_singleton.1 hg]
      exact closed_consequences rules A _
        (hf.mono (Set.union_subset (subset_consequences rules A) ih))

/-! ## Values of facts -/

namespace Value

variable {x : Value}

theorem node?_eq_some {n : Node} : x.node? = some n ↔ x = .node n := by
  cases x <;> simp [node?]

theorem name?_eq_some {p : Text} : x.name? = some p ↔ x = .named p := by
  cases x with
  | node n => cases n <;> simp [name?, Node.name?]
  | _ => simp [name?]

end Value

/-- The facts all of whose values belong to a set. -/
def factsOver (V : Set Value) : Set Fact := {f | ∀ x ∈ f.values, x ∈ V}

/-- The value that a term is. -/
def Term.constant? : Term → Option Value
  | .constant c => some c
  | _ => none

/-- The values in an atom. -/
def Atom.constants (a : Atom) : List Value := a.terms.filterMap Term.constant?

/-- The values in the conditions and the heads of a rule. -/
def Rule.constants (r : Rule) : List Value :=
  r.conditions.flatMap (fun c => c.atom.constants) ++ r.heads.flatMap Atom.constants

/-- The values in given facts and in rules. -/
def vocabulary (rules : List Rule) (A : Set Fact) : Set Value :=
  {x | (∃ f ∈ A, x ∈ f.values) ∨ ∃ r ∈ rules, x ∈ r.constants}

theorem vocabulary_singleton (rules : List Rule) (f : Fact) :
    vocabulary rules {f} = {x | x ∈ f.values ++ rules.flatMap Rule.constants} :=
  Set.ext fun x => by simp [vocabulary]

theorem subset_factsOver_vocabulary (rules : List Rule) (A : Set Fact) :
    A ⊆ factsOver (vocabulary rules A) :=
  fun f hf _ hx => Or.inl ⟨f, hf, hx⟩

theorem factsOver_mono {V W : Set Value} (h : V ⊆ W) : factsOver V ⊆ factsOver W :=
  fun _ hf x hx => h (hf x hx)

theorem subset_factsOver {V : Set Value} (h : vocabulary rules A ⊆ V) : A ⊆ factsOver V :=
  (subset_factsOver_vocabulary rules A).trans (factsOver_mono h)

@[simp] theorem Fact.mem_factsOver {V : Set Value} {f : Fact} :
    f ∈ factsOver V ↔ .node f.subject ∈ V ∧ .named f.predicate ∈ V ∧ f.object ∈ V := by
  simp [factsOver, Fact.values]

theorem Term.mem_constants {a : Atom} {c : Value} :
    c ∈ a.constants ↔ .constant c ∈ a.terms := by
  simp only [Atom.constants, List.mem_filterMap]
  constructor
  · rintro ⟨t, ht, h⟩
    cases t <;> simp [Term.constant?] at h
    exact h ▸ ht
  · intro h
    exact ⟨_, h, rfl⟩

/-! ## Atoms and the facts for which they stand -/

variable {σ τ : Valuation} {a : Atom}

theorem Atom.standsFor_iff : a.StandsFor σ f ↔
    a.subject.StandsFor σ (.node f.subject) ∧ a.predicate.StandsFor σ (.named f.predicate) ∧
      a.object.StandsFor σ f.object := by
  simp [Atom.StandsFor, Atom.terms, Fact.values]

/-- The value of a variable of an atom is a value of the fact. -/
theorem Atom.StandsFor.value_mem (h : a.StandsFor σ f) {v : Text} (hv : .var v ∈ a.terms) :
    σ v ∈ f.values := by
  rw [Atom.standsFor_iff] at h
  simp only [Atom.terms, List.mem_cons, List.not_mem_nil, or_false] at hv
  obtain ⟨hs, hp, ho⟩ := h
  rcases hv with e | e | e
  · rw [← e] at hs
    simp [Fact.values, show σ v = .node f.subject from hs]
  · rw [← e] at hp
    simp [Fact.values, show σ v = .named f.predicate from hp]
  · rw [← e] at ho
    simp [Fact.values, show σ v = f.object from ho]

theorem Atom.StandsFor.constant_mem (h : a.StandsFor σ f) {x : Value} (hx : x ∈ a.constants) :
    x ∈ f.values := by
  rw [Atom.standsFor_iff] at h
  rw [Term.mem_constants] at hx
  simp only [Atom.terms, List.mem_cons, List.not_mem_nil, or_false] at hx
  obtain ⟨hs, hp, ho⟩ := h
  rcases hx with e | e | e
  · rw [← e] at hs
    simp [Fact.values, show x = .node f.subject from hs]
  · rw [← e] at hp
    simp [Fact.values, show x = .named f.predicate from hp]
  · rw [← e] at ho
    simp [Fact.values, show x = f.object from ho]

/-- A term that is no wildcard stands for one value only. -/
theorem Term.StandsFor.unique {t : Term} {x y : Value} (hx : t.StandsFor σ x)
    (hy : t.StandsFor σ y) (ht : t.isAny = false) : x = y := by
  cases t with
  | any => simp [Term.isAny] at ht
  | var v => exact hx.symm.trans hy
  | constant c => exact hx.symm.trans hy

theorem Fact.ext_values {f g : Fact} (h : f.values = g.values) : f = g := by
  cases f
  cases g
  simp only [Fact.values, List.cons.injEq, Value.node.injEq, Value.named, Node.named.injEq,
    and_true] at h
  obtain ⟨rfl, rfl, rfl⟩ := h
  rfl

/-- An atom without wildcards stands for one fact only. -/
theorem Atom.StandsFor.unique {g : Fact} (hf : a.StandsFor σ f) (hg : a.StandsFor σ g)
    (ha : a.hasWildcard = false) : f = g := by
  rw [Atom.standsFor_iff] at hf hg
  simp only [Atom.hasWildcard, Atom.terms, List.any_cons, List.any_nil, Bool.or_eq_false_iff] at ha
  apply Fact.ext_values
  rw [Fact.values, Fact.values, hf.1.unique hg.1 ha.1, hf.2.1.unique hg.2.1 ha.2.1,
    hf.2.2.unique hg.2.2 ha.2.2.1]

/-- Only the values of the variables that occur in a term matter. -/
theorem Term.StandsFor.congr {t : Term} {x : Value} (h : t.StandsFor σ x)
    (hv : ∀ v, t = .var v → σ v = τ v) : t.StandsFor τ x := by
  cases t with
  | any => trivial
  | var v => exact (hv v rfl).symm.trans h
  | constant c => exact h

/-- Only the values of the variables that occur in an atom matter. -/
theorem Atom.StandsFor.congr (h : a.StandsFor σ f) (hv : ∀ v, .var v ∈ a.terms → σ v = τ v) :
    a.StandsFor τ f := by
  rw [Atom.standsFor_iff] at h ⊢
  refine ⟨h.1.congr fun v e => hv v ?_, h.2.1.congr fun v e => hv v ?_,
    h.2.2.congr fun v e => hv v ?_⟩ <;> simp [Atom.terms, e]

/-- An atom that a query asks for stands for the facts that the query accepts. -/
theorem Atom.standsFor_ofQuery {q : Query} :
    (Atom.ofQuery q).StandsFor σ f ↔ q.accepts f = true := by
  obtain ⟨subject, predicate, object⟩ := q
  rw [Atom.standsFor_iff]
  cases subject <;> cases predicate <;> cases object <;>
    simp [Atom.ofQuery, Term.StandsFor, Term.named, Value.named, Query.accepts, Query.agrees,
      and_assoc]

/-- The constants of an atom that a query asks for are what stands in the fields of the query. -/
theorem Atom.forall_constants_ofQuery {P : Value → Prop} {q : Query} :
    (∀ x ∈ (Atom.ofQuery q).constants, P x) ↔ (∀ n ∈ q.subject, P (.node n)) ∧
      (∀ p ∈ q.predicate, P (.named p)) ∧ ∀ o ∈ q.object, P o := by
  obtain ⟨subject, predicate, object⟩ := q
  cases subject <;> cases predicate <;> cases object <;>
    simp [Atom.ofQuery, Atom.constants, Atom.terms, Term.constant?, Term.named, Value.named, or_imp,
      forall_and]

theorem Atom.not_var_mem_ofQuery {q : Query} {v : Text} : .var v ∉ (Atom.ofQuery q).terms := by
  obtain ⟨subject, predicate, object⟩ := q
  cases subject <;> cases predicate <;> cases object <;> simp [Atom.ofQuery, Atom.terms, Term.named]

end FactGraph
