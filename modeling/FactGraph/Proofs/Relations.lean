import Mathlib.Logic.Relation
import FactGraph.Proofs.Forward
import FactGraph.Proofs.Refinement
import FactGraph.Rulebook.Standard

/-!
# What the standard rules derive

The rules on common relations derive from parents and children, marriages, classes and their members
what these words mean: ancestors are reached by chains of parents, membership goes up along chains
of subclasses, and marriage holds both ways (`Meant`). Forward chaining with them leaves exactly
that, and with the rule for one transitive relation it leaves the transitive closure of the relation
(`Store.infer_relations`).

Each relation is settled by itself, from what the rules derive for its predicate in one step. The
last node of a chain may be any value, while all before it are nodes, since a value that is no node
is not the subject of a fact.
-/

namespace FactGraph

open Relation

variable {rules : List Rule} {A B : Set Fact} {p q t : Text} {f : Fact} {n : Node} {x : Value}

/-! ## Consequences with one predicate -/

/-- A consequence is given, or follows from consequences. -/
theorem mem_consequences_iff : f ∈ consequences rules A ↔
    f ∈ A ∨ Follows rules (consequences rules A) f := by
  constructor
  · refine consequences_induction (fun f hf => Or.inl hf) fun f hf => Or.inr ?_
    exact hf.mono fun g hg => hg.1
  · rintro (hf | hf)
    · exact subset_consequences rules A hf
    · exact closed_consequences rules A f hf

/-- What holds of the given facts with a predicate, and of what follows from consequences where it
holds of those with the predicate, holds of all consequences with the predicate. -/
theorem relation_induction {motive : Node → Value → Prop}
    (given : ∀ n x, ⟨n, p, x⟩ ∈ A → motive n x)
    (step : ∀ n x, Follows rules {g | g ∈ consequences rules A ∧
      (g.predicate = p → motive g.subject g.object)} ⟨n, p, x⟩ → motive n x)
    (h : ⟨n, p, x⟩ ∈ consequences rules A) : motive n x := by
  refine consequences_induction (motive := fun f => f.predicate = p → motive f.subject f.object)
    ?_ ?_ h rfl
  · rintro ⟨m, _, y⟩ hf rfl
    exact given m y hf
  · rintro ⟨m, _, y⟩ hf rfl
    exact step m y hf

/-- Whether a value is a node that a fact with a predicate relates to another value. -/
def Relates (A : Set Fact) (p : Text) (x y : Value) : Prop := ∃ n, x = .node n ∧ ⟨n, p, y⟩ ∈ A

theorem relates_node {y : Value} : Relates A p (.node n) y ↔ ⟨n, p, y⟩ ∈ A := by
  simp [Relates]

theorem mem_consequences_of_barren (h : ∀ B, ¬ Follows rules B f) :
    f ∈ consequences rules A ↔ f ∈ A := by
  rw [mem_consequences_iff, or_iff_left (h _)]

/-- A relation that holds both ways. -/
theorem mem_consequences_symmetric
    (h : ∀ B n x, Follows rules B ⟨n, p, x⟩ ↔ ∃ m, x = .node m ∧ ⟨m, p, .node n⟩ ∈ B) :
    ⟨n, p, x⟩ ∈ consequences rules A ↔
      ⟨n, p, x⟩ ∈ A ∨ ∃ m, x = .node m ∧ ⟨m, p, .node n⟩ ∈ A := by
  constructor
  · refine relation_induction
      (motive := fun n x => ⟨n, p, x⟩ ∈ A ∨ ∃ m, x = .node m ∧ ⟨m, p, .node n⟩ ∈ A)
      (fun n x hf => Or.inl hf) fun n x hf => ?_
    obtain ⟨m, rfl, -, hm⟩ := (h _ _ _).1 hf
    rcases hm rfl with hm | ⟨k, hk, hm⟩
    · exact Or.inr ⟨m, rfl, hm⟩
    · obtain rfl := Value.node.inj hk
      exact Or.inl hm
  · rintro (hf | ⟨m, rfl, hm⟩)
    · exact subset_consequences rules A hf
    · exact closed_consequences rules A _ ((h _ _ _).2 ⟨m, rfl, subset_consequences rules A hm⟩)

/-- A relation that is made transitive is its transitive closure. -/
theorem mem_consequences_transitive
    (h : ∀ B n x, Follows rules B ⟨n, p, x⟩ ↔ ∃ m, ⟨n, p, .node m⟩ ∈ B ∧ ⟨m, p, x⟩ ∈ B) :
    ⟨n, p, x⟩ ∈ consequences rules A ↔ TransGen (Relates A p) (.node n) x := by
  constructor
  · refine relation_induction (motive := fun n x => TransGen (Relates A p) (.node n) x)
      (fun n x hf => .single (relates_node.2 hf)) fun n x hf => ?_
    obtain ⟨m, ⟨-, hn⟩, ⟨-, hm⟩⟩ := (h _ _ _).1 hf
    exact (hn rfl).trans (hm rfl)
  · intro hpath
    induction hpath with
    | single hstep => exact subset_consequences rules A (relates_node.1 hstep)
    | tail _ hstep ih =>
      obtain ⟨m, rfl, hm⟩ := hstep
      exact closed_consequences rules A _ ((h _ _ _).2 ⟨m, ih, subset_consequences rules A hm⟩)

/-- A relation that goes on along another one, of which the closure is known. -/
theorem mem_consequences_along
    (h : ∀ B n x, Follows rules B ⟨n, p, x⟩ ↔ ∃ m, ⟨n, p, .node m⟩ ∈ B ∧ ⟨m, q, x⟩ ∈ B)
    (hq : ∀ n x, ⟨n, q, x⟩ ∈ consequences rules A ↔ TransGen (Relates A q) (.node n) x) :
    ⟨n, p, x⟩ ∈ consequences rules A ↔
      ∃ y, ⟨n, p, y⟩ ∈ A ∧ ReflTransGen (Relates A q) y x := by
  constructor
  · refine relation_induction
      (motive := fun n x => ∃ y, ⟨n, p, y⟩ ∈ A ∧ ReflTransGen (Relates A q) y x)
      (fun n x hf => ⟨x, hf, .refl⟩) fun n x hf => ?_
    obtain ⟨m, ⟨-, hn⟩, hm, -⟩ := (h _ _ _).1 hf
    obtain ⟨y, hy, hpath⟩ := hn rfl
    exact ⟨y, hy, hpath.trans ((hq m x).1 hm).to_reflTransGen⟩
  · rintro ⟨y, hy, hpath⟩
    have hgiven := subset_consequences rules A hy
    rcases hpath.cases_head with rfl | ⟨z, ⟨m, rfl, hm⟩, hrest⟩
    · exact hgiven
    · have hchain : TransGen (Relates A q) (.node m) x := .head' (relates_node.2 hm) hrest
      exact closed_consequences rules A _ ((h _ _ _).2 ⟨m, hgiven, (hq m x).2 hchain⟩)

/-- A relation that another one, which is not derived, starts and leads on to. -/
theorem mem_consequences_onto
    (h : ∀ B n x, Follows rules B ⟨n, p, x⟩ ↔
      ⟨n, q, x⟩ ∈ B ∨ ∃ m, ⟨n, q, .node m⟩ ∈ B ∧ ⟨m, p, x⟩ ∈ B)
    (hq : ∀ n x, ⟨n, q, x⟩ ∈ consequences rules A ↔ ⟨n, q, x⟩ ∈ A)
    (hnone : ∀ n x, ⟨n, p, x⟩ ∉ A) :
    ⟨n, p, x⟩ ∈ consequences rules A ↔ TransGen (Relates A q) (.node n) x := by
  constructor
  · refine relation_induction (motive := fun n x => TransGen (Relates A q) (.node n) x)
      (fun n x hf => absurd hf (hnone n x)) fun n x hf => ?_
    rcases (h _ _ _).1 hf with ⟨hf, -⟩ | ⟨m, ⟨hn, -⟩, -, hm⟩
    · exact .single (relates_node.2 ((hq n x).1 hf))
    · exact .head (relates_node.2 ((hq n _).1 hn)) (hm rfl)
  · intro hpath
    generalize hy : Value.node n = y at hpath
    induction hpath using TransGen.head_induction_on generalizing n with
    | single hstep =>
      subst hy
      exact closed_consequences rules A _ ((h _ _ _).2
        (Or.inl ((hq _ _).2 (relates_node.1 hstep))))
    | head hstep hrest ih =>
      subst hy
      -- What a chain goes on from is a node.
      obtain ⟨_, ⟨m, rfl, -⟩, -⟩ := TransGen.head'_iff.1 hrest
      exact closed_consequences rules A _ ((h _ _ _).2
        (Or.inr ⟨m, (hq _ _).2 (relates_node.1 hstep), ih rfl⟩))

/-! ## What rules of a common shape yield -/

namespace Rule

variable {r : Rule} {a b c : Text}

/-- An atom on a relation stands for the facts with its predicate whose two ends are the values of
its variables. -/
theorem standsFor_relation {σ : Valuation} : (Atom.relation (.var a) p (.var b)).StandsFor σ f ↔
    f.predicate = p ∧ σ a = .node f.subject ∧ σ b = f.object := by
  rw [Atom.standsFor_iff]
  simp only [Atom.relation, Term.StandsFor, Term.named, Value.node.injEq, Node.named.injEq]
  tauto

theorem holdsOf_relation {σ : Valuation} : (Condition.relation (.var a) p (.var b)).HoldsOf σ f ↔
    f.predicate = p ∧ σ a = .node f.subject ∧ σ b = f.object := by
  simp [Condition.HoldsOf, Condition.relation, standsFor_relation]

section Shapes

variable (enabled : r.enabled = true)

include enabled

/-- What a rule with one condition on a relation and one head on a relation yields. -/
theorem yields_iff_of_one {x y : Text}
    (hconditions : r.conditions = [.relation (.var a) p (.var b)])
    (hheads : r.heads = [.relation (.var x) q (.var y)]) : r.Yields A f ↔
      f.predicate = q ∧ ∃ σ : Valuation, σ x = .node f.subject ∧ σ y = f.object ∧
        ∃ n, σ a = .node n ∧ ⟨n, p, σ b⟩ ∈ A := by
  rw [Rule.Yields, hconditions, hheads]
  constructor
  · rintro ⟨-, σ, premises, hmatch, hpremises, head, hhead, -, hf⟩
    obtain ⟨g, rest, hg, hrest, rfl⟩ := List.forall₂_cons_left_iff.1 hmatch
    obtain ⟨rfl, ha, hb⟩ := holdsOf_relation.1 hg
    rw [List.mem_singleton.1 hhead] at hf
    obtain ⟨rfl, hx, hy⟩ := standsFor_relation.1 hf
    exact ⟨rfl, σ, hx, hy, g.subject, ha, hb ▸ hpremises g List.mem_cons_self⟩
  · rintro ⟨rfl, σ, hx, hy, n, ha, hmem⟩
    refine ⟨enabled, σ, [⟨n, p, σ b⟩], .cons (holdsOf_relation.2 ⟨rfl, ha, rfl⟩) .nil, by simpa, _,
      List.mem_singleton_self _, rfl, standsFor_relation.2 ⟨rfl, hx, hy⟩⟩

/-- A rule that turns a relation around. -/
theorem yields_turned (hconditions : r.conditions = [.relation (.var a) p (.var b)])
    (hheads : r.heads = [.relation (.var b) q (.var a)]) (hab : a ≠ b) : r.Yields A f ↔
      f.predicate = q ∧ ∃ n, f.object = .node n ∧ ⟨n, p, .node f.subject⟩ ∈ A := by
  rw [yields_iff_of_one enabled hconditions hheads]
  refine and_congr_right fun _ => ⟨?_, ?_⟩
  · rintro ⟨σ, hb, ha, n, hn, hmem⟩
    exact ⟨n, ha.symm.trans hn, hb ▸ hmem⟩
  · rintro ⟨n, hn, hmem⟩
    refine ⟨fun v => if v = a then .node n else .node f.subject, ?_, ?_, n, ?_, ?_⟩ <;>
      simp [hab.symm, hn, hmem]

/-- A rule that names a relation anew. -/
theorem yields_renamed (hconditions : r.conditions = [.relation (.var a) p (.var b)])
    (hheads : r.heads = [.relation (.var a) q (.var b)]) (hab : a ≠ b) : r.Yields A f ↔
      f.predicate = q ∧ ⟨f.subject, p, f.object⟩ ∈ A := by
  rw [yields_iff_of_one enabled hconditions hheads]
  refine and_congr_right fun _ => ⟨?_, ?_⟩
  · rintro ⟨σ, ha, hb, n, hn, hmem⟩
    rw [ha, Value.node.injEq] at hn
    rwa [hn, ← hb]
  · intro hmem
    refine ⟨fun v => if v = a then .node f.subject else f.object, ?_, ?_, f.subject, ?_, ?_⟩ <;>
      simp [hab.symm, hmem]

/-- A rule that goes from one relation on to another one. -/
theorem yields_chained
    (hconditions : r.conditions = [.relation (.var a) p (.var b), .relation (.var b) q (.var c)])
    (hheads : r.heads = [.relation (.var a) t (.var c)]) (hab : a ≠ b) (hac : a ≠ c) (hbc : b ≠ c) :
    r.Yields A f ↔
      f.predicate = t ∧ ∃ n, ⟨f.subject, p, .node n⟩ ∈ A ∧ ⟨n, q, f.object⟩ ∈ A := by
  rw [Rule.Yields, hconditions, hheads]
  constructor
  · rintro ⟨-, σ, premises, hmatch, hpremises, head, hhead, -, hf⟩
    obtain ⟨g, rest, hg, hrest, rfl⟩ := List.forall₂_cons_left_iff.1 hmatch
    obtain ⟨k, rest, hk, hnil, rfl⟩ := List.forall₂_cons_left_iff.1 hrest
    obtain ⟨rfl, ha, hb⟩ := holdsOf_relation.1 hg
    obtain ⟨rfl, hb', hc⟩ := holdsOf_relation.1 hk
    rw [List.mem_singleton.1 hhead] at hf
    obtain ⟨rfl, ha', hc'⟩ := standsFor_relation.1 hf
    rw [List.forall_mem_cons, List.forall_mem_cons] at hpremises
    refine ⟨rfl, k.subject, ?_, ?_⟩
    · rw [← Value.node.inj (ha.symm.trans ha'), ← hb', hb]
      exact hpremises.1
    · rw [← hc', hc]
      exact hpremises.2.1
  · rintro ⟨rfl, n, hfirst, hsecond⟩
    let σ : Valuation := fun v => if v = a then .node f.subject else if v = b then .node n
      else f.object
    have ha : σ a = .node f.subject := if_pos rfl
    have hb : σ b = .node n := by simp [σ, hab.symm]
    have hc : σ c = f.object := by simp [σ, hac.symm, hbc.symm]
    refine ⟨enabled, σ, [⟨f.subject, p, .node n⟩, ⟨n, q, f.object⟩], ?_, by simp [hfirst, hsecond],
      _, List.mem_singleton_self _, rfl, standsFor_relation.2 ⟨rfl, ha, hc⟩⟩
    exact .cons (holdsOf_relation.2 ⟨rfl, ha, hb⟩) (.cons (holdsOf_relation.2 ⟨rfl, hb, hc⟩) .nil)

end Shapes

end Rule

/-! ## Rules that look nothing up -/

/-- Whether the objects of conditions are variables that neither given ones are nor the conditions
in front bind. -/
def Condition.OpenEnded : List Text → List Condition → Prop
  | _, [] => True
  | bound, c :: rest =>
    (∃ v ∉ bound, c.atom.object = .var v) ∧ OpenEnded (bound ++ c.atom.varNames) rest

/-- The queries for open-ended conditions leave the object open. -/
theorem Condition.OpenEnded.not_looksUp {bound : List Text} {conditions : List Condition}
    {s : Substitution} (h : OpenEnded bound conditions) (hs : ∀ v, s.Binds v → v ∈ bound) :
    ¬ LooksUp A conditions s f := by
  intro hf
  induction hf generalizing bound with
  | @here c rest s q f asked exact =>
    obtain ⟨⟨v, hv, hobject⟩, -⟩ := h
    have hopen : q.object = none := by
      rw [← (Atom.query?_eq_some.1 asked).2.2, hobject, Term.value?, Substitution.lookup,
        lookup_eq_none_iff_not_mem]
      exact fun hbinds => hv (hs v hbinds)
    simp [Query.fact?, hopen] at exact
  | later mem matched behind ih =>
    refine ih h.2 fun v hv => List.mem_append.2 ?_
    rw [Atom.mem_varNames]
    exact ((Atom.binds_unify matched).1 hv).imp_left (hs v)

/-- Rules with open-ended conditions only meet consequences. -/
theorem Run.encountered_eq (h : ∀ r ∈ rules, Condition.OpenEnded [] r.conditions) :
    encountered rules A = consequences rules A := by
  refine Set.union_eq_left.2 ?_
  rintro f ⟨r, hr, hf⟩
  exact absurd hf ((h r hr).not_looksUp (by simp [Substitution.Binds]))

/-! ## The standard rules -/

namespace Rule

theorem sound_transitive (p : Text) : (transitive p).Sound := sound_of_faults rfl

theorem openEnded_transitive (p : Text) : Condition.OpenEnded [] (transitive p).conditions := by
  simp +decide [transitive, Condition.OpenEnded, Condition.relation, Atom.relation, Atom.terms,
    Term.named]

theorem follows_transitive : Follows [transitive p] A f ↔
    f.predicate = p ∧ ∃ n, ⟨f.subject, p, .node n⟩ ∈ A ∧ ⟨n, p, f.object⟩ ∈ A := by
  rw [← yields_chained (r := transitive p) rfl rfl rfl (by decide) (by decide) (by decide)]
  simp [Follows]

end Rule

namespace Rulebook

theorem rules_semantic : semantic.rules = [.ancestorBase, .symmetric "married_to",
    .inverse "parent_of" "child_of", .subclassMembership, .transitive "subclass_of",
    .ancestorStep] := by
  simp [semantic, Draft.finish, List.mergeSort, List.MergeSort.Internal.splitInTwo,
    Rule.ancestorBase, Rule.symmetric, Rule.inverse, Rule.subclassMembership, Rule.transitive,
    Rule.ancestorStep]

theorem sound_semantic : ∀ r ∈ semantic.rules, r.Sound := by
  have hfaults : ∀ r ∈ semantic.rules, r.faults = [] := by
    rw [rules_semantic]
    decide
  exact fun r hr => Rule.sound_of_faults (hfaults r hr)

theorem openEnded_semantic : ∀ r ∈ semantic.rules, Condition.OpenEnded [] r.conditions := by
  simp +decide [rules_semantic, Rule.symmetric, Rule.inverse, Rule.subclassMembership,
    Rule.ancestorBase, Rule.ancestorStep, Rule.transitive, Condition.OpenEnded,
    Condition.relation, Atom.relation, Atom.terms, Term.named]

/-- What the rules on common relations derive in one step. -/
theorem follows_semantic : Follows semantic.rules A f ↔
    (f.predicate = "ancestor_of" ∧ ⟨f.subject, "parent_of", f.object⟩ ∈ A) ∨
    (f.predicate = "married_to" ∧
      ∃ n, f.object = .node n ∧ ⟨n, "married_to", .node f.subject⟩ ∈ A) ∨
    (f.predicate = "child_of" ∧
      ∃ n, f.object = .node n ∧ ⟨n, "parent_of", .node f.subject⟩ ∈ A) ∨
    (f.predicate = "type" ∧
      ∃ n, ⟨f.subject, "type", .node n⟩ ∈ A ∧ ⟨n, "subclass_of", f.object⟩ ∈ A) ∨
    (f.predicate = "subclass_of" ∧
      ∃ n, ⟨f.subject, "subclass_of", .node n⟩ ∈ A ∧ ⟨n, "subclass_of", f.object⟩ ∈ A) ∨
    f.predicate = "ancestor_of" ∧
      ∃ n, ⟨f.subject, "parent_of", .node n⟩ ∈ A ∧ ⟨n, "ancestor_of", f.object⟩ ∈ A := by
  simp only [Follows, rules_semantic, List.exists_mem_cons_iff]
  rw [Rule.yields_renamed (r := .ancestorBase) rfl rfl rfl (by decide),
    Rule.yields_turned (r := .symmetric _) rfl rfl rfl (by decide),
    Rule.yields_turned (r := .inverse _ _) rfl rfl rfl (by decide),
    Rule.yields_chained (r := .subclassMembership) rfl rfl rfl (by decide) (by decide) (by decide),
    Rule.yields_chained (r := .transitive _) rfl rfl rfl (by decide) (by decide) (by decide),
    Rule.yields_chained (r := .ancestorStep) rfl rfl rfl (by decide) (by decide) (by decide)]
  simp

end Rulebook

/-! ## What common relations mean -/

/-- Whether facts say of the common relations what other facts mean: everything else is as it is
given. -/
structure Meant (A B : Set Fact) : Prop where
  /-- Ancestors are reached by chains of parents. -/
  ancestor : ∀ n x, ⟨n, "ancestor_of", x⟩ ∈ B ↔ TransGen (Relates A "parent_of") (.node n) x
  /-- Classes above a class are reached by chains of classes right above. -/
  subclass : ∀ n x, ⟨n, "subclass_of", x⟩ ∈ B ↔ TransGen (Relates A "subclass_of") (.node n) x
  /-- Members of a class are members of the classes that are reached from it. -/
  member : ∀ n x, ⟨n, "type", x⟩ ∈ B ↔
    ∃ y, ⟨n, "type", y⟩ ∈ A ∧ ReflTransGen (Relates A "subclass_of") y x
  /-- Whoever has a parent is a child of the parent. -/
  child : ∀ n x, ⟨n, "child_of", x⟩ ∈ B ↔
    ⟨n, "child_of", x⟩ ∈ A ∨ ∃ m, x = .node m ∧ ⟨m, "parent_of", .node n⟩ ∈ A
  /-- Nodes are married to each other. -/
  married : ∀ n x, ⟨n, "married_to", x⟩ ∈ B ↔
    ⟨n, "married_to", x⟩ ∈ A ∨ ∃ m, x = .node m ∧ ⟨m, "married_to", .node n⟩ ∈ A
  /-- There is nothing else. -/
  other : ∀ f : Fact, f.predicate ∉ (["ancestor_of", "subclass_of", "type", "child_of",
    "married_to"] : List Text) → (f ∈ B ↔ f ∈ A)

theorem meant_consequences (hnone : ∀ f ∈ A, f.predicate ≠ "ancestor_of") :
    Meant A (consequences Rulebook.semantic.rules A) := by
  have hsubclass (n : Node) (x : Value) : ⟨n, "subclass_of", x⟩ ∈
      consequences Rulebook.semantic.rules A ↔ TransGen (Relates A "subclass_of") (.node n) x :=
    mem_consequences_transitive fun B n x => by simp +decide [Rulebook.follows_semantic]
  have hparent (n : Node) (x : Value) : ⟨n, "parent_of", x⟩ ∈
      consequences Rulebook.semantic.rules A ↔ ⟨n, "parent_of", x⟩ ∈ A :=
    mem_consequences_of_barren fun B => by simp +decide [Rulebook.follows_semantic]
  refine ⟨fun n x => ?_, hsubclass, fun n x => ?_, fun n x => ?_, fun n x => ?_, fun f hf => ?_⟩
  · refine mem_consequences_onto (fun B n x => ?_) hparent fun n x hf => hnone _ hf rfl
    simp +decide [Rulebook.follows_semantic]
  · refine mem_consequences_along (fun B n x => ?_) hsubclass
    simp +decide [Rulebook.follows_semantic]
  · rw [mem_consequences_iff]
    simp +decide [Rulebook.follows_semantic, hparent]
  · refine mem_consequences_symmetric fun B n x => ?_
    simp +decide [Rulebook.follows_semantic]
  · refine mem_consequences_of_barren fun B => ?_
    simp only [List.mem_cons, List.not_mem_nil, or_false, not_or] at hf
    rw [Rulebook.follows_semantic]
    simp [hf]

namespace Store

variable {s : Store} {c : Counters} {bound : Nat} {derived : List Fact}

theorem content_infer_of_openEnded (hs : s.Coherent) {book : Rulebook}
    (hsound : ∀ r ∈ book.rules, r.Sound)
    (hopen : ∀ r ∈ book.rules, Condition.OpenEnded [] r.conditions)
    (inj : Set.InjOn Fact.digest (consequences book.rules s.content))
    (h : (s.infer c book bound).outcome = .ok derived) :
    (s.infer c book bound).store.content = consequences book.rules s.content := by
  rw [← Run.encountered_eq hopen] at inj
  exact content_infer hs hsound inj h

/-- Forward chaining with the rules on common relations that returns leaves what they mean of the
stored facts, if these have no ancestors yet. With the rule for one transitive relation it leaves
the transitive closure of the relation, and the other facts. -/
theorem infer_relations (hs : s.Coherent) :
    ((∀ f ∈ s.content, f.predicate ≠ "ancestor_of") →
      Set.InjOn Fact.digest (consequences Rulebook.semantic.rules s.content) →
      (s.infer c .semantic bound).outcome = .ok derived →
      Meant s.content (s.infer c .semantic bound).store.content) ∧
    ∀ (p : Text) (book : Rulebook), book.rules = [.transitive p] →
      Set.InjOn Fact.digest (consequences book.rules s.content) →
      (s.infer c book bound).outcome = .ok derived →
      ∀ f, f ∈ (s.infer c book bound).store.content ↔
        if f.predicate = p then TransGen (Relates s.content p) (.node f.subject) f.object
        else f ∈ s.content := by
  constructor
  · intro hnone inj h
    rw [content_infer_of_openEnded hs Rulebook.sound_semantic Rulebook.openEnded_semantic inj h]
    exact meant_consequences hnone
  · intro p book hbook inj h f
    have hsound : ∀ r ∈ book.rules, r.Sound := by simp [hbook, Rule.sound_transitive]
    have hopen : ∀ r ∈ book.rules, Condition.OpenEnded [] r.conditions := by
      simp [hbook, Rule.openEnded_transitive]
    rw [content_infer_of_openEnded hs hsound hopen inj h, hbook]
    split
    · next hp =>
      subst hp
      exact mem_consequences_transitive fun B n x => by simp [Rule.follows_transitive]
    · next hp =>
      exact mem_consequences_of_barren fun B hf => hp (Rule.follows_transitive.1 hf).1

/-- A grandparent of a number: the rules on common relations find ancestors and a child, and the
rule for transitive parents makes the grandparent a parent. -/
theorem infer_relations_parents :
    let given : List Fact := [⟨.named "a", "parent_of", .named "b"⟩,
      ⟨.named "b", "parent_of", .integer 3⟩]
    let s := (insertAll { storage := .memory {} } given).1
    let book : Rulebook := { rules := [.transitive "parent_of"] }
    (s.infer {} .semantic 4).outcome = .ok [⟨.named "b", "ancestor_of", .integer 3⟩,
      ⟨.named "a", "ancestor_of", .named "b"⟩, ⟨.named "b", "child_of", .named "a"⟩,
      ⟨.named "a", "ancestor_of", .integer 3⟩] ∧
    Meant s.content (s.infer {} .semantic 4).store.content ∧
    (s.infer {} book 4).outcome = .ok [⟨.named "a", "parent_of", .integer 3⟩] ∧
    (⟨.named "a", "parent_of", .integer 3⟩ : Fact) ∈ (s.infer {} book 4).store.content := by
  intro given s book
  let facts : List Fact := given ++ [⟨.named "b", "ancestor_of", .integer 3⟩,
      ⟨.named "a", "ancestor_of", .named "b"⟩, ⟨.named "b", "child_of", .named "a"⟩,
      ⟨.named "a", "ancestor_of", .integer 3⟩, ⟨.named "a", "parent_of", .integer 3⟩]
  have hnodup : (facts.map Fact.digest).Nodup := by decide +kernel
  have inj : Set.InjOn Fact.digest {f | f ∈ facts} := fun f hf g hg =>
    List.inj_on_of_nodup_map hnodup hf hg
  have hs : s.Represents given.toFinset := represents_insertAll (by decide +kernel)
    (inj.mono fun f hf => List.mem_append_left _ hf)
  have hcontent {f : Fact} : f ∈ s.content ↔ f ∈ given := (hs.content f).trans List.mem_toFinset
  have hover {rules : List Rule} (hclosed : Closed rules {f | f ∈ facts}) :
      Set.InjOn Fact.digest (consequences rules s.content) :=
    inj.mono (consequences_subset (fun f hf => List.mem_append_left _ (hcontent.1 hf)) hclosed)
  have hsemantic : Closed Rulebook.semantic.rules {f | f ∈ facts} := by
    rintro ⟨n, p, x⟩ hf
    have hderived : p = "ancestor_of" ∧ (n = .named "a" ∧ x = .named "b" ∨
        n = .named "b" ∧ x = .integer 3 ∨ n = .named "a" ∧ x = .integer 3) ∨
        p = "child_of" ∧ x = .named "a" ∧ n = .named "b" ∨
        p = "ancestor_of" ∧ n = .named "a" ∧ x = .integer 3 := by
      simpa +decide [facts, given, Rulebook.follows_semantic] using hf
    rcases hderived with ⟨rfl, ⟨rfl, rfl⟩ | ⟨rfl, rfl⟩ | ⟨rfl, rfl⟩⟩ | ⟨rfl, rfl, rfl⟩ |
      ⟨rfl, rfl, rfl⟩ <;> simp [facts]
  have hbook : Closed book.rules {f | f ∈ facts} := by
    rintro ⟨n, p, x⟩ hf
    obtain ⟨rfl, rfl, rfl⟩ : p = "parent_of" ∧ n = .named "a" ∧ x = .integer 3 := by
      simpa +decide [facts, given, Rule.follows_transitive, book] using hf
    simp [facts]
  have hrun : (s.infer {} .semantic 4).outcome = .ok [⟨.named "b", "ancestor_of", .integer 3⟩,
      ⟨.named "a", "ancestor_of", .named "b"⟩, ⟨.named "b", "child_of", .named "a"⟩,
      ⟨.named "a", "ancestor_of", .integer 3⟩] := by
    rw [infer, Rulebook.rules_semantic]
    decide +kernel
  have hrun' : (s.infer {} book 4).outcome = .ok [⟨.named "a", "parent_of", .integer 3⟩] := by
    decide +kernel
  have hnone : ∀ f ∈ s.content, f.predicate ≠ "ancestor_of" := by
    have hpredicates : ∀ f ∈ given, f.predicate ≠ "ancestor_of" := by decide
    exact fun f hf => hpredicates f (hcontent.1 hf)
  have hfirst : Relates s.content "parent_of" (.named "a") (.named "b") :=
    ⟨_, rfl, hcontent.2 (by decide)⟩
  have hsecond : Relates s.content "parent_of" (.named "b") (.integer 3) :=
    ⟨_, rfl, hcontent.2 (by decide)⟩
  refine ⟨hrun, (infer_relations hs.coherent).1 hnone (hover hsemantic) hrun, hrun', ?_⟩
  rw [(infer_relations hs.coherent).2 _ book rfl (hover hbook) hrun', if_pos rfl]
  exact .head hfirst (.single hsecond)

end Store
end FactGraph
