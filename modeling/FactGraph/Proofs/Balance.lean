import FactGraph.Proofs.Renaming
import FactGraph.Proofs.Resolution
import FactGraph.Proofs.Rulebook
import FactGraph.Proofs.Search
import FactGraph.Proofs.Unification

/-!
# Goals and facts in balance

The goals of a branch say what becomes of the facts that were found: a goal to be solved puts a fact
on top of them, and a goal that concludes a head puts it in the place of the facts for the
conditions of its rule. The goals in front of it see to it that these facts lie on top in their
order, and in the end a fact is left for the goal with which the search began (`Balanced`). Finding
a fact, applying a rule and concluding a head keep the balance, whatever the rules are, and so it
holds of every branch that a search comes to (`History.inStep`).

The uses of rules on the way to a branch are numbered, and the variables of each get its number, so
that no two uses have a variable in common (`Use.disjoint_names`). `branches_balanced` puts this
together.
-/

namespace FactGraph

open Bindings

/-! ## Conditions under bindings -/

/-- Whether a term is a wildcard or has a value under bindings. -/
def Bindings.Gives (b : Bindings) (t : Term) (x : Value) : Prop :=
  t = .any ∨ b.resolve t = .constant x

/-- Whether a condition holds of a fact under bindings: the terms of its atom have the values of the
fact, and its guard is satisfied. -/
def Condition.HoldsUnder (b : Bindings) (c : Condition) (f : Fact) : Prop :=
  List.Forall₂ b.Gives c.atom.terms f.values ∧ b.satisfies c.guard = true

section Conditions

variable {b b' : Bindings} {t : Term} {x : Value} {a : Atom} {guard : Option Guard} {c : Condition}
  {f : Fact}

theorem Bindings.WellFormed.gives (hb : b.WellFormed) (h : ∀ σ, b.Admits σ → t.StandsFor σ x) :
    b.Gives t x := by
  cases t with
  | any => exact Or.inl rfl
  | var v => exact Or.inr (hb.resolve_of_fixed h)
  | constant y =>
    obtain ⟨σ, hσ, -⟩ := hb.exists_admits fun _ => default
    exact Or.inr (congrArg Term.constant (h σ hσ))

/-- An atom that always stands for a fact has the values of the fact. -/
theorem Bindings.WellFormed.gives_terms (hb : b.WellFormed)
    (h : ∀ σ, b.Admits σ → a.StandsFor σ f) : List.Forall₂ b.Gives a.terms f.values :=
  .cons (hb.gives fun σ hσ => (Atom.standsFor_iff.1 (h σ hσ)).1)
    (.cons (hb.gives fun σ hσ => (Atom.standsFor_iff.1 (h σ hσ)).2.1)
      (.cons (hb.gives fun σ hσ => (Atom.standsFor_iff.1 (h σ hσ)).2.2) .nil))

/-- A head that is a fact has no wildcards. -/
theorem Bindings.hasWildcard_of_instantiate? (h : (a.map b.resolve).instantiate? [] = some f) :
    a.hasWildcard = false := by
  obtain ⟨hsubject, hpredicate, hobject⟩ := Atom.instantiate?_eq_some.1 h
  have hany {t : Term} {x : Value} (ht : (b.resolve t).value? [] = some x) : t.isAny = false := by
    cases t with
    | any => cases ht
    | var v => rfl
    | constant y => rfl
  simp [Atom.hasWildcard, Atom.terms, hany hsubject, hany hpredicate, hany hobject]

section Refined

variable (hb : b.WellFormed) (hb' : b'.WellFormed) (h : ∀ σ, b'.Admits σ → b.Admits σ)

include hb hb' h

/-- What has a value keeps it. -/
theorem Bindings.resolve_eq_constant (ht : b.resolve t = .constant x) :
    b'.resolve t = .constant x := by
  rw [← hb.resolve_resolve hb' h, ht]
  rfl

theorem Bindings.satisfies_of_satisfies (hguard : b.satisfies guard = true) :
    b'.satisfies guard = true := by
  cases guard with
  | none => rfl
  | some g =>
    rw [satisfies] at hguard ⊢
    split at hguard
    · next x hx => rwa [resolve_eq_constant hb hb' h hx]
    · cases hguard

/-- A condition that holds under bindings holds under those that refine them. -/
theorem Condition.HoldsUnder.mono (hc : c.HoldsUnder b f) : c.HoldsUnder b' f :=
  ⟨hc.1.imp fun _ _ => Or.imp_right (resolve_eq_constant hb hb' h),
    satisfies_of_satisfies hb hb' h hc.2⟩

end Refined

end Conditions

/-! ## Uses of rules -/

/-- What a goal concludes: the head, the name of its rule and the number of the premises. -/
def Goal.conclusion? : Goal → Option (Atom × Text × Nat)
  | .conclude head _ rule premises => some (head, rule, premises)
  | .solve .. => none

namespace Search

/-- A rule that was applied on the way to a branch. -/
structure Use where
  /-- The rule. -/
  rule : Rule
  /-- The head that matched a goal, as the rule has it. -/
  head : Atom
  /-- The head is one of the rule. -/
  head_mem : head ∈ rule.heads
  /-- How many rules were applied before. -/
  number : Nat

namespace Use

/-- The head, with the variables of the rule renamed. -/
def renamedHead (u : Use) : Atom := u.head.rename (suffixOf u.number)

/-- The conditions of the rule, with its variables renamed. -/
def conditions (u : Use) : List Condition :=
  u.rule.conditions.map (Condition.rename (suffixOf u.number))

/-- What the goal concludes that stands behind those of the conditions. -/
def conclusion (u : Use) : Atom × Text × Nat := (u.renamedHead, u.rule.name, u.conditions.length)

/-- The names of the renamed variables: those in the head, in the conditions and in their guards. -/
def names (u : Use) : List Text :=
  u.renamedHead.varNames ++
    u.conditions.flatMap fun c => c.atom.varNames ++ (c.guard.map Guard.var).toList

/-- The names end with the number of the use. -/
theorem exists_of_mem_names {u : Use} {v : Text} (h : v ∈ u.names) :
    ∃ w, v = w ++ suffixOf u.number := by
  have hatom {a : Atom} (hv : v ∈ (a.rename (suffixOf u.number)).varNames) :
      ∃ w, v = w ++ suffixOf u.number := by
    obtain ⟨w, -, rfl⟩ := Atom.mem_terms_rename.1 (Atom.mem_varNames.1 hv)
    exact ⟨w, rfl⟩
  rcases List.mem_append.1 h with hv | hv
  · exact hatom hv
  · obtain ⟨_, hc, hv⟩ := List.mem_flatMap.1 hv
    obtain ⟨c, -, rfl⟩ := List.mem_map.1 hc
    rcases List.mem_append.1 hv with hv | hv
    · exact hatom hv
    · simp only [Condition.rename, Option.mem_toList, Option.map_eq_some_iff] at hv
      obtain ⟨_, ⟨g, -, rfl⟩, rfl⟩ := hv
      exact ⟨g.var, rfl⟩

/-- Uses with different numbers have no name in common. -/
theorem disjoint_names {u u' : Use} (h : u.number ≠ u'.number) : u.names.Disjoint u'.names := by
  intro v hv hv'
  obtain ⟨w, rfl⟩ := exists_of_mem_names hv
  obtain ⟨w', heq⟩ := exists_of_mem_names hv'
  exact h (suffix_inj heq).2

end Use

/-- Whether a search that begins with a branch comes to another one, bounds on the search aside, by
way of given uses of rules, and which of these have not been concluded yet; the latest use comes
first. -/
inductive History (s : Search) (first : Branch) : Branch → List Use → List Use → Prop
  /-- The search has just begun. -/
  | start : History s first first [] []
  /-- A stored fact is found for the next goal. -/
  | fact {b b' : Branch} {used pending : List Use} {atom : Atom} {guard : Option Guard}
      {depth : Nat} {above : List Text} {q : Query} {l : List Fact} {f : Fact} :
      History s first { b with goals := .solve atom guard depth above :: b.goals } used pending →
      (atom.map b.bindings.resolve).query? [] = some q → s.view.find q = .ok l → f ∈ l →
      b.withFact atom guard f = some b' → History s first b' used pending
  /-- A rule is applied to the next goal. -/
  | rule {b : Branch} {used pending : List Use} {atom head : Atom} {guard : Option Guard}
      {depth : Nat} {above : List Text} {a : Application} (hhead : head ∈ a.rule.heads) :
      History s first { b with goals := .solve atom guard depth above :: b.goals } used pending →
      a ∈ s.applicable b atom → a.head = head.rename b.suffix →
      History s first (withRule b guard depth ((atom.map b.bindings.resolve).key :: above) a)
        (⟨a.rule, head, hhead, b.applied⟩ :: used) (⟨a.rule, head, hhead, b.applied⟩ :: pending)
  /-- A head is concluded. -/
  | conclude {b b' : Branch} {used pending : List Use} {head : Atom} {guard : Option Guard}
      {rule : Text} {premises : Nat} :
      History s first { b with goals := .conclude head guard rule premises :: b.goals } used
        pending →
      b.conclude head guard rule premises = .ok (some b') → History s first b' used pending.tail

/-- The branches on which a search works have a history. -/
theorem Visits.exists_history {s : Search} {first b : Branch} (h : s.Visits [first] b) :
    ∃ used pending, s.History first b used pending := by
  refine h.induct (P := fun b => ∃ used pending, s.History first b used pending) ?_
    (List.forall_mem_singleton.2 ⟨[], [], .start⟩)
  rintro b b' htakes ⟨used, pending, hb⟩
  cases htakes with
  | fact _ _ hq hl hf hwith => exact ⟨used, pending, hb.fact hq hl hf hwith⟩
  | rule _ _ _ ha =>
    obtain ⟨-, -, ⟨head, hhead, heq⟩, -⟩ := mem_applicable.1 ha
    exact ⟨_, _, .rule hhead hb ha heq⟩
  | conclude hc => exact ⟨used, pending.tail, hb.conclude hc⟩

/-! ## Balanced goals -/

/-- Whether goals, worked on one after the other, turn facts for some conditions into facts for
others, the latest first, given what is known about variables and the uses of rules that are
concluded on the way. -/
inductive Balanced (b : Bindings) :
    List Use → List Goal → List Condition → List Condition → Prop
  /-- There are no goals, and the facts stay as they are. -/
  | nil {held : List Condition} : Balanced b [] [] held held
  /-- A fact is put on top. -/
  | solve {pending : List Use} {goals : List Goal} {held left : List Condition} {c : Condition}
      {depth : Nat} {above : List Text} :
      Balanced b pending goals (c :: held) left →
      Balanced b pending (.solve c.atom c.guard depth above :: goals) held left
  /-- The head of a rule takes the place of the facts for the conditions of the rule. It becomes a
  fact for the goal to which the rule was applied. -/
  | conclude {pending : List Use} {goals : List Goal} {held left : List Condition} {c : Condition}
      {u : Use} :
      (∀ σ, b.Admits σ → TogetherIn σ c.atom u.renamedHead) →
      Balanced b pending goals (c :: held) left →
      Balanced b (u :: pending)
        (.conclude u.renamedHead c.guard u.rule.name u.conditions.length :: goals)
        (u.conditions.reverse ++ held) left

namespace Balanced

variable {b b' : Bindings} {pending : List Use} {goals : List Goal} {held left : List Condition}
  {atom head : Atom} {guard : Option Guard} {depth count : Nat} {above : List Text} {name : Text}

theorem mono (h : Balanced b pending goals held left) (hbb' : ∀ σ, b'.Admits σ → b.Admits σ) :
    Balanced b' pending goals held left := by
  induction h with
  | nil => exact .nil
  | solve _ ih => exact .solve ih
  | conclude htogether _ ih => exact .conclude (fun σ hσ => htogether σ (hbb' σ hσ)) ih

/-- The goals that conclude heads are those of the uses. -/
theorem conclusions (h : Balanced b pending goals held left) :
    goals.filterMap Goal.conclusion? = pending.map Use.conclusion := by
  induction h with
  | nil => rfl
  | solve _ ih => exact ih
  | conclude _ _ ih =>
    rw [List.map_cons, ← ih]
    rfl

theorem of_nil (h : Balanced b pending [] held left) : held = left := by
  cases h
  rfl

theorem of_solve (h : Balanced b pending (.solve atom guard depth above :: goals) held left) :
    Balanced b pending goals (⟨atom, guard⟩ :: held) left := by
  cases h with
  | solve h => exact h

theorem of_conclude (h : Balanced b pending (.conclude head guard name count :: goals) held left) :
    ∃ u pending' held' atom, pending = u :: pending' ∧ u.conclusion = (head, name, count) ∧
      held = u.conditions.reverse ++ held' ∧
      (∀ σ, b.Admits σ → TogetherIn σ atom u.renamedHead) ∧
      Balanced b pending' goals (⟨atom, guard⟩ :: held') left := by
  cases h with
  | @conclude pending' _ held' _ c u htogether h =>
    exact ⟨u, pending', held', c.atom, rfl, rfl, rfl, htogether, h⟩

/-- The goals that conditions become put facts for the conditions on top. -/
theorem conditionGoals {conditions : List Condition} {suffix : Text}
    (h : Balanced b pending goals ((conditions.map (Condition.rename suffix)).reverse ++ held)
      left) :
    Balanced b pending (Search.conditionGoals conditions suffix depth above ++ goals) held
      left := by
  -- The fact for a condition lies below those for the conditions behind it, hence any `held`.
  induction conditions generalizing held with
  | nil => exact h
  | cons c conditions ih =>
    simp only [List.map_cons, List.reverse_cons, List.append_assoc, List.singleton_append] at h
    exact .solve (ih h)

/-- The goals that take the place of a goal to which a rule is applied do what that goal did. -/
theorem use (h : Balanced b pending (.solve atom guard depth above :: goals) held left) (u : Use)
    (htogether : ∀ σ, b.Admits σ → TogetherIn σ atom u.renamedHead) (depth' : Nat)
    (above' : List Text) :
    Balanced b (u :: pending)
      (Search.conditionGoals u.rule.conditions (suffixOf u.number) depth' above' ++
        .conclude u.renamedHead guard u.rule.name u.rule.conditions.length :: goals) held left := by
  have hlength : u.rule.conditions.length = u.conditions.length := by simp [Use.conditions]
  rw [hlength]
  exact conditionGoals (.conclude (c := ⟨atom, guard⟩) htogether h.of_solve)

end Balanced
end Search

/-! ## Branches -/

open Search

/-- Facts for members of a list that stand in reverse order on top of others. -/
theorem forall₂_reverse_append {α β : Type} {R : α → β → Prop} {l held : List α} {found : List β}
    (h : List.Forall₂ R (l.reverse ++ held) found) : l.length ≤ found.length ∧
      List.Forall₂ R l (found.take l.length).reverse ∧
      List.Forall₂ R held (found.drop l.length) := by
  have htake := List.forall₂_take l.length h
  have hdrop := List.forall₂_drop l.length h
  rw [List.take_left' l.length_reverse] at htake
  rw [List.drop_left' l.length_reverse] at hdrop
  refine ⟨?_, List.forall₂_reverse_iff.1 (by rwa [List.reverse_reverse]), hdrop⟩
  have hlength := h.length_eq
  rw [List.length_append, List.length_reverse] at hlength
  omega

/-- How the goals of a branch, the facts that it found and the rules that it used fit together,
given the condition with which the search began. -/
structure Branch.InStep (top : Condition) (b : Branch) (used pending : List Use) : Prop where
  /-- The bindings make sense. -/
  wellFormed : b.bindings.WellFormed
  /-- The uses are numbered in their order. -/
  numbers : used.map Use.number = (List.range b.applied).reverse
  /-- The goals make a fact for the first condition out of those that were found. -/
  balanced : ∃ held, Balanced b.bindings pending b.goals held [top] ∧
    List.Forall₂ (Condition.HoldsUnder b.bindings) held b.found

namespace Branch.InStep

variable {s : Search} {top : Condition} {b b' : Branch} {used pending : List Use}
  {atom head : Atom} {guard : Option Guard} {depth count : Nat} {above : List Text} {name : Text}

theorem start : InStep top { goals := [.solve top.atom top.guard 0 []] } [] [] where
  wellFormed := wellFormed_empty
  numbers := rfl
  balanced := ⟨[], .solve .nil, .nil⟩

theorem unifyAtoms? {a : Atom} {bindings : Bindings} (h : b.InStep top used pending)
    (hunify : b.bindings.unifyAtoms? atom a = some bindings) :
    InStep top { b with bindings } used pending := by
  obtain ⟨hb, hnumbers, held, hbalanced, hheld⟩ := h
  have hrefines (σ : Valuation) (hσ : bindings.Admits σ) : b.bindings.Admits σ :=
    ((admits_unifyAtoms? hb hunify).1 hσ).1
  have hb' := hb.unifyAtoms? hunify
  exact ⟨hb', hnumbers, held, hbalanced.mono hrefines,
    hheld.imp fun _ _ hc => hc.mono hb hb' hrefines⟩

theorem fact {f : Fact}
    (h : InStep top { b with goals := .solve atom guard depth above :: b.goals } used pending)
    (hwith : b.withFact atom guard f = some b') : b'.InStep top used pending := by
  obtain ⟨bindings, hunify, hsatisfies, rfl⟩ := withFact_eq_some.1 hwith
  obtain ⟨hb, hnumbers, held, hbalanced, hheld⟩ := h.unifyAtoms? hunify
  have hf : (⟨atom, guard⟩ : Condition).HoldsUnder bindings f := by
    refine ⟨hb.gives_terms fun σ hσ => ?_, hsatisfies⟩
    exact togetherIn_ofFact.1 ((admits_unifyAtoms? h.wellFormed hunify).1 hσ).2
  exact ⟨hb, hnumbers, _, hbalanced.of_solve, .cons hf hheld⟩

theorem rule {a : Application} (hhead : head ∈ a.rule.heads) {above' : List Text}
    (h : InStep top { b with goals := .solve atom guard depth above :: b.goals } used pending)
    (ha : a ∈ s.applicable b atom) (heq : a.head = head.rename b.suffix) :
    (withRule b guard depth above' a).InStep top (⟨a.rule, head, hhead, b.applied⟩ :: used)
      (⟨a.rule, head, hhead, b.applied⟩ :: pending) := by
  obtain ⟨-, -, -, hunify⟩ := mem_applicable.1 ha
  obtain ⟨hb, hnumbers, held, hbalanced, hheld⟩ := h.unifyAtoms? hunify
  -- The suffix of the branch is that of the new use, whose number is the next one.
  have htogether (σ : Valuation) (hσ : a.bindings.Admits σ) :
      TogetherIn σ atom (head.rename b.suffix) :=
    heq ▸ ((admits_unifyAtoms? h.wellFormed hunify).1 hσ).2
  refine ⟨hb, ?_, held, ?_, hheld⟩
  · rw [List.map_cons, hnumbers]
    simp [withRule, List.range_succ]
  · simp only [withRule, heq]
    exact hbalanced.use ⟨a.rule, head, hhead, b.applied⟩ htogether _ _

/-- Where a head is to be concluded, the facts on top are those for the conditions of its rule. -/
theorem premises {rest : List Goal} (h : b.InStep top used pending)
    (hgoals : b.goals = .conclude head guard name count :: rest) :
    ∃ u pending', pending = u :: pending' ∧ u.conclusion = (head, name, count) ∧
      count ≤ b.found.length ∧ List.Forall₂ (Condition.HoldsUnder b.bindings) u.conditions
        (b.found.take count).reverse := by
  obtain ⟨-, -, held, hbalanced, hheld⟩ := h
  rw [hgoals] at hbalanced
  obtain ⟨u, pending', held', atom, rfl, heq, rfl, -, -⟩ := hbalanced.of_conclude
  cases heq
  obtain ⟨hle, htake, -⟩ := forall₂_reverse_append hheld
  exact ⟨u, pending', rfl, rfl, hle, htake⟩

theorem conclude
    (h : InStep top { b with goals := .conclude head guard name count :: b.goals } used pending)
    (hconclude : b.conclude head guard name count = .ok (some b')) :
    b'.InStep top used pending.tail := by
  obtain ⟨f, hf, hsatisfies, rfl⟩ := conclude_eq_ok hconclude
  obtain ⟨hb, hnumbers, held, hbalanced, hheld⟩ := h
  obtain ⟨u, pending', held', atom, rfl, heq, rfl, htogether, hbalanced⟩ := hbalanced.of_conclude
  cases heq
  obtain ⟨-, -, hdrop⟩ := forall₂_reverse_append hheld
  -- A head that has become a fact has no wildcards, so the atom of the goal has its values, too.
  have hc : (⟨atom, guard⟩ : Condition).HoldsUnder b.bindings f := by
    refine ⟨hb.gives_terms fun σ hσ => ?_, hsatisfies⟩
    exact (htogether σ hσ).standsFor (hσ.standsFor_of_instantiate? hb hf)
      (hasWildcard_of_instantiate? hf)
  exact ⟨hb, hnumbers, _, hbalanced, .cons hc hdrop⟩

theorem exists_found (h : b.InStep top used pending) (hgoals : b.goals = []) :
    ∃ f, b.found = [f] := by
  obtain ⟨-, -, held, hbalanced, hheld⟩ := h
  rw [hgoals] at hbalanced
  obtain rfl := hbalanced.of_nil
  obtain ⟨f, _, -, hnil, hfound⟩ := List.forall₂_cons_left_iff.1 hheld
  exact ⟨f, by rw [hfound, List.forall₂_nil_left_iff.1 hnil]⟩

/-- Different uses have no name in common. -/
theorem pairwise_disjoint (h : b.InStep top used pending) :
    used.Pairwise fun u u' => u.names.Disjoint u'.names := by
  have hnodup : (used.map Use.number).Nodup := by
    rw [h.numbers]
    exact List.nodup_reverse.2 List.nodup_range
  exact (List.pairwise_map.1 hnodup).imp Use.disjoint_names

end Branch.InStep

namespace Search

/-- Whatever the history of a branch is, its goals and facts are in step. -/
theorem History.inStep {s : Search} {top : Condition} {b : Branch} {used pending : List Use}
    (h : s.History { goals := [.solve top.atom top.guard 0 []] } b used pending) :
    b.InStep top used pending := by
  induction h with
  | start => exact .start
  | fact _ _ _ _ hwith ih => exact ih.fact hwith
  | rule hhead _ ha heq ih => exact ih.rule hhead ha heq
  | conclude _ hconclude ih => exact ih.conclude hconclude

/-- In a search for a proof, every branch that is worked on has a history. Whatever the history of a
branch is, the heads that are left to be concluded are those of its pending uses, in their order.
Where the head of a use is to be concluded, at least as many facts were found as its rule has
conditions, and of the latest of them, in the order of the conditions, the renamed conditions hold
under the bindings. No two uses share the name of a variable, whatever the names in the rules are.
Where no goal is left, exactly one fact is. -/
theorem branches_balanced (s : Search) (goal : Query) :
    let first : Branch := { goals := [.solve (.ofQuery goal) none 0 []] }
    (∀ b, s.Visits [first] b → ∃ used pending, s.History first b used pending) ∧
    ∀ b used pending, s.History first b used pending →
      b.goals.filterMap Goal.conclusion? = pending.map Use.conclusion ∧
      (∀ head guard name count rest, b.goals = .conclude head guard name count :: rest →
        ∃ u pending', pending = u :: pending' ∧ u.conclusion = (head, name, count) ∧
          count ≤ b.found.length ∧ List.Forall₂ (Condition.HoldsUnder b.bindings) u.conditions
            (b.found.take count).reverse) ∧
      used.Pairwise (fun u u' => u.names.Disjoint u'.names) ∧
      (b.goals = [] → ∃ f, b.found = [f]) := by
  intro first
  refine ⟨fun b hvisits => hvisits.exists_history, fun b used pending hhistory => ?_⟩
  have h : b.InStep ⟨.ofQuery goal, none⟩ used pending := hhistory.inStep
  obtain ⟨held, hbalanced, -⟩ := h.balanced
  exact ⟨hbalanced.conclusions, fun _ _ _ _ _ => h.premises, h.pairwise_disjoint, h.exists_found⟩

/-- A rule is applied to a condition of another one, which has a variable with the very name that a
variable of the first gets, and the head of the first is to be concluded. Where a stored fact is
found for the goal, nothing is left to be done. -/
theorem branches_balanced_nested :
    let f : Fact := ⟨.named "a", "p", .named "b"⟩
    let view : View := {
      find := fun q => .ok ([f].filter q.accepts)
      get := fun _ => .ok none
      contains := fun f' => .ok (f' == f)
      extent := 1 }
    let x : Text := ("x" : Text) ++ suffixOf 1
    let innerHead : Atom := ⟨.var "x", .named "q", .var "y"⟩
    let innerCondition : Condition := {
      atom := ⟨.var "x", .named "p", .var "y"⟩
      guard := some ⟨"y", .equal, .named "b"⟩ }
    let inner : Rule := {
      name := "inner"
      conditions := [innerCondition]
      actions := [.derive innerHead] }
    let outerHead : Atom := ⟨.var x, .named "r", .var "y"⟩
    let outerCondition : Condition := { atom := ⟨.var x, .named "q", .var "y"⟩ }
    let outer : Rule := {
      name := "outer"
      conditions := [outerCondition]
      actions := [.derive outerHead] }
    let s : Search := { view, rules := [outer, inner], bound := 2 }
    let goal (p : Text) : Query := { subject := some (.named "a"), predicate := some p }
    let first (p : Text) : Branch := { goals := [.solve (.ofQuery (goal p)) none 0 []] }
    let u : Use := ⟨inner, innerHead, List.mem_cons_self, 1⟩
    let u' : Use := ⟨outer, outerHead, List.mem_cons_self, 0⟩
    (∃ b, s.Visits [first "r"] b ∧ (∃ used pending, s.History (first "r") b used pending) ∧
      s.History (first "r") b [u, u'] [u, u'] ∧
      b.goals = [.conclude u.renamedHead none "inner" 1,
        .conclude u'.renamedHead none "outer" 1] ∧
      1 ≤ b.found.length ∧
      List.Forall₂ (Condition.HoldsUnder b.bindings) u.conditions (b.found.take 1).reverse ∧
      x ∈ u.names ∧ u.names.Disjoint u'.names) ∧
    ∃ b, s.History (first "p") b [] [] ∧ b.goals = [] ∧ ∃ f, b.found = [f] := by
  intro f view x innerHead innerCondition inner outerHead outerCondition outer s goal first u u'
  obtain ⟨hvisited, hbalanced⟩ := branches_balanced s (goal "r")
  obtain ⟨-, hstored⟩ := branches_balanced s (goal "p")
  let top : Branch := { goals := [] }
  let above : List Text := [((Atom.ofQuery (goal "r")).map top.bindings.resolve).key]
  let a : Application := {
    rule := outer
    head := u'.renamedHead
    bindings := { values := [(x ++ suffixOf 0, .named "a")] } }
  let b : Branch := withRule top none 0 above a
  let rest : Branch := { b with goals := b.goals.tail }
  let c : Condition := outerCondition.rename (suffixOf 0)
  let above' : List Text := (c.atom.map rest.bindings.resolve).key :: above
  let a' : Application := {
    rule := inner
    head := u.renamedHead
    bindings := {
      values := [(x, .named "a"), (x ++ suffixOf 0, .named "a")]
      aliases := [(("y" : Text) ++ suffixOf 0, ("y" : Text) ++ suffixOf 1)] } }
  let b' : Branch := withRule rest c.guard 1 above' a'
  let rest' : Branch := { b' with goals := b'.goals.tail }
  let c' : Condition := innerCondition.rename (suffixOf 1)
  let b'' : Branch := { rest' with
    bindings := { a'.bindings with
      values := (("y" : Text) ++ suffixOf 1, .named "b") :: a'.bindings.values }
    found := [f] }
  have hnext : s.next {} top (.solve (.ofQuery (goal "r")) none 0 []) =
      ({ expansions := 1 }, .ok [b]) := by
    decide +kernel
  have hnext' : s.next { expansions := 1 } rest (.solve c.atom c.guard 1 above) =
      ({ expansions := 2 }, .ok [b']) := by
    decide +kernel
  have hnext'' : s.next { expansions := 2 } rest' (.solve c'.atom c'.guard 2 above') =
      ({ expansions := 3 }, .ok [b'']) := by
    decide +kernel
  have hvisits : s.Visits [first "r"] b'' :=
    .next hnext (.next hnext' (.next hnext'' (.first b'' [])))
  -- The outer rule is applied, then the inner one, and then the stored fact is found.
  have ha : a ∈ s.applicable top (.ofQuery (goal "r")) :=
    mem_applicable.2 ⟨List.mem_cons_self, rfl, ⟨outerHead, List.mem_cons_self, rfl⟩,
      by decide +kernel⟩
  have ha' : a' ∈ s.applicable rest c.atom :=
    mem_applicable.2 ⟨List.mem_cons_of_mem _ List.mem_cons_self, rfl,
      ⟨innerHead, List.mem_cons_self, rfl⟩, by decide +kernel⟩
  have hb : s.History (first "r") b [u'] [u'] :=
    .rule (b := top) List.mem_cons_self .start ha rfl
  have hb' : s.History (first "r") b' [u, u'] [u, u'] :=
    .rule (b := rest) List.mem_cons_self hb ha' rfl
  have hb'' : s.History (first "r") b'' [u, u'] [u, u'] :=
    .fact (b := rest') (q := goal "p") (l := [f]) hb' (by decide +kernel) (by decide +kernel)
      List.mem_cons_self (by decide +kernel)
  obtain ⟨-, hpremises, hnames, -⟩ := hbalanced b'' [u, u'] [u, u'] hb''
  obtain ⟨v, pending, heq, -, hle, hholds⟩ := hpremises _ _ _ _ _ rfl
  obtain ⟨rfl, -⟩ := List.cons.inj heq
  refine ⟨⟨b'', hvisits, hvisited b'' hvisits, hb'', rfl, hle, hholds, by decide +kernel,
    (List.pairwise_cons.1 hnames).1 u' List.mem_cons_self⟩, ?_⟩
  have hfound : s.History (first "p") { top with found := [f] } [] [] :=
    .fact (b := top) (q := goal "p") (l := [f]) .start (by decide +kernel) (by decide +kernel)
      List.mem_cons_self (by decide +kernel)
  obtain ⟨-, -, -, hend⟩ := hstored _ _ _ hfound
  exact ⟨_, hfound, rfl, hend rfl⟩

end Search
end FactGraph
