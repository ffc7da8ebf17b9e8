import FactGraph.Counters
import FactGraph.Matching
import FactGraph.Rulebook
import FactGraph.Search.Agenda
import FactGraph.Search.Goal
import FactGraph.Store

/-!
# Goal-directed search

To prove a goal, a search looks for stored facts that match it and for rules whose heads match it;
the conditions of such a rule become goals in their turn, one level deeper. Every choice is a branch
of its own with its own bindings. The first branch without goals left is the proof; branches are
tried in order, stored facts in front of rules.

Two things cut a branch short: a goal that stands among the goals above it, and a rule that would be
applied below the bound on the depth. As goals get deeper and the depth has a bound, the search
comes to an end; `Search.lighter_of_mem_next` says that what takes the place of a branch is lighter.
-/

namespace FactGraph

/-- One way to prove a goal, as far as it got. -/
structure Branch where
  /-- The goals that are left, the next one first. -/
  goals : List Goal
  /-- What is known about variables. -/
  bindings : Bindings := {}
  /-- The facts found for goals, which wait for their conclusion, the latest first. -/
  found : List Fact := []
  /-- The steps of the proof. -/
  steps : List ProofStep := []
  /-- How often rules were applied. -/
  applied : Nat := 0
deriving DecidableEq

/-- What a search depends on. -/
structure Search where
  /-- The facts. -/
  view : View
  /-- The rules. -/
  rules : List Rule
  /-- The greatest depth at which a rule is applied is below this. -/
  bound : Nat

/-- What a search met on its way. -/
structure Tally where
  /-- How many goals were expanded. -/
  expansions : Nat := 0
  /-- Whether a rule was not applied because of the bound on the depth. -/
  depthCut : Bool := false
  /-- Whether a goal was met among the goals above it. -/
  loopCut : Bool := false
deriving DecidableEq

namespace Branch

/-- The branch in which a fact is found for an atom with a guard. -/
def withFact (b : Branch) (atom : Atom) (guard : Option Guard) (f : Fact) : Option Branch := do
  let bindings ← b.bindings.unifyAtoms? atom (.ofFact f)
  if bindings.satisfies guard then some { b with bindings, found := f :: b.found } else none

/-- What tells the variables of the next rule from all others. -/
def suffix (b : Branch) : Text := '#'.toUInt8 :: Text.ofNat b.applied

/-- Adds a step, unless the fact that it derives is derived already. -/
def addStep (steps : List ProofStep) (s : ProofStep) : List ProofStep :=
  if steps.any fun t => t.derived == s.derived then steps else steps ++ [s]

/-- The branch in which the head of a rule is concluded from the latest facts. There is none unless
the head is a fact that satisfies the guard. -/
def conclude (b : Branch) (head : Atom) (guard : Option Guard) (rule : Text) (premises : Nat) :
    Except StoreError (Option Branch) :=
  match (head.map b.bindings.resolve).instantiate? [] with
  | none => .ok none
  | some derived =>
    if !b.bindings.satisfies guard || b.found.length < premises then .ok none
    else do
      let premiseIds ← (b.found.take premises).reverse.mapM Fact.id
      let step : ProofStep := { rule, premises := premiseIds, derived }
      return some { b with
        found := derived :: b.found.drop premises
        steps := addStep b.steps step }

end Branch

namespace Search

/-! ## Expanding a goal -/

/-- The branches in which a stored fact is found for an atom. -/
def stored (s : Search) (b : Branch) (atom : Atom) (guard : Option Guard) :
    Except StoreError (List Branch) :=
  match (atom.map b.bindings.resolve).query? [] with
  | none => .ok []
  | some q => do return (Fact.sort (← s.view.find q)).filterMap (b.withFact atom guard)

/-- A rule of which a head matches a goal. -/
structure Application where
  /-- The rule. -/
  rule : Rule
  /-- The head, with the variables of the rule renamed. -/
  head : Atom
  /-- What is known about variables once the head matches. -/
  bindings : Bindings

/-- The rules in force that have a head which matches an atom. -/
def applicable (s : Search) (b : Branch) (atom : Atom) : List Application :=
  (s.rules.filter Rule.enabled).flatMap fun rule =>
    rule.heads.filterMap fun head =>
      let head := head.rename b.suffix
      (b.bindings.unifyAtoms? atom head).map fun bindings => { rule, head, bindings }

/-- The goals that conditions become. -/
def conditionGoals (conditions : List Condition) (suffix : Text) (depth : Nat)
    (above : List Text) : List Goal :=
  conditions.map fun c =>
    let c := c.rename suffix
    .solve c.atom c.guard depth above

/-- The branch in which a rule is applied to a goal. -/
def withRule (b : Branch) (guard : Option Guard) (depth : Nat) (above : List Text)
    (a : Application) : Branch :=
  { b with
    goals := conditionGoals a.rule.conditions b.suffix (depth + 1) above ++
      .conclude a.head guard a.rule.name a.rule.conditions.length :: b.goals
    bindings := a.bindings
    applied := b.applied + 1 }

/-- The branches that take the place of a branch when a goal, which is taken off it, is worked on.
-/
def next (s : Search) (t : Tally) (b : Branch) : Goal → Tally × Except StoreError (List Branch)
  | .conclude head guard rule premises =>
    (t, (b.conclude head guard rule premises).map Option.toList)
  | .solve atom guard depth above =>
    let key := (atom.map b.bindings.resolve).key
    if above.contains key then ({ t with loopCut := true }, .ok [])
    else
      let t := { t with expansions := t.expansions + 1 }
      match s.stored b atom guard with
      | .error e => (t, .error e)
      | .ok branches =>
        let applications := s.applicable b atom
        if s.bound ≤ depth then
          ({ t with depthCut := t.depthCut || !applications.isEmpty }, .ok branches)
        else (t, .ok (branches ++ applications.map (withRule b guard depth (key :: above))))

/-! ## Weights -/

/-- A number that is greater by two than that of the conditions of any rule. -/
def breadth (s : Search) : Nat := s.rules.foldr (fun r k => max r.conditions.length k) 0 + 2

/-- The weight of a goal: the deeper it is, the less can come of it. -/
def goalWeight (s : Search) : Goal → Nat
  | .solve _ _ depth _ => Nat.pow s.breadth (s.bound - depth + 1)
  | .conclude .. => 1

/-- The weight of goals. -/
def goalsWeight (s : Search) : List Goal → Nat
  | [] => 0
  | g :: goals => s.goalWeight g + s.goalsWeight goals

/-- The weight of a branch. -/
def weight (s : Search) (b : Branch) : Nat := s.goalsWeight b.goals

theorem le_foldr_conditions {rules : List Rule} {r : Rule} (h : r ∈ rules) :
    r.conditions.length ≤ rules.foldr (fun r k => max r.conditions.length k) 0 := by
  induction rules with
  | nil => nomatch h
  | cons r' rules ih =>
    rw [List.foldr_cons]
    rcases List.mem_cons.1 h with rfl | h
    · omega
    · have := ih h
      omega

theorem conditions_lt_breadth {s : Search} {r : Rule} (h : r ∈ s.rules) :
    r.conditions.length + 2 ≤ s.breadth :=
  Nat.add_le_add_right (le_foldr_conditions h) 2

theorem goalWeight_pos (s : Search) (g : Goal) : 0 < s.goalWeight g := by
  cases g with
  | solve _ _ depth _ => exact Nat.pow_pos (by unfold breadth; omega)
  | conclude => exact Nat.one_pos

theorem goalsWeight_append (s : Search) (goals goals' : List Goal) :
    s.goalsWeight (goals ++ goals') = s.goalsWeight goals + s.goalsWeight goals' := by
  induction goals with
  | nil => simp [goalsWeight]
  | cons g goals ih => rw [List.cons_append, goalsWeight, goalsWeight, ih, Nat.add_assoc]

theorem goalsWeight_conditionGoals (s : Search) (conditions : List Condition) (suffix : Text)
    (depth : Nat) (above : List Text) :
    s.goalsWeight (conditionGoals conditions suffix depth above) =
      conditions.length * Nat.pow s.breadth (s.bound - depth + 1) := by
  induction conditions with
  | nil => simp [conditionGoals, goalsWeight]
  | cons c conditions ih =>
    rw [List.length_cons, Nat.add_mul, Nat.one_mul, Nat.add_comm, ← ih]
    rfl

theorem weight_withRule {s : Search} {b : Branch} {atom : Atom} {guard : Option Guard} {depth : Nat}
    {above : List Text} {a : Application} (ha : a ∈ s.applicable b atom) (hd : depth < s.bound) :
    s.weight (withRule b guard depth above a) <
      Nat.pow s.breadth (s.bound - depth + 1) + s.weight b := by
  have hr : a.rule ∈ s.rules := by
    simp only [applicable, List.mem_flatMap, List.mem_filter, List.mem_filterMap,
      Option.map_eq_some_iff] at ha
    obtain ⟨rule, ⟨hr, -⟩, head, -, bindings, -, rfl⟩ := ha
    exact hr
  have hk := conditions_lt_breadth hr
  have hx : 0 < Nat.pow s.breadth (s.bound - depth) := Nat.pow_pos (by omega)
  have hs : s.bound - (depth + 1) + 1 = s.bound - depth := by omega
  have hp : Nat.pow s.breadth (s.bound - depth + 1) =
      s.breadth * Nat.pow s.breadth (s.bound - depth) := Nat.mul_comm _ _
  have := Nat.mul_le_mul_right (Nat.pow s.breadth (s.bound - depth)) hk
  rw [Nat.add_mul] at this
  simp only [weight, withRule, goalsWeight_append, goalsWeight_conditionGoals, goalsWeight,
    goalWeight, hs]
  omega

theorem goals_withFact {b b' : Branch} {atom : Atom} {guard : Option Guard} {f : Fact}
    (h : b.withFact atom guard f = some b') : b'.goals = b.goals := by
  simp only [Branch.withFact, bind, Option.bind_eq_some_iff] at h
  obtain ⟨bindings, -, h⟩ := h
  split at h
  · cases h; rfl
  · nomatch h

theorem goals_of_mem_stored {s : Search} {b b' : Branch} {atom : Atom} {guard : Option Guard}
    {branches : List Branch} (h : s.stored b atom guard = .ok branches) (hb : b' ∈ branches) :
    b'.goals = b.goals := by
  unfold stored at h
  split at h
  · cases h; nomatch hb
  · next q _ =>
    cases hf : s.view.find q with
    | error e => simp [hf, bind, Except.bind] at h
    | ok facts =>
      simp only [hf, bind, Except.bind, pure, Except.pure, Except.ok.injEq] at h
      subst h
      obtain ⟨f, -, h⟩ := List.mem_filterMap.1 hb
      exact goals_withFact h

theorem goals_conclude {b b' : Branch} {head : Atom} {guard : Option Guard} {rule : Text}
    {premises : Nat} (h : b.conclude head guard rule premises = .ok (some b')) :
    b'.goals = b.goals := by
  unfold Branch.conclude at h
  split at h
  · nomatch h
  · split at h
    · nomatch h
    · cases hm : (b.found.take premises).reverse.mapM Fact.id with
      | error e => simp [hm, bind, Except.bind] at h
      | ok ids =>
        simp only [hm, bind, Except.bind, pure, Except.pure, Except.ok.injEq,
          Option.some.injEq] at h
        rw [← h]

/-- What takes the place of a branch is lighter than the branch. -/
theorem lighter_of_mem_next {s : Search} {t t' : Tally} {b b' : Branch} {g : Goal}
    {branches : List Branch} (h : s.next t b g = (t', .ok branches)) (hb : b' ∈ branches) :
    s.weight b' < s.goalWeight g + s.weight b := by
  have same (hg : b'.goals = b.goals) : s.weight b' < s.goalWeight g + s.weight b := by
    have := s.goalWeight_pos g
    simp only [weight, hg]
    omega
  cases g with
  | conclude head guard rule premises =>
    simp only [next, Prod.mk.injEq] at h
    cases hc : b.conclude head guard rule premises with
    | error e => simp [hc, Except.map] at h
    | ok r =>
      simp only [hc, Except.map, Except.ok.injEq] at h
      rw [← h.2, Option.mem_toList] at hb
      exact same (goals_conclude (hb ▸ hc))
  | solve atom guard depth above =>
    simp only [next] at h
    split at h
    · simp only [Prod.mk.injEq, Except.ok.injEq] at h
      rw [← h.2] at hb
      nomatch hb
    · split at h
      · simp at h
      · next found hfound =>
        split at h <;> simp only [Prod.mk.injEq, Except.ok.injEq] at h <;> rw [← h.2] at hb
        · exact same (goals_of_mem_stored hfound hb)
        · rcases List.mem_append.1 hb with hb | hb
          · exact same (goals_of_mem_stored hfound hb)
          · obtain ⟨a, ha, rfl⟩ := List.mem_map.1 hb
            exact weight_withRule ha (by omega)

/-! ## The search -/

/-- The branches that are left to a search. -/
abbrev Branches (_ : Search) := List Branch

/-- Branches that are left get lighter and lighter. -/
instance (s : Search) : WellFoundedRelation (Branches s) := ⟨_, Lighter.wellFounded s.weight⟩

/-- Works on the goals of branches until one has none left, and answers with its proof. -/
def run (s : Search) (t : Tally) (branches : Branches s) :
    Tally × Except StoreError (Option Proof) :=
  match branches with
  | [] => (t, .ok none)
  | { goals := [], found := f :: _, steps, .. } :: _ => (t, .ok (some ⟨f, steps⟩))
  | { goals := [], found := [], .. } :: rest => run s t rest
  | { goals := g :: goals, bindings, found, steps, applied } :: rest =>
    match _h : s.next t { goals, bindings, found, steps, applied } g with
    | (t, .error e) => (t, .error e)
    | (t, .ok parts) => run s t (parts ++ rest)
termination_by branches
decreasing_by
  · exact ⟨_, _, [], rfl, rfl, by simp⟩
  · exact ⟨_, _, parts, rfl, rfl, fun _ hb => lighter_of_mem_next _h hb⟩

end Search

/-! ## Proving -/

/-- Why a search without a proof failed: the bound on the depth and circles explain more than that
nothing was found. -/
def Tally.failure (t : Tally) (bound : Nat) (goal : Query) : LogicError :=
  if t.depthCut then .depthReached bound
  else if t.loopCut then .circularGoal goal
  else .notEstablished goal

/-- Searches for a proof of a goal with rules applied at most `bound` levels deep. -/
def Store.prove (s : Store) (c : Counters) (rules : Rulebook) (bound : Nat) (goal : Query) :
    Counters × Except Failure Proof :=
  let first : Branch := { goals := [.solve (.ofQuery goal) none 0 []] }
  let (t, outcome) := Search.run { view := s.view, rules := rules.rules, bound } {} [first]
  ({ c with searches := c.searches + 1, expansions := c.expansions + t.expansions },
    match outcome with
    | .error e => .error (.store e)
    | .ok none => .error (.logic (t.failure bound goal))
    | .ok (some p) => .ok p)

end FactGraph
