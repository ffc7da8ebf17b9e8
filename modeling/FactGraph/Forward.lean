import FactGraph.Attempt
import FactGraph.Counters
import FactGraph.Matching
import FactGraph.Rulebook
import FactGraph.Store

/-!
# Forward chaining

Forward chaining stores what rules derive from the stored facts, sweep by sweep, until a sweep
stores nothing new. A sweep takes the rules one after the other; the matches of a rule are found
before its first fact is stored, and what a rule stores is there for the rules behind it.

A run that fails leaves what it stored. `findDerived` works on a copy of the store in memory and
leaves the store alone.
-/

namespace FactGraph

/-- Forward chaining under way. -/
structure Run where
  /-- The store. -/
  store : Store
  /-- The facts that were derived and new, in the order in which they were stored. -/
  derived : List Fact := []
  /-- How many matches were acted on. -/
  firings : Nat := 0
  /-- How many sweeps were begun. -/
  sweeps : Nat := 0

namespace Run

/-- The failure that an error becomes when a derived fact is stored. -/
def insertFailure (e : StoreError) : Failure :=
  if e.kind == .invalidFact then .logic (.store e) else .store e

/-- Stores what a head becomes under a substitution; what becomes no fact is passed over. -/
def derive (s : Substitution) (r : Run) (head : Atom) : Attempt Failure Run :=
  match head.instantiate? s with
  | none => (r, none)
  | some f =>
    match r.store.insert f with
    | .error e => (r, some (insertFailure e))
    | .ok (store, _, true) => ({ r with store, derived := r.derived ++ [f] }, none)
    | .ok (store, _, false) => ({ r with store }, none)

/-- Acts on a match of a rule. -/
def fire (rule : Rule) (r : Run) (m : Match) : Attempt Failure Run :=
  Attempt.forEach (derive m.bindings) { r with firings := r.firings + 1 } rule.heads

/-- Acts on all matches of a rule that is in force and derives something. -/
def apply (r : Run) (rule : Rule) : Attempt Failure Run :=
  if rule.enabled && rule.derives then
    match Condition.allMatches r.store.view rule.conditions [] with
    | .error e => (r, some (.store e))
    | .ok found => Attempt.forEach (fire rule) r found
  else (r, none)

/-- Applies all rules once. -/
def sweep (rules : List Rule) (r : Run) : Attempt Failure Run := Attempt.forEach apply r rules

/-- Applies all rules again and again until nothing new is stored. After the last of the sweeps that
are left, the run fails and reports their bound. -/
def toFixpoint (rules : List Rule) (bound : Nat) : Nat → Run → Attempt Failure Run
  | 0, r => (r, some (.logic (.noFixpoint bound r.derived.length)))
  | left + 1, r =>
    match sweep rules { r with sweeps := r.sweeps + 1 } with
    | (next, some e) => (next, some e)
    | (next, none) =>
      if next.derived.length == r.derived.length then (next, none)
      else toFixpoint rules bound left next

end Run

/-- What forward chaining leaves. -/
structure Inference where
  /-- The store, with what was derived. -/
  store : Store
  /-- The counters. -/
  counters : Counters
  /-- The facts that are new, in the order in which they were stored. -/
  outcome : Except Failure (List Fact)

namespace Store

/-- Forward chaining with at most a number of sweeps. A run that fails does not count the facts that
it derived. -/
def infer (s : Store) (c : Counters) (rules : Rulebook) (bound : Nat) : Inference :=
  let (r, failed) := Run.toFixpoint rules.rules bound bound { store := s }
  let counters := { c with
    forwardRuns := c.forwardRuns + 1
    sweeps := c.sweeps + r.sweeps
    firings := c.firings + r.firings }
  match failed with
  | some e => { store := r.store, counters, outcome := .error e }
  | none =>
    { store := r.store, counters := { counters with derived := c.derived + r.derived.length }
      outcome := .ok r.derived }

/-- The store in memory that holds the given facts. -/
def inMemory (facts : List Fact) : Except StoreError Store :=
  match insertAll { storage := .memory {} } facts with
  | (s, .ok _) => .ok s
  | (_, .error e) => .error e

/-- The facts that a query accepts among the stored ones and everything that rules derive from them.
The store stays as it is. -/
def findDerived (s : Store) (rules : Rulebook) (bound : Nat) (q : Query) :
    Except Failure (List Fact) := do
  let scratch ← StoreError.lift do inMemory (← s.find .any)
  let run := scratch.infer {} rules bound
  let _ ← run.outcome
  StoreError.lift (run.store.find q)

end Store
end FactGraph
