import FactGraph.Matching
import FactGraph.Report
import FactGraph.Rulebook
import FactGraph.Store.Overlay

/-!
# Validation

Candidates are checked before they are stored, as if all of them were stored already. Three checks
need no rule: a functional predicate has one object per subject, two predicates that exclude each
other do not hold between the same subject and object, and the temporal predicate has no cycles.
Then every rule in force that checks candidates is matched with a candidate in the place of each of
its conditions in turn.

`Store.conflicts` lists what is wrong among the stored facts. Neither changes the store.
-/

namespace FactGraph

/-- What is known about predicates. -/
structure Schema where
  /-- The predicates with at most one object per subject. -/
  functional : List Text := []
  /-- The pairs of predicates that exclude each other. -/
  exclusive : List (Text × Text) := []
  /-- The predicate that orders nodes in time. -/
  temporal : Text := "before"

namespace Schema

/-- Whether a predicate has at most one object per subject. -/
def isFunctional (schema : Schema) (predicate : Text) : Bool := schema.functional.contains predicate

/-! ## Functional predicates -/

/-- The finding that a functional predicate has another object. -/
def functionalFinding (f other : Fact) : Finding where
  severity := .fatal
  rule := "functional:" ++ f.predicate
  message := f.subject.toText ++ " " ++ f.predicate ++ " is " ++ f.object.toText ++ " but also " ++
    other.object.toText

/-- What speaks against a fact as its predicate is functional. -/
def checkFunctional (schema : Schema) (view : View) (f : Fact) :
    Except StoreError (List Finding) := do
  if schema.isFunctional f.predicate then
    let facts ← view.find (.leaving f.subject (some f.predicate))
    let others := (Fact.sort facts).filter fun other => other.object != f.object
    return others.map (functionalFinding f)
  else return []

/-! ## Exclusive predicates -/

/-- The predicate that a pair excludes where a predicate holds. -/
def excluded? (predicate : Text) (pair : Text × Text) : Option Text :=
  if predicate == pair.1 then some pair.2
  else if predicate == pair.2 then some pair.1
  else none

/-- The finding that a fact contradicts an excluded predicate. -/
def exclusiveFinding (f : Fact) (pair : Text × Text) (other : Text) : Finding where
  severity := .error
  rule := "exclusive:" ++ pair.1 ++ "/" ++ pair.2
  message := f.toText ++ " contradicts " ++ other ++ " on the same object"

/-- What speaks against a fact as a pair of predicates is exclusive. -/
def checkPair (view : View) (f : Fact) (pair : Text × Text) : Except StoreError (List Finding) := do
  match excluded? f.predicate pair with
  | none => return []
  | some other =>
    if ← view.contains { f with predicate := other } then return [exclusiveFinding f pair other]
    else return []

/-- What speaks against a fact as predicates are exclusive. -/
def checkExclusive (schema : Schema) (view : View) (f : Fact) :
    Except StoreError (List Finding) := do
  return (← schema.exclusive.mapM (checkPair view f)).flatten

/-! ## Order in time -/

/-- Puts a node among those met and those pending, unless it was met before. -/
def meet (s : List Node × List Node) (n : Node) : List Node × List Node :=
  if s.1.contains n then s else (n :: s.1, n :: s.2)

/-- Whether a node is reached from pending nodes, the first one next, by facts with a predicate. The
nodes met before are not pending again, and at most a number of nodes are followed. -/
def reaches (view : View) (predicate : Text) (target : Node) :
    Nat → List Node → List Node → Except StoreError Bool
  | 0, _, _ => .ok false
  | _ + 1, _, [] => .ok false
  | count + 1, met, n :: pending =>
    if n == target then .ok true
    else do
      let edges ← view.find (.leaving n (some predicate))
      let (met, pending) := (edges.filterMap fun e => e.object.node?).foldl meet (met, pending)
      reaches view predicate target count met pending

/-- The finding that a fact closes a cycle. -/
def temporalFinding (schema : Schema) (f : Fact) : Finding where
  severity := .error
  rule := "temporal:" ++ schema.temporal
  message := f.toText ++ " closes a cycle"

/-- What speaks against a fact as it orders nodes in time: its subject must not be reached from its
object. Every node on the way but the first is the object of a fact. -/
def checkTemporal (schema : Schema) (view : View) (f : Fact) :
    Except StoreError (List Finding) := do
  match f.object with
  | .node n =>
    if f.predicate == schema.temporal then
      if ← reaches view schema.temporal f.subject (view.extent + 1) [n] [n] then
        return [schema.temporalFinding f]
    return []
  | _ => return []

end Schema

/-! ## Rules -/

namespace Rule

/-- The names of the variables of an atom in words, or the atom where it has none. -/
def variableText (a : Atom) : Text :=
  match a.varNames with
  | [] => a.toText
  | names => List.intercalate ", " (names.map ('?'.toUInt8 :: ·))

/-- Whether a fact that matches an atom under a substitution is there. -/
def isMet (view : View) (a : Atom) (s : Substitution) : Except StoreError Bool := do
  match a.query? s with
  | none => return false
  | some q => return (← view.find q).any fun f => (a.unify f s).isSome

/-- What an action has against a match. -/
def judge (r : Rule) (view : View) (s : Substitution) : Action → Except StoreError (List Finding)
  | .derive _ => .ok []
  | .reject reason =>
    .ok [⟨r.severity, r.name, s.render (if reason.isEmpty then r.description else reason)⟩]
  | .require a => do
    if ← isMet view a s then return []
    else return [⟨r.severity, r.name,
      "requires " ++ a.toText ++ " for " ++ s.render (variableText a)⟩]

/-- The matches of the conditions in which a fact stands in the place of one of them. -/
def matchesAt (r : Rule) (view : View) (f : Fact) (position : Nat) (c : Condition) :
    Except StoreError (List Match) := do
  match c.atom.unify f [] with
  | none => return []
  | some s =>
    let found ← Condition.allMatches view (r.conditions.eraseIdx position) s
    return found.filter fun m => Condition.allHold r.conditions m.bindings

/-- What a rule has against a fact. -/
def findings (r : Rule) (view : View) (f : Fact) : Except StoreError (List Finding) := do
  let perCondition ← r.conditions.zipIdx.mapM fun (c, i) => do
    let found ← r.matchesAt view f i c
    let perMatch ← found.mapM fun m => r.actions.mapM (r.judge view m.bindings)
    return perMatch.flatten.flatten
  return perCondition.flatten

end Rule

/-! ## Candidates -/

/-- What the rules that check candidates have against a fact. -/
def Rulebook.findings (rules : Rulebook) (view : View) (f : Fact) :
    Except StoreError (List Finding) := do
  let checking := rules.rules.filter fun r => r.enabled && r.validates
  return (← checking.mapM fun r => r.findings view f).flatten

/-- Everything that speaks against a fact. -/
def Schema.findings (schema : Schema) (rules : Rulebook) (view : View) (f : Fact) :
    Except StoreError (List Finding) := do
  let functional ← schema.checkFunctional view f
  let exclusive ← schema.checkExclusive view f
  let temporal ← schema.checkTemporal view f
  return functional ++ exclusive ++ temporal ++ (← rules.findings view f)

/-- Checks candidates as if all of them were stored. -/
def Store.validate (s : Store) (schema : Schema) (rules : Rulebook) (batch : List Fact) :
    Except StoreError Report := do
  let found ← batch.mapM (schema.findings rules (s.overlay batch))
  return Report.addAll {} found.flatten

/-! ## Conflicts in a store -/

/-- Two stored facts that cannot stand together. -/
structure Conflict where
  /-- One fact. -/
  first : Fact
  /-- The other fact. -/
  second : Fact
  /-- Why not, in words. -/
  description : Text
deriving DecidableEq

namespace Store

/-- The conflicts of a functional predicate: neighbours, in the order of facts, that have one
subject and two objects. -/
def functionalConflicts (predicate : Text) : List Fact → List Conflict
  | f :: g :: rest =>
    let others := functionalConflicts predicate (g :: rest)
    if f.subject == g.subject && f.object != g.object then
      ⟨f, g, "functional predicate " ++ predicate ++ " has two values for " ++
        g.subject.toText⟩ :: others
    else others
  | _ => []

/-- The conflicts of a pair of exclusive predicates. -/
def exclusiveConflicts (s : Store) (pair : Text × Text) : Except StoreError (List Conflict) := do
  let facts := Fact.sort (← s.find (.about pair.1))
  let clashes ← facts.mapM fun f => do
    let other := { f with predicate := pair.2 }
    if ← s.contains other then
      return [⟨f, other, pair.1 ++ " and " ++ pair.2 ++ " are mutually exclusive"⟩]
    else return []
  return clashes.flatten

/-- The conflict of a fact with the temporal predicate: with itself, or with the fact that says the
opposite. Of two such facts the one with the lesser subject is reported. -/
def temporalConflict (s : Store) (predicate : Text) (f : Fact) :
    Except StoreError (List Conflict) := do
  match f.object with
  | .node n =>
    if n == f.subject then
      return [⟨f, f, f.subject.toText ++ " is " ++ predicate ++ " itself"⟩]
    else
      let opposite : Fact := ⟨n, predicate, .node f.subject⟩
      if compare f.subject n == .lt then
        if ← s.contains opposite then
          return [⟨f, opposite, "temporal cycle between " ++ f.subject.toText ++ " and " ++
            n.toText⟩]
      return []
  | _ => return []

/-- Every conflict among the stored facts: of functional predicates in the order of their names, of
exclusive pairs, and in time. -/
def conflicts (s : Store) (schema : Schema) : Except StoreError (List Conflict) := do
  let functional ← (sortNames schema.functional).mapM fun predicate => do
    return functionalConflicts predicate (Fact.sort (← s.find (.about predicate)))
  let exclusive ← schema.exclusive.mapM s.exclusiveConflicts
  let edges := Fact.sort (← s.find (.about schema.temporal))
  let temporal ← edges.mapM (s.temporalConflict schema.temporal)
  return functional.flatten ++ exclusive.flatten ++ temporal.flatten

end Store
end FactGraph
