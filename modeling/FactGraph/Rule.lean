import FactGraph.Term
import FactGraph.Rule.Guard

/-!
# Rules

A rule has conditions and actions. The conditions are atoms that all have to be matched, each with
at most one guard on a variable that it or an earlier condition binds. For every match, the actions
derive a fact, reject the match, or require another fact.

`Rule.faults` lists what is wrong with a rule, the most important first; a rule without faults can
always be evaluated.
-/

namespace FactGraph

/-- What a rule is for. -/
inductive RuleKind where
  /-- Checks the form of facts. -/
  | integrity
  /-- Checks who may state what. -/
  | authority
  /-- Is about time. -/
  | temporal
  /-- Derives facts. -/
  | inference
  /-- Checks the rules of a domain. -/
  | constraint
deriving DecidableEq

namespace RuleKind

/-- The word for a kind of rule. -/
def name : RuleKind → Text
  | integrity => "integrity"
  | authority => "authority"
  | temporal => "temporal"
  | inference => "inference"
  | constraint => "constraint"

/-- The kind of rule that a word means. -/
def parse? (t : Text) : Option RuleKind :=
  [integrity, authority, temporal, inference, constraint].find? fun k => t == k.name

end RuleKind

/-- How bad the violation of a rule is. -/
inductive Severity where
  | warning
  | error
  | fatal
deriving DecidableEq

namespace Severity

/-- The word for a severity. -/
def name : Severity → Text
  | warning => "warning"
  | error => "error"
  | fatal => "fatal"

/-- The severity that a word means. -/
def parse? (t : Text) : Option Severity := [warning, error, fatal].find? fun s => t == s.name

end Severity

/-- An atom to be matched, with a guard on a variable. -/
structure Condition where
  /-- The atom. -/
  atom : Atom
  /-- The guard. -/
  guard : Option Guard := none
deriving DecidableEq

/-- What a rule does with a match. -/
inductive Action where
  /-- States the fact that the atom becomes. -/
  | derive (head : Atom)
  /-- Rejects the match for a reason. -/
  | reject (reason : Text)
  /-- Requires a fact that matches the atom. -/
  | require (atom : Atom)
deriving DecidableEq

namespace Action

/-- The word for an action. -/
def name : Action → Text
  | derive _ => "assert"
  | reject _ => "reject"
  | require _ => "require"

/-- The head of an action that derives. -/
def head? : Action → Option Atom
  | derive head => some head
  | _ => none

/-- The atom of an action; a rejection has wildcards only. -/
def atom : Action → Atom
  | derive head => head
  | reject _ => .any
  | require atom => atom

end Action

/-- A rule. -/
structure Rule where
  /-- The name. -/
  name : Text
  /-- What the rule is for. -/
  kind : RuleKind := .inference
  /-- What the rule says, in words. -/
  description : Text := []
  /-- How bad a violation is. -/
  severity : Severity := .error
  /-- Rules of higher priority come first. -/
  priority : Int := 0
  /-- Whether the rule is in force. -/
  enabled : Bool := true
  /-- What has to be matched, in order. -/
  conditions : List Condition := []
  /-- What is done with a match, in order. -/
  actions : List Action := []
deriving DecidableEq

namespace Rule

/-- The heads that a rule derives, in order. -/
def heads (r : Rule) : List Atom := r.actions.filterMap Action.head?

/-- Whether a rule derives anything. -/
def derives (r : Rule) : Bool := !r.heads.isEmpty

/-- Whether candidates are checked against a rule. -/
def validates (r : Rule) : Bool :=
  r.kind == .integrity || r.kind == .authority || r.kind == .constraint

end Rule

/-! ## Well-formed rules -/

/-- A part of a rule. -/
inductive RulePart where
  /-- The condition at a position. -/
  | condition (index : Nat)
  /-- The action at a position. -/
  | action (a : Action) (index : Nat)
deriving DecidableEq

/-- The text of a part of a rule. -/
def RulePart.toText : RulePart → Text
  | condition index => "condition " ++ Text.ofNat index
  | action a index => a.name ++ " action " ++ Text.ofNat index

/-- What is wrong with a rule. -/
inductive RuleFault where
  /-- The rule has no name. -/
  | emptyName
  /-- The rule has no conditions. -/
  | noConditions
  /-- The rule has no actions. -/
  | noActions
  /-- A constant that is no node stands in the place of a subject. -/
  | literalSubject (part : RulePart)
  /-- A constant that is no name stands in the place of a predicate. -/
  | unnamedPredicate (part : RulePart)
  /-- A guard is on a variable that no condition up to it binds. -/
  | earlyGuard (var : Text)
  /-- A wildcard stands in the head of a derivation. -/
  | wildcardHead (part : RulePart)
  /-- An action uses a variable that no condition binds. -/
  | unboundVariable (part : RulePart) (var : Text)
  /-- A guard was given before any condition. -/
  | guardWithoutCondition
  /-- A second guard was given to a condition. -/
  | secondGuard (index : Nat)
deriving DecidableEq

/-- The wording of a fault. -/
def RuleFault.toText : RuleFault → Text
  | emptyName => "empty name"
  | noConditions => "no conditions"
  | noActions => "no actions"
  | literalSubject part => part.toText ++ ": subject constant must be a node"
  | unnamedPredicate part => part.toText ++ ": predicate constant must be a name"
  | earlyGuard var =>
    "constraint on ?" ++ var ++ " before any condition binds it"
  | wildcardHead part => part.toText ++ ": template cannot contain a wildcard"
  | unboundVariable part var =>
    part.toText ++ ": ?" ++ var ++ " is not bound by any condition"
  | guardWithoutCondition => "where() before any when()"
  | secondGuard index => "condition " ++ Text.ofNat index ++ " already has a constraint"

namespace Rule

/-- Whether a term can stand in the place of a subject. -/
def isSubject : Term → Bool
  | .constant v => v.node?.isSome
  | _ => true

/-- Whether a term can stand in the place of a predicate. -/
def isPredicate : Term → Bool
  | .constant v => v.name?.isSome
  | _ => true

/-- Constants in places where they cannot stand. -/
def placeFaults (part : RulePart) (a : Atom) : List RuleFault :=
  (if isSubject a.subject then [] else [.literalSubject part]) ++
    (if isPredicate a.predicate then [] else [.unnamedPredicate part])

/-- The faults of conditions, the first of which is at a position, given the variables that the
conditions in front of it bind. -/
def conditionFaults : Nat → List Text → List Condition → List RuleFault
  | _, _, [] => []
  | index, bound, c :: rest =>
    let bound := bound ++ c.atom.varNames
    placeFaults (.condition index) c.atom ++
      (match c.guard with
        | some g => if bound.contains g.var then [] else [.earlyGuard g.var]
        | none => []) ++
      conditionFaults (index + 1) bound rest

/-- The variables that conditions bind. -/
def boundVariables (conditions : List Condition) : List Text :=
  conditions.flatMap fun c => c.atom.varNames

/-- The faults of an action at a position, given the variables that the conditions bind. -/
def actionFaults (bound : List Text) (a : Action) (index : Nat) : List RuleFault :=
  match a with
  | .reject _ => []
  | a =>
    placeFaults (.action a index) a.atom ++
      (if a.head?.isSome && a.atom.hasWildcard then [.wildcardHead (.action a index)] else []) ++
      ((a.atom.varNames.filter fun v => !bound.contains v).map
        (.unboundVariable (.action a index)))

/-- What is wrong with a rule, the most important fault first. -/
def faults (r : Rule) : List RuleFault :=
  (if r.name.isEmpty then [.emptyName] else []) ++
    (if r.conditions.isEmpty then [.noConditions] else []) ++
    (if r.actions.isEmpty then [.noActions] else []) ++
    conditionFaults 0 [] r.conditions ++
    r.actions.zipIdx.flatMap fun (a, index) =>
      actionFaults (boundVariables r.conditions) a index

end Rule
end FactGraph
