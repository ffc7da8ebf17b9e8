import FactGraph.Rule.Draft

/-!
# Rulebooks

A rulebook is a list of rules with different names, those of higher priority first; rules of one
priority stand in the order in which they were added. It is put together as a draft and does not
change afterwards: changing a rule makes another rulebook.
-/

namespace FactGraph

/-- A collection of rules. -/
structure Rulebook where
  /-- The name of the collection. -/
  name : Text := []
  /-- The rules, in the order in which they apply. -/
  rules : List Rule := []
deriving DecidableEq

namespace Rulebook

/-- The rulebook without rules. -/
def empty : Rulebook := {}

/-- The rule with a name. -/
def find? (b : Rulebook) (name : Text) : Option Rule := b.rules.find? fun r => r.name == name

/-- The rules of a kind. -/
def ofKind (b : Rulebook) (kind : RuleKind) : List Rule := b.rules.filter fun r => r.kind == kind

/-- A rulebook that is being put together. -/
structure Draft where
  /-- The name of the collection. -/
  name : Text := "default"
  /-- The rules in the order in which they were added. -/
  rules : List Rule := []

/-- The rules with one rule in the place of the first that has its name, if there is one. -/
def substitute (r : Rule) : List Rule → List Rule
  | [] => []
  | old :: rules => if old.name == r.name then r :: rules else old :: substitute r rules

namespace Draft

/-- Whether there is a rule with a name. -/
def has (d : Draft) (name : Text) : Bool := d.rules.any fun r => r.name == name

/-- Adds a rule with a new name. -/
def add (d : Draft) (r : Rule) : Except LogicError Draft := do
  let r ← r.checked
  if d.has r.name then throw (.duplicateRule r.name)
  return { d with rules := d.rules ++ [r] }

/-- Puts a rule in the place of the first rule with its name, or adds it where there is none. -/
def replace (d : Draft) (r : Rule) : Except LogicError Draft := do
  let r ← r.checked
  if d.has r.name then
    return { d with rules := substitute r d.rules }
  return { d with rules := d.rules ++ [r] }

/-- Adds rules one by one up to the first that cannot be added; the rules in front of it stay. -/
def addAll (d : Draft) : List Rule → Draft × Option LogicError
  | [] => (d, none)
  | r :: rules =>
    match d.add r with
    | .ok d => d.addAll rules
    | .error e => (d, some e)

/-- The rulebook of the rules added so far. -/
def finish (d : Draft) : Rulebook where
  name := d.name
  rules := d.rules.mergeSort fun a b => b.priority ≤ a.priority

end Draft

/-- The rulebook with a rule more, or with the rule in the place of the one with its name. -/
def withRule (b : Rulebook) (r : Rule) : Except LogicError Rulebook :=
  match Draft.addAll { name := b.name } b.rules with
  | (_, some e) => .error e
  | (d, none) => Draft.finish <$> d.replace r

end Rulebook
end FactGraph
