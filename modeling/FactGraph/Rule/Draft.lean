import FactGraph.LogicError

/-!
# Drafts of rules

A draft collects the parts of a rule. A guard belongs to the condition given last; a guard that has
no place is remembered, and finishing the draft reports the last one. A finished rule has no faults.
-/

namespace FactGraph

namespace Rule

/-- A rule without faults, or the first fault. -/
def checked (r : Rule) : Except LogicError Rule :=
  match r.faults with
  | [] => .ok r
  | fault :: _ => .error (.invalidRule r.name fault)

/-- A rule that is being put together. -/
structure Draft where
  /-- What there is so far. -/
  rule : Rule
  /-- The last guard that had no place. -/
  fault : Option RuleFault := none

namespace Draft

/-- A draft without conditions and actions. -/
def new (name : Text) (kind : RuleKind) : Draft := { rule := { name, kind } }

/-- Sets the description. -/
def describe (d : Draft) (description : Text) : Draft := { d with rule.description := description }

/-- Sets the severity. -/
def severity (d : Draft) (severity : Severity) : Draft := { d with rule.severity := severity }

/-- Sets the priority. -/
def priority (d : Draft) (priority : Int) : Draft := { d with rule.priority := priority }

/-- Puts the rule in force or out of force. -/
def enabled (d : Draft) (enabled : Bool) : Draft := { d with rule.enabled := enabled }

/-- Adds a condition. -/
def condition (d : Draft) (atom : Atom) : Draft :=
  { d with rule.conditions := d.rule.conditions ++ [{ atom }] }

/-- Adds a guard to the last condition. -/
def guard (d : Draft) (guard : Guard) : Draft :=
  match d.rule.conditions.getLast? with
  | none => { d with fault := some .guardWithoutCondition }
  | some { guard := some _, .. } =>
    { d with fault := some (.secondGuard (d.rule.conditions.length - 1)) }
  | some { atom, guard := none } =>
    { d with rule.conditions := d.rule.conditions.dropLast ++ [{ atom, guard := some guard }] }

/-- Adds an action. -/
def action (d : Draft) (action : Action) : Draft :=
  { d with rule.actions := d.rule.actions ++ [action] }

/-- The finished rule, or what is wrong with it. -/
def finish (d : Draft) : Except LogicError Rule :=
  match d.fault with
  | some fault => .error (.invalidRule d.rule.name fault)
  | none => d.rule.checked

end Draft
end Rule
end FactGraph
