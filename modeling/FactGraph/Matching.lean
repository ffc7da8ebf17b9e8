import FactGraph.Substitution
import FactGraph.View

/-!
# Matches of conditions

A match of a list of conditions is a substitution with one fact per condition that the condition
becomes under it, such that all guards hold. `allMatches` finds all of them in a view, condition by
condition, asking for the facts that fit the values found so far; `unifyAll` checks a given list of
facts. A guard is tried as soon as its variable has a value, and all guards once more at the end, so
that it does not matter which condition binds the variable.
-/

namespace FactGraph

/-- A match of conditions. -/
structure Match where
  /-- The values of the variables. -/
  bindings : Substitution
  /-- One fact per condition, in their order. -/
  premises : List Fact
deriving DecidableEq

namespace Condition

/-- A match with one more condition, by a given fact. -/
def extendBy (c : Condition) (m : Match) (f : Fact) : Option Match := do
  let s ← c.atom.unify f m.bindings
  if c.refuted s then none else some ⟨s, m.premises ++ [f]⟩

/-- All ways to extend a match by a fact of a view for one more condition. -/
def extend (view : View) (c : Condition) (m : Match) : Except StoreError (List Match) :=
  match c.atom.query? m.bindings with
  | none => .ok []
  | some q => do return (← view.find q).filterMap (c.extendBy m)

/-- All ways to extend matches by facts of a view for more conditions. -/
def join (view : View) : List Condition → List Match → Except StoreError (List Match)
  | [], found => .ok found
  | c :: conditions, found => do
    let next ← found.mapM (c.extend view)
    join view conditions next.flatten

/-- The matches of conditions in a view that extend a substitution. -/
def allMatches (view : View) (conditions : List Condition) (s : Substitution) :
    Except StoreError (List Match) := do
  let found ← join view conditions [⟨s, []⟩]
  return found.filter fun m => allHold conditions m.bindings

/-- Extends a substitution so that conditions become facts, one by one. -/
def unifyEach : List Condition → List Fact → Substitution → Option Substitution
  | [], [], s => some s
  | c :: conditions, f :: facts, s => do unifyEach conditions facts (← c.atom.unify f s)
  | _, _, _ => none

/-- The substitution under which conditions become facts, one by one, if all guards hold. -/
def unifyAll (conditions : List Condition) (facts : List Fact) : Option Substitution := do
  let s ← unifyEach conditions facts []
  if allHold conditions s then some s else none

end Condition
end FactGraph
