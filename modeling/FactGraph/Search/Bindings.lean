import FactGraph.Term
import FactGraph.Rule

/-!
# Bindings

Bindings give values to variables and identify variables with each other. A variable that is
identified with another one refers to it; at the end of the references stands the root of the
variable, and only roots have values.

Terms are unified one equation after the other: `unify?` extends bindings by one equation, or fails
and adds nothing. A wildcard is equal to everything and binds nothing.
-/

namespace FactGraph

/-- Values of variables, and references from variables to other variables. -/
structure Bindings where
  /-- The values of roots. -/
  values : List (Text × Value) := []
  /-- The references. -/
  aliases : List (Text × Text) := []
deriving DecidableEq

namespace Bindings

/-- Follows the references from a variable, at most a number of them. -/
def follow (aliases : List (Text × Text)) : Nat → Text → Text
  | 0, v => v
  | count + 1, v =>
    match aliases.lookup v with
    | none => v
    | some w => follow aliases count w

/-- The root of a variable. As references make no circles, there are no more of them on the way than
there are in all. -/
def root (b : Bindings) (v : Text) : Text := follow b.aliases b.aliases.length v

/-- What a term is under bindings: a value, or the root of a variable. -/
def resolve (b : Bindings) : Term → Term
  | .var v =>
    match b.values.lookup (b.root v) with
    | some x => .constant x
    | none => .var (b.root v)
  | t => t

/-- Whether a guard holds of the value of its variable. It does not hold of a variable without
one. -/
def satisfies (b : Bindings) (guard : Option Guard) : Bool :=
  match guard with
  | none => true
  | some g =>
    match b.resolve (.var g.var) with
    | .constant x => g.holds x
    | _ => false

/-- Gives a value to a variable that has none, or that has this one. -/
def bind (b : Bindings) (v : Text) (x : Value) : Option Bindings :=
  let r := b.root v
  match b.values.lookup r with
  | none => some { b with values := (r, x) :: b.values }
  | some y => if y == x then some b else none

/-- Identifies two variables unless they have different values. The root of the first refers to the
root of the second, which takes over its value. -/
def join (b : Bindings) (v w : Text) : Option Bindings :=
  let r := b.root v
  let s := b.root w
  if r == s then some b
  else match b.values.lookup r, b.values.lookup s with
    | some x, some y => if x == y then some b else none
    | some x, none =>
      some {
          values := (s, x) :: b.values.filter (fun e => e.1 != r)
          aliases := (r, s) :: b.aliases }
    | none, _ => some { b with aliases := (r, s) :: b.aliases }

/-- Extends bindings so that two terms become equal. -/
def unify? (b : Bindings) (s t : Term) : Option Bindings :=
  match b.resolve s, b.resolve t with
  | .any, _ | _, .any => some b
  | .constant x, .constant y => if x == y then some b else none
  | .var v, .var w => b.join v w
  | .var v, .constant x | .constant x, .var v => b.bind v x

/-- Extends bindings by equations between terms, one after the other. -/
def unifyEach? (b : Bindings) : List (Term × Term) → Option Bindings
  | [] => some b
  | (s, t) :: rest => do (← b.unify? s t).unifyEach? rest

/-- Extends bindings so that two atoms become equal. -/
def unifyAtoms? (b : Bindings) (a a' : Atom) : Option Bindings :=
  b.unifyEach? (a.terms.zip a'.terms)

end Bindings
end FactGraph
