import FactGraph.LogicError

/-!
# Substitutions

A substitution gives values to variables. It is a list of pairs in ascending order of the names,
each name at most once, so that equal substitutions are equal lists; read as a function it is
`lookup`. Unifying an atom with a fact extends a substitution as little as possible, or fails.
-/

namespace FactGraph

/-- Values of variables, in ascending order of their names. -/
abbrev Substitution := List (Text × Value)

namespace Substitution

/-- The value of a variable. -/
def lookup (s : Substitution) (v : Text) : Option Value := List.lookup v s

/-- Gives a value to a variable that has none, or that has this one. -/
def bind (v : Text) (x : Value) : Substitution → Option Substitution
  | [] => some [(v, x)]
  | (w, y) :: rest =>
    match compare v w with
    | .lt => some ((v, x) :: (w, y) :: rest)
    | .eq => if y == x then some ((w, y) :: rest) else none
    | .gt => (bind v x rest).map ((w, y) :: ·)

end Substitution

namespace Term

/-- The value of a term: a constant, or what the variable is bound to. -/
def value? (s : Substitution) : Term → Option Value
  | any => none
  | var v => s.lookup v
  | constant c => some c

/-- Extends a substitution so that a term becomes a value. -/
def unify (t : Term) (x : Value) (s : Substitution) : Option Substitution :=
  match t with
  | any => some s
  | var v => s.bind v x
  | constant c => if c == x then some s else none

end Term

namespace Atom

/-- Extends a substitution so that an atom becomes a fact. -/
def unify (a : Atom) (f : Fact) (s : Substitution) : Option Substitution := do
  let s ← a.subject.unify (.node f.subject) s
  let s ← a.predicate.unify (.named f.predicate) s
  a.object.unify f.object s

/-- The query for the facts that an atom can become under a substitution. There are none where the
subject is a literal or the predicate no name. -/
def query? (a : Atom) (s : Substitution) : Option Query := do
  let subject ← match a.subject.value? s with
    | none => some none
    | some v => v.node?.map some
  let predicate ← match a.predicate.value? s with
    | none => some none
    | some v => v.name?.map some
  return ⟨subject, predicate, a.object.value? s⟩

/-- The fact that an atom becomes under a substitution that binds all its variables. -/
def instantiate? (a : Atom) (s : Substitution) : Option Fact := do
  let subject ← a.subject.value? s
  let predicate ← a.predicate.value? s
  let object ← a.object.value? s
  return ⟨← subject.node?, ← predicate.name?, object⟩

/-- The fact that an atom becomes under a substitution; it has to become one. -/
def instantiate (a : Atom) (s : Substitution) : Except LogicError Fact :=
  match a.instantiate? s with
  | some f => .ok f
  | none => .error (.notGround a s.length)

end Atom

namespace Condition

/-- Whether the guard of a condition holds. It does not hold of a variable without a value. -/
def holds (c : Condition) (s : Substitution) : Bool :=
  match c.guard with
  | none => true
  | some g => (s.lookup g.var).elim false g.holds

/-- Whether the guard of a condition fails on the value that its variable has. -/
def refuted (c : Condition) (s : Substitution) : Bool :=
  match c.guard with
  | none => false
  | some g => (s.lookup g.var).elim false fun x => !g.holds x

/-- Whether the guards of all conditions hold. -/
def allHold (conditions : List Condition) (s : Substitution) : Bool :=
  conditions.all fun c => c.holds s

end Condition

namespace Substitution

/-- Writes a text with the values of variables in the place of their names behind question marks.
The first `skip` bytes are left out. -/
def renderFrom (s : Substitution) : Nat → Text → Text
  | _, [] => []
  | skip + 1, _ :: rest => renderFrom s skip rest
  | 0, c :: rest =>
    let name := rest.takeWhile Text.isWord
    match if c == '?'.toUInt8 && !name.isEmpty then s.lookup name else none with
    | some x => x.toText ++ renderFrom s name.length rest
    | none => c :: renderFrom s 0 rest

/-- Writes a text with the values of variables in the place of their names behind question marks. -/
def render (s : Substitution) (t : Text) : Text := s.renderFrom 0 t

end Substitution
end FactGraph
