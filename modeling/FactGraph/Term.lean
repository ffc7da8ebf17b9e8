import FactGraph.Fact

/-!
# Terms and atoms

Rules speak about facts through atoms: facts in whose three places a variable or a wildcard may
stand. A predicate counts as the named node of its name, so that one variable may stand for a
predicate in one place and for a node in another.
-/

namespace FactGraph

/-- What stands in a place of an atom. -/
inductive Term where
  /-- A wildcard, which matches anything and binds nothing. -/
  | any
  /-- A variable. -/
  | var (name : Text)
  /-- A value. -/
  | constant (v : Value)
deriving BEq, ReflBEq, LawfulBEq

namespace Term

instance : DecidableEq Term := instDecidableEqOfLawfulBEq

/-- The constant that is a node with the given name. -/
def named (name : Text) : Term := constant (.named name)

/-- The name of a variable. -/
def var? : Term → Option Text
  | var name => some name
  | _ => none

/-- Whether the term is a wildcard. -/
def isAny : Term → Bool
  | any => true
  | _ => false

/-- The text of a term. -/
def toText : Term → Text
  | any => "*"
  | var name => '?'.toUInt8 :: name
  | constant v => v.toText

end Term

/-- A fact with terms in its three places. -/
structure Atom where
  /-- The term in the place of the subject. -/
  subject : Term
  /-- The term in the place of the predicate. -/
  predicate : Term
  /-- The term in the place of the object. -/
  object : Term
deriving BEq, ReflBEq, LawfulBEq

/-- Puts a name into a list of names in ascending order, unless it is there. -/
def insertName (name : Text) : List Text → List Text
  | [] => [name]
  | other :: rest =>
    match compare name other with
    | .lt => name :: other :: rest
    | .eq => other :: rest
    | .gt => other :: insertName name rest

/-- The names of a list, each once and in ascending order. -/
def sortNames (names : List Text) : List Text := names.foldr insertName []

namespace Atom

instance : DecidableEq Atom := instDecidableEqOfLawfulBEq

/-- The atom with a wildcard in every place. -/
def any : Atom := ⟨.any, .any, .any⟩

/-- The three terms. -/
def terms (a : Atom) : List Term := [a.subject, a.predicate, a.object]

/-- The variables of an atom, each once and in ascending order. -/
def varNames (a : Atom) : List Text := sortNames (a.terms.filterMap Term.var?)

/-- Whether a wildcard stands somewhere. -/
def hasWildcard (a : Atom) : Bool := a.terms.any Term.isAny

/-- The atom whose terms are the images of the terms. -/
def map (f : Term → Term) (a : Atom) : Atom := ⟨f a.subject, f a.predicate, f a.object⟩

/-- The atom that is a fact. -/
def ofFact (f : Fact) : Atom :=
  ⟨.constant (.node f.subject), .named f.predicate, .constant f.object⟩

/-- The atom that a query asks for: its open fields are wildcards. -/
def ofQuery (q : Query) : Atom :=
  ⟨q.subject.elim .any fun n => .constant (.node n), q.predicate.elim .any .named,
    q.object.elim .any .constant⟩

/-- The text of an atom: its three terms in parentheses. -/
def toText (a : Atom) : Text :=
  "(" ++ a.subject.toText ++ " " ++ a.predicate.toText ++ " " ++ a.object.toText ++ ")"

end Atom
end FactGraph
