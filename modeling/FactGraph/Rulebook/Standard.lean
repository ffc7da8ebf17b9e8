import FactGraph.Rulebook

/-!
# Standard rules

Two rulebooks that come with the library: `integrity` checks the form of candidates, and `semantic`
derives what common relations imply. The rules for transitive, symmetric and inverse relations can
be made for any predicate.
-/

namespace FactGraph

/-- The atom that says that a relation holds between two terms. -/
def Atom.relation (s : Term) (predicate : Text) (o : Term) : Atom := ⟨s, .named predicate, o⟩

/-- The condition that a relation holds between two terms. -/
def Condition.relation (s : Term) (predicate : Text) (o : Term) : Condition :=
  { atom := .relation s predicate o }

/-- A condition that every fact matches, with a guard on one of its three fields, which the
variables `s`, `p` and `o` stand for. -/
def Condition.everyFact (guard : Guard) : Condition :=
  { atom := ⟨.var "s", .var "p", .var "o"⟩, guard := some guard }

namespace Rule

/-- What is related to something related is related to it. -/
def transitive (p : Text) : Rule where
  name := "transitive_" ++ p
  description := p ++ " is transitive"
  conditions := [.relation (.var "a") p (.var "b"), .relation (.var "b") p (.var "c")]
  actions := [.derive (.relation (.var "a") p (.var "c"))]

/-- A relation holds both ways. -/
def symmetric (p : Text) : Rule where
  name := "symmetric_" ++ p
  description := p ++ " is symmetric"
  conditions := [.relation (.var "a") p (.var "b")]
  actions := [.derive (.relation (.var "b") p (.var "a"))]

/-- One relation is the other one the other way round. -/
def inverse (p q : Text) : Rule where
  name := "inverse_" ++ p ++ "_" ++ q
  description := q ++ " is the inverse of " ++ p
  conditions := [.relation (.var "a") p (.var "b")]
  actions := [.derive (.relation (.var "b") q (.var "a"))]

/-- The white space that a name should not hold. -/
def whitespace : Text := " \t\n\x0b\x0c\r"

/-- No node points at itself. -/
def noSelfReference : Rule where
  name := "no_self_reference"
  kind := .integrity
  description := "a node may not point at itself"
  severity := .warning
  conditions := [{ atom := ⟨.var "x", .var "p", .var "x"⟩ }]
  actions := [.reject "?x refers to itself through ?p"]

/-- No predicate has the empty name. -/
def noEmptyPredicate : Rule where
  name := "no_empty_predicate"
  kind := .integrity
  priority := 10
  conditions := [.everyFact ⟨"p", .equal, .named []⟩]
  actions := [.reject "empty predicate on ?s"]

/-- No subject has the empty name. -/
def noEmptySubject : Rule where
  name := "no_empty_subject"
  kind := .integrity
  priority := 10
  conditions := [.everyFact ⟨"s", .equal, .named []⟩]
  actions := [.reject "empty subject name"]

/-- No name of a subject holds white space. -/
def noWhitespaceInSubject : Rule where
  name := "no_whitespace_in_subject"
  kind := .integrity
  description := "named subjects are identifiers"
  conditions := [.everyFact ⟨"s", .nameHolds, .string whitespace⟩]
  actions := [.reject "subject ?s contains whitespace"]

/-- No name of an object holds white space. -/
def noWhitespaceInObject : Rule where
  name := "no_whitespace_in_object_node"
  kind := .integrity
  description := "named objects are identifiers"
  conditions := [.everyFact ⟨"o", .nameHolds, .string whitespace⟩]
  actions := [.reject "object ?o of ?s contains whitespace"]

/-- Members of a class are members of the classes above it. -/
def subclassMembership : Rule where
  name := "subclass_membership"
  description := "members of a class are members of its superclasses"
  conditions :=
    [.relation (.var "x") "type" (.var "c"), .relation (.var "c") "subclass_of" (.var "d")]
  actions := [.derive (.relation (.var "x") "type" (.var "d"))]

/-- Parents are ancestors. -/
def ancestorBase : Rule where
  name := "ancestor_base"
  priority := 1
  conditions := [.relation (.var "a") "parent_of" (.var "b")]
  actions := [.derive (.relation (.var "a") "ancestor_of" (.var "b"))]

/-- Parents of ancestors are ancestors. -/
def ancestorStep : Rule where
  name := "ancestor_step"
  conditions :=
    [.relation (.var "a") "parent_of" (.var "b"), .relation (.var "b") "ancestor_of" (.var "c")]
  actions := [.derive (.relation (.var "a") "ancestor_of" (.var "c"))]

end Rule

namespace Rulebook

/-- The rules on the form of facts. -/
def integrity : Rulebook :=
  Draft.finish {
    name := "integrity"
    rules := [.noSelfReference, .noEmptyPredicate, .noEmptySubject, .noWhitespaceInSubject,
      .noWhitespaceInObject] }

/-- The rules on common relations: marriage, parents and children, classes, and ancestors. -/
def semantic : Rulebook :=
  Draft.finish {
    name := "semantic"
    rules := [.symmetric "married_to", .inverse "parent_of" "child_of", .subclassMembership,
      .transitive "subclass_of", .ancestorBase, .ancestorStep] }

end Rulebook
end FactGraph
