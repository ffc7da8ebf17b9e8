import FactGraph.Value

/-!
# Facts and queries

A fact says that a subject stands in a relation to an object. A query is a fact with some of its
three fields left open; it matches every fact that agrees with it on the others.
-/

namespace FactGraph

/-- A fact: subject, predicate, object. -/
structure Fact where
  /-- The node that the fact is about. -/
  subject : Node
  /-- The name of the relation. -/
  predicate : Text
  /-- What the subject is related to. -/
  object : Value
deriving BEq, ReflBEq, LawfulBEq

namespace Fact

instance : DecidableEq Fact := instDecidableEqOfLawfulBEq

instance : Inhabited Fact := ⟨⟨default, [], default⟩⟩

/-- Facts are listed by subject, then by predicate, then by object. -/
instance : Ord Fact where
  compare a b :=
    (compare a.subject b.subject).then
      ((compare a.predicate b.predicate).then (compare a.object b.object))

/-- Facts in their order. -/
def sort (facts : List Fact) : List Fact := facts.mergeSort fun a b => compare a b != .gt

/-- The text of a fact: its three fields in parentheses. -/
def toText (f : Fact) : Text :=
  "(" ++ f.subject.toText ++ " " ++ Text.bracket f.predicate ++ " " ++ f.object.toText ++ ")"

end Fact

/-- A fact with some fields left open. -/
structure Query where
  /-- The subject asked for. -/
  subject : Option Node := none
  /-- The predicate asked for. -/
  predicate : Option Text := none
  /-- The object asked for. -/
  object : Option Value := none
deriving BEq, ReflBEq, LawfulBEq

namespace Query

instance : DecidableEq Query := instDecidableEqOfLawfulBEq

/-- The query that matches every fact. -/
def any : Query := {}

/-- The query that matches one fact only. -/
def exact (f : Fact) : Query := ⟨some f.subject, some f.predicate, some f.object⟩

/-- The query for the facts with one predicate. -/
def about (predicate : Text) : Query := { predicate := some predicate }

/-- The query for the facts about one subject, of one predicate or of any. -/
def leaving (subject : Node) (predicate : Option Text) : Query := ⟨some subject, predicate, none⟩

/-- Whether an open field, or one that asks for `b`, agrees with `b`. -/
def agrees {α : Type} [BEq α] (asked : Option α) (b : α) : Bool :=
  match asked with
  | none => true
  | some a => a == b

/-- Whether a fact agrees with every field that is asked for. -/
def accepts (q : Query) (f : Fact) : Bool :=
  agrees q.subject f.subject && agrees q.predicate f.predicate && agrees q.object f.object

/-- How many fields are asked for. -/
def boundCount (q : Query) : Nat :=
  q.subject.isSome.toNat + q.predicate.isSome.toNat + q.object.isSome.toNat

/-- Whether every field is open. -/
def isAny (q : Query) : Bool := q.boundCount == 0

/-- The fact that a query without open fields asks for. -/
def fact? (q : Query) : Option Fact := do
  return ⟨← q.subject, ← q.predicate, ← q.object⟩

/-- The text of a field, with a star for an open one. -/
def fieldText {α : Type} (toText : α → Text) (asked : Option α) : Text :=
  asked.elim "*" toText

/-- The text of a query: its three fields in parentheses. -/
def toText (q : Query) : Text :=
  "(" ++ fieldText Node.toText q.subject ++ " " ++ fieldText Text.bracket q.predicate ++ " " ++
    fieldText Value.toText q.object ++ ")"

end Query
end FactGraph
