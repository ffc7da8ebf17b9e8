import FactGraph.Node
import FactGraph.Binary64.Decimal

/-!
# Values

A value is what stands in the object of a fact: a node, a string, an integer of 64 bits, a double or
a truth value. Two values are the same only if they are of one kind; `Value.compare?` compares by
meaning where kinds allow it, and `Ord Value` is the order in which values are listed.
-/

namespace FactGraph

/-- The object of a fact. -/
inductive Value where
  /-- A node. -/
  | node (n : Node)
  /-- A string literal. -/
  | string (t : Text)
  /-- An integer literal. -/
  | integer (n : Int64)
  /-- A floating point literal. -/
  | float (x : Binary64)
  /-- A truth value. -/
  | boolean (b : Bool)
deriving BEq, ReflBEq, LawfulBEq

namespace Value

instance : DecidableEq Value := instDecidableEqOfLawfulBEq

instance : Inhabited Value := ⟨string []⟩

/-- The named node with the given name. -/
abbrev named (name : Text) : Value := node (.named name)

/-- The position of a kind among the kinds. -/
def kindRank : Value → Nat
  | node _ => 0
  | string _ => 1
  | integer _ => 2
  | float _ => 3
  | boolean _ => 4

/-- The word for the kind of a value. -/
def kindName : Value → Text
  | node _ => "node"
  | string _ => "string"
  | integer _ => "integer"
  | float _ => "float"
  | boolean _ => "boolean"

/-- Values are listed by kind, and within a kind by what they hold. -/
instance : Ord Value where
  compare
    | node a, node b => compare a b
    | string a, string b => compare a b
    | integer a, integer b => compare a b
    | float a, float b => compare a b
    | boolean a, boolean b => compare a b
    | a, b => compare a.kindRank b.kindRank

/-- Whether the value is an integer or a double. -/
def isNumeric : Value → Bool
  | integer _ | float _ => true
  | _ => false

/-- The node that a value is. -/
def node? : Value → Option Node
  | node n => some n
  | _ => none

/-- The name that a value is, if it is a named node. -/
def name? : Value → Option Text
  | node n => n.name?
  | _ => none

/-- The double nearest to a numeric value. -/
def number? : Value → Option Binary64
  | integer n => some (Binary64.ofInt n.toInt)
  | float x => some x
  | _ => none

/-- The order of two values by meaning: of two integers exactly, of other numbers as doubles, of two
strings by their bytes. Other values have no order. -/
def compare? (a b : Value) : Option Ordering :=
  match a, b with
  | integer m, integer n => some (compare m n)
  | string s, string t => some (compare s t)
  | a, b =>
    match a.number?, b.number? with
    | some x, some y => x.compare? y
    | _, _ => none

/-- The words for the truth values. -/
def booleanText (b : Bool) : Text := if b then "true" else "false"

/-- The text of a value. -/
def toText : Value → Text
  | node n => n.toText
  | string t => Text.quote t
  | integer n => Text.ofInt n.toInt
  | float x => x.toText
  | boolean b => booleanText b

end Value
end FactGraph
