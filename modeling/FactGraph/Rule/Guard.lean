import FactGraph.Value

/-!
# Guards

A guard compares the value of a variable with a fixed operand. Equality is equality of values, or of
numbers of different kinds by what they are; the order relations hold only between values that have
an order.
-/

namespace FactGraph

/-- How a guard compares. -/
inductive Comparison where
  | equal
  | notEqual
  | less
  | lessOrEqual
  | greater
  | greaterOrEqual
  /-- The text of the value begins with the text of the operand. -/
  | startsWith
  /-- The text of the operand occurs in the text of the value. -/
  | contains
  /-- The value is a named node, and its name holds a byte of the operand. -/
  | nameHolds
deriving DecidableEq

namespace Comparison

/-- The sign of a comparison. -/
def symbol : Comparison → Text
  | equal => "=="
  | notEqual => "!="
  | less => "<"
  | lessOrEqual => "<="
  | greater => ">"
  | greaterOrEqual => ">="
  | startsWith => "prefix"
  | contains => "contains"
  | nameHolds => "name_any_of"

/-- The comparison with a sign, or with a word for its sign. -/
def parse? (t : Text) : Option Comparison :=
  if t == "==" || t == "eq" then some equal
  else if t == "!=" || t == "ne" then some notEqual
  else if t == "<" || t == "lt" then some less
  else if t == "<=" || t == "le" then some lessOrEqual
  else if t == ">" || t == "gt" then some greater
  else if t == ">=" || t == "ge" then some greaterOrEqual
  else if t == "prefix" then some startsWith
  else if t == "contains" then some contains
  else if t == "name_any_of" then some nameHolds
  else none

/-- Whether two values are equal, as values or as numbers. -/
def same (bound operand : Value) : Bool :=
  bound == operand || (bound.isNumeric && bound.compare? operand == some .eq)

/-- Whether the order of two values, if they have one, is among those asked for. -/
def ordered (bound operand : Value) (asked : Ordering → Bool) : Bool :=
  (bound.compare? operand).elim false asked

/-- The text that comparisons of texts look at: a string, or the name of a node. -/
def textOf? : Value → Option Text
  | .string t => some t
  | v => v.name?

/-- Whether both values have a text and the texts are related. -/
def textual (bound operand : Value) (related : Text → Text → Bool) : Bool :=
  match textOf? bound, textOf? operand with
  | some t, some needle => related t needle
  | _, _ => false

/-- Whether a value compares with an operand. -/
def holds (c : Comparison) (bound operand : Value) : Bool :=
  match c with
  | equal => same bound operand
  | notEqual => !same bound operand
  | less => ordered bound operand Ordering.isLT
  | lessOrEqual => ordered bound operand Ordering.isLE
  | greater => ordered bound operand Ordering.isGT
  | greaterOrEqual => ordered bound operand Ordering.isGE
  | startsWith => textual bound operand fun t needle => needle.isPrefixOf t
  | contains => textual bound operand fun t needle => Text.occursIn needle t
  | nameHolds =>
    match bound.name?, operand with
    | some name, .string bytes => name.any bytes.contains
    | _, _ => false

end Comparison

/-- A comparison of the value of a variable with an operand. -/
structure Guard where
  /-- The variable. -/
  var : Text
  /-- How its value is compared. -/
  comparison : Comparison
  /-- What it is compared with. -/
  operand : Value
deriving DecidableEq

namespace Guard

/-- Whether a guard holds of the value of its variable. -/
def holds (g : Guard) (bound : Value) : Bool := g.comparison.holds bound g.operand

/-- The text of a guard. -/
def toText (g : Guard) : Text :=
  '?'.toUInt8 :: g.var ++ " " ++ g.comparison.symbol ++ " " ++ g.operand.toText

end Guard
end FactGraph
