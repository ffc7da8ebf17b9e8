import FactGraph.Cli.Options
import FactGraph.Fact
import FactGraph.StoreError

/-!
# Facts and queries on the command line

The three fields of a fact or a query are written as words. A field that is empty is not given. The
type of an object is read off its form: names in angle brackets and blank nodes are nodes, texts
between quotation marks are strings, numbers and truth values have their own types, and everything
else is a string.
-/

namespace FactGraph.Cli

/-- The integer that a word is, if it fits. -/
def integer? (word : Text) : Option Value := do
  let r ← Numeral.integer? word
  if r.used == word.length && Numeral.fitsInt64 r.value then some (.integer (Int64.ofInt r.value))
  else none

/-- The double that a word is, if it has a point or an exponent. -/
def float? (word : Text) : Option Value :=
  if Binary64.isMarked word then do
    let r ← Numeral.float? word
    if r.used == word.length && r.value.inRange then some (.float r.value.value) else none
  else none

/-- The number that a word is. -/
def number? (word : Text) : Option Value := integer? word <|> float? word

/-- Whether a word is put between two bytes. -/
def isBetween (first last : Char) (word : Text) : Bool :=
  2 ≤ word.length && word.head? == some first.toUInt8 && word.getLast? == some last.toUInt8

/-- The object that a word is. -/
def object (word : Text) : Except StoreError Value :=
  let blank : Text := "_:"
  if blank.isPrefixOf word || isBetween '<' '>' word then
    match Node.parse? word with
    | some n => .ok (.node n)
    | none => .error (.reported .invalidFact ("bad node '" ++ word ++ "'"))
  else if isBetween '"' '"' word then .ok (.string ((word.drop 1).take (word.length - 2)))
  else if word == "true" then .ok (.boolean true)
  else if word == "false" then .ok (.boolean false)
  else .ok ((number? word).getD (.string word))

/-- The subject that a word is. -/
def subject (word : Text) : Except StoreError Node :=
  match Node.parse? word with
  | some n => .ok n
  | none => .error (.reported .invalidFact ("bad subject '" ++ word ++ "'"))

namespace Options

/-- Whether all three fields are given. -/
def isComplete (o : Options) : Bool :=
  !o.subject.isEmpty && !o.predicate.isEmpty && !o.object.isEmpty

/-- The fact of the three fields; the object is read first. -/
def fact (o : Options) : Except StoreError Fact := do
  let object ← Cli.object o.object
  return ⟨← Cli.subject o.subject, o.predicate, object⟩

/-- The query of the fields that are given. -/
def query (o : Options) : Except StoreError Query := do
  let subject ← if o.subject.isEmpty then pure none else some <$> Cli.subject o.subject
  let object ← if o.object.isEmpty then pure none else some <$> Cli.object o.object
  return ⟨subject, if o.predicate.isEmpty then none else some o.predicate, object⟩

end Options
end FactGraph.Cli
