import FactGraph.Fact

/-!
# Writing N-Triples

A document has one line per fact. Names are written as IRIs, in which control characters, blanks and
the characters that IRIs may not hold are escaped by four digits in base sixteen; numbers and truth
values are literals with their XML Schema type. The lines are in the order of the facts, so that
equal lists of facts give equal documents.
-/

namespace FactGraph.NTriples

/-- The type of integer literals. -/
def integerType : Text := "http://www.w3.org/2001/XMLSchema#integer"

/-- The type of floating point literals. -/
def doubleType : Text := "http://www.w3.org/2001/XMLSchema#double"

/-- The type of the truth values. -/
def booleanType : Text := "http://www.w3.org/2001/XMLSchema#boolean"

/-- The numeral of a half byte in base sixteen, in upper case. -/
def upperHexDigit (n : UInt8) : UInt8 :=
  if n < 10 then '0'.toUInt8 + n else 'A'.toUInt8 + (n - 10)

/-- Whether an IRI has to escape a byte: a control character, a blank, a quotation mark, an angle
bracket, a brace, a bar, a circumflex, a grave accent or a backslash. -/
def escapedInIri (c : UInt8) : Bool :=
  c ≤ 0x20 || c == 0x22 || c == 0x3C || c == 0x3E || c == 0x5C || c == 0x5E || c == 0x60 ||
    c == 0x7B || c == 0x7C || c == 0x7D

/-- A byte as it is written in an IRI. -/
def iriByte (c : UInt8) : Text :=
  if escapedInIri c then
    "\\u00" ++ [upperHexDigit (c >>> 4), upperHexDigit (c &&& 0x0F)]
  else [c]

/-- A name as an IRI in angle brackets. -/
def iri (name : Text) : Text := Text.bracket (name.flatMap iriByte)

/-- A node as an IRI or as a blank node label. -/
def node : Node → Text
  | .named name => iri name
  | .blank high low => (Node.blank high low).toText

/-- A literal with its type. -/
def typed (literal type : Text) : Text := Text.quote literal ++ "^^" ++ Text.bracket type

/-- A value as a node or a literal. -/
def term : Value → Text
  | .node n => node n
  | .string t => Text.quote t
  | .integer n => typed (Text.ofInt n.toInt) integerType
  | .float x => typed x.toText doubleType
  | .boolean b => typed (Value.booleanText b) booleanType

/-- The line of a fact, without its line feed. -/
def line (f : Fact) : Text :=
  node f.subject ++ " " ++ iri f.predicate ++ " " ++ term f.object ++ " ."

/-- The document of a list of facts. -/
def document (facts : List Fact) : Text :=
  (Fact.sort facts).flatMap fun f => line f ++ [Text.newline]

end FactGraph.NTriples
