import FactGraph.StoreError
import FactGraph.Numeral

/-!
# Reading N-Triples

A document is read line by line. A line is empty, a comment, or a statement: a subject, a predicate
and an object with a point behind them. Blank node labels of the form that nodes are written in
stand for themselves; all other labels mean something only within their document, so a statement
keeps them as labels, and `Statement.toFact` puts nodes in their place. Language tags are dropped,
and literals of unknown types are strings.
-/

namespace FactGraph.NTriples

/-- A node as a document names it. -/
inductive Reference where
  /-- A node that means the same in every document. -/
  | node (n : Node)
  /-- A label that means something only within its document. -/
  | label (l : Text)
deriving DecidableEq

/-- An object as a document gives it. -/
inductive Object where
  /-- A node. -/
  | reference (r : Reference)
  /-- A literal. -/
  | literal (v : Value)
deriving DecidableEq

/-- A line of a document that states something. -/
structure Statement where
  /-- The subject. -/
  subject : Reference
  /-- The name of the predicate. -/
  predicate : Text
  /-- The object. -/
  object : Object
deriving DecidableEq

/-- The node that a reference stands for, given the nodes of the labels. -/
def Reference.toNode (labelled : Text → Node) : Reference → Node
  | node n => n
  | label l => labelled l

/-- The fact that a statement states, given the nodes of the labels. -/
def Statement.toFact (labelled : Text → Node) (s : Statement) : Fact where
  subject := s.subject.toNode labelled
  predicate := s.predicate
  object :=
    match s.object with
    | .reference r => .node (r.toNode labelled)
    | .literal v => v

/-- What is wrong with a line, and in which column. -/
structure LineError where
  /-- The column, counted from one in bytes. -/
  column : Nat
  /-- The fault. -/
  fault : SyntaxFault

/-- A place in a line. -/
structure Place where
  /-- How many bytes stand in front. -/
  position : Nat
  /-- The bytes that follow. -/
  rest : Text

namespace Place

/-- A fault at this place. -/
def fail {α : Type} (p : Place) (fault : SyntaxFault) : Except LineError α :=
  .error ⟨p.position + 1, fault⟩

/-- The place a number of bytes further. -/
def advance (p : Place) (count : Nat) : Place := ⟨p.position + count, p.rest.drop count⟩

/-- Whether a byte separates the parts of a statement: a blank, a tab or a carriage return. -/
def separates (c : UInt8) : Bool := c == ' '.toUInt8 || c == '\t'.toUInt8 || c == '\r'.toUInt8

/-- The place behind any separators. -/
def skip (p : Place) : Place := p.advance (p.rest.takeWhile separates).length

/-- The place behind a byte that has to stand here. -/
def expect (p : Place) (c : UInt8) : Except LineError Place :=
  if p.rest.head? == some c then .ok (p.advance 1) else p.fail (.expected c)

/-! ## Escapes -/

/-- Reads digits in base sixteen onto a number. -/
def digits : Nat → Nat → Place → Except LineError (Nat × Place)
  | 0, n, p => .ok (n, p)
  | count + 1, n, p =>
    match p.rest.head?.bind Text.hexValue? with
    | none => (p.advance 1).fail .escapeDigit
    | some d => digits count (16 * n + d.toNat) (p.advance 1)

/-- Reads the digits of a numeric escape; the character is given by its UTF-8 bytes. -/
def character (count : Nat) (p : Place) : Except LineError (Text × Place) := do
  if (p.rest.take count).length < count then p.fail .shortEscape
  else
    let (n, p) ← digits count 0 p
    if n.isValidChar then return (String.utf8EncodeChar (Char.ofNat n), p)
    else p.fail .codePoint

/-! ## IRIs and labels -/

/-- Reads an IRI behind its opening bracket. What was read so far is kept in reverse; a line shorter
than `fuel` is read to its end. -/
def iriBody : Nat → Text → Place → Except LineError (Text × Place)
  | 0, _, p => p.fail .openIri
  | fuel + 1, read, p =>
    match p.rest with
    | [] => p.fail .openIri
    | c :: rest =>
      let p := p.advance 1
      if c == '>'.toUInt8 then .ok (read.reverse, p)
      else if c != '\\'.toUInt8 then iriBody fuel (c :: read) p
      else match rest with
        | [] => p.fail .danglingIriEscape
        | e :: _ =>
          if e == '>'.toUInt8 then p.fail .danglingIriEscape
          else if e != 'u'.toUInt8 && e != 'U'.toUInt8 then (p.advance 1).fail (.iriEscape e)
          else do
            let (bytes, p) ← (p.advance 1).character (if e == 'u'.toUInt8 then 4 else 8)
            iriBody fuel (bytes.reverse ++ read) p

/-- Reads an IRI in angle brackets. -/
def iri (p : Place) : Except LineError (Text × Place) := do
  let p ← p.expect '<'.toUInt8
  if !p.rest.contains '>'.toUInt8 then p.fail .openIri
  else
    let (name, p) ← iriBody (p.rest.length + 1) [] p
    if name.isEmpty then p.fail .emptyIri else return (name, p)

/-- Whether a byte ends a blank node label. -/
def endsLabel (c : UInt8) : Bool := c == ' '.toUInt8 || c == '\t'.toUInt8 || c == '.'.toUInt8

/-- The reference that a blank node label is: the letter `b` with 32 digits in base sixteen is a
node, any other label stays one. -/
def ofLabel (label : Text) : Reference :=
  match label with
  | [] => .label []
  | c :: digits =>
    match if c == 'b'.toUInt8 then Node.ofDigits? digits else none with
    | some n => .node n
    | none => .label label

/-- Reads a blank node. -/
def blank (p : Place) : Except LineError (Reference × Place) := do
  let p ← p.expect '_'.toUInt8
  let p ← p.expect ':'.toUInt8
  let label := p.rest.takeWhile fun c => !endsLabel c
  let p := p.advance label.length
  if label.isEmpty then p.fail .emptyLabel else return (ofLabel label, p)

/-- Reads a subject. -/
def subject (p : Place) : Except LineError (Reference × Place) :=
  match p.rest with
  | [] => p.fail .missingSubject
  | c :: _ =>
    if c == '<'.toUInt8 then do
      let (name, p) ← p.iri
      return (.node (.named name), p)
    else if c == '_'.toUInt8 then p.blank
    else p.fail .badSubject

/-! ## Literals -/

/-- The byte that a letter behind a backslash stands for. -/
def escaped? (e : UInt8) : Option UInt8 :=
  if e == 'n'.toUInt8 then some '\n'.toUInt8
  else if e == 'r'.toUInt8 then some '\r'.toUInt8
  else if e == 't'.toUInt8 then some '\t'.toUInt8
  else if e == 'b'.toUInt8 then some 8
  else if e == 'f'.toUInt8 then some 12
  else if e == '"'.toUInt8 || e == '\\'.toUInt8 || e == '\''.toUInt8 then some e
  else none

/-- Reads a quoted text behind its opening quotation mark. What was read so far is kept in reverse;
a line shorter than `fuel` is read to its end. -/
def quotedBody : Nat → Text → Place → Except LineError (Text × Place)
  | 0, _, p => p.fail .openLiteral
  | fuel + 1, read, p =>
    match p.rest with
    | [] => p.fail .openLiteral
    | c :: rest =>
      let p := p.advance 1
      if c == '"'.toUInt8 then .ok (read.reverse, p)
      else if c != '\\'.toUInt8 then quotedBody fuel (c :: read) p
      else match rest with
        | [] => p.fail .danglingEscape
        | e :: _ =>
          let p := p.advance 1
          match escaped? e with
          | some b => quotedBody fuel (b :: read) p
          | none =>
            if e != 'u'.toUInt8 && e != 'U'.toUInt8 then p.fail (.unknownEscape e)
            else do
              let (bytes, p) ← p.character (if e == 'u'.toUInt8 then 4 else 8)
              quotedBody fuel (bytes.reverse ++ read) p

/-- Reads a quoted text. -/
def quoted (p : Place) : Except LineError (Text × Place) := do
  let p ← p.expect '"'.toUInt8
  quotedBody (p.rest.length + 1) [] p

end Place

/-- The integer that a literal denotes. -/
def integerLiteral (literal : Text) : Except SyntaxFault Value :=
  match Numeral.integer? literal with
  | none => .error (.badNumber literal)
  | some ⟨n, used⟩ =>
    if !Numeral.fitsInt64 n then .error (.numberRange literal)
    else if used != literal.length then .error (.badInteger literal)
    else .ok (.integer (Int64.ofInt n))

/-- The double that a literal denotes. -/
def doubleLiteral (literal : Text) : Except SyntaxFault Value :=
  if literal == "NaN" then .ok (.float Binary64.nan)
  else if literal == "INF" then .ok (.float (Binary64.infinity false))
  else if literal == "-INF" then .ok (.float (Binary64.infinity true))
  else match Numeral.float? literal with
    | none => .error (.badNumber literal)
    | some ⟨x, used⟩ =>
      if !x.inRange then .error (.numberRange literal)
      else if used != literal.length then .error (.badDouble literal)
      else .ok (.float x.value)

/-- The truth value that a literal denotes. -/
def booleanLiteral (literal : Text) : Except SyntaxFault Value :=
  if literal == "true" || literal == "1" then .ok (.boolean true)
  else if literal == "false" || literal == "0" then .ok (.boolean false)
  else .error (.badBoolean literal)

/-- The value of a literal of a type, which is known by the local part of its name. -/
def typedLiteral (literal type : Text) : Except SyntaxFault Value :=
  let name := Text.localPart type
  if name == "integer" || name == "int" || name == "long" then integerLiteral literal
  else if name == "double" || name == "float" || name == "decimal" then doubleLiteral literal
  else if name == "boolean" then booleanLiteral literal
  else .ok (.string literal)

namespace Place

/-- Reads what follows the quoted text of a literal: nothing, a language tag or a type. -/
def literalEnd (p : Place) (literal : Text) : Except LineError (Value × Place) :=
  match p.rest with
  | [] => .ok (.string literal, p)
  | c :: _ =>
    if c == '@'.toUInt8 then
      let tag := p.rest.takeWhile fun c => c != ' '.toUInt8 && c != '\t'.toUInt8
      .ok (.string literal, p.advance tag.length)
    else if c == '^'.toUInt8 then do
      let p ← p.expect '^'.toUInt8
      let p ← p.expect '^'.toUInt8
      let (type, p) ← p.iri
      match typedLiteral literal type with
      | .ok v => return (v, p)
      | .error fault => p.fail fault
    else .ok (.string literal, p)

/-- Reads an object. -/
def object (p : Place) : Except LineError (Object × Place) :=
  match p.rest with
  | [] => p.fail .missingObject
  | c :: _ =>
    if c == '<'.toUInt8 then do
      let (name, p) ← p.iri
      return (.reference (.node (.named name)), p)
    else if c == '_'.toUInt8 then do
      let (r, p) ← p.blank
      return (.reference r, p)
    else if c == '"'.toUInt8 then do
      let (literal, p) ← p.quoted
      let (v, p) ← p.literalEnd literal
      return (.literal v, p)
    else p.fail .badObject

/-- Reads a statement up to the end of its line. -/
def statement (p : Place) : Except LineError Statement := do
  let (subject, p) ← p.subject
  let (predicate, p) ← p.skip.iri
  let (object, p) ← p.skip.object
  let p ← p.skip.expect '.'.toUInt8
  let p := p.skip
  if p.rest.isEmpty || p.rest.head? == some '#'.toUInt8 then return ⟨subject, predicate, object⟩
  else p.fail .afterPoint

end Place

/-- The statement of a line, unless the line is empty or a comment. -/
def readLine (line : Text) : Except LineError (Option Statement) :=
  let p := Place.skip ⟨0, line⟩
  if p.rest.isEmpty || p.rest.head? == some '#'.toUInt8 then .ok none
  else some <$> p.statement

/-- The statements of lines, the first of which has the given number. -/
def readLines : Nat → List Text → Except StoreError (List Statement)
  | _, [] => .ok []
  | number, line :: lines =>
    match readLine line with
    | .error e => .error (.document number e.column e.fault)
    | .ok none => readLines (number + 1) lines
    | .ok (some s) => (s :: ·) <$> readLines (number + 1) lines

/-- The statements of a document. -/
def read (document : Text) : Except StoreError (List Statement) := readLines 1 document.lines

/-- The facts of a document, given the nodes of its labels. -/
def parse (labelled : Text → Node) (document : Text) : Except StoreError (List Fact) := do
  return (← read document).map (Statement.toFact labelled)

end FactGraph.NTriples
