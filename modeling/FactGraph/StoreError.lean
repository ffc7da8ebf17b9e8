import FactGraph.Digest
import FactGraph.Fact

/-!
# Errors of the store

Everything that can go wrong while facts are written, read, stored or exchanged. An error is its
cause; its kind and its wording are functions of the cause.
-/

namespace FactGraph

/-- Why stored bytes are no fact. -/
inductive PayloadFault where
  /-- The bytes end too early; reading stopped at this position. -/
  | truncated (position : Nat)
  /-- A field claims to be longer than a field may be. -/
  | fieldLength (length : Nat)
  /-- A node begins with an unknown tag. -/
  | nodeTag (tag : UInt8)
  /-- A value begins with an unknown tag. -/
  | valueTag (tag : UInt8)
  /-- A truth value is neither zero nor one. -/
  | booleanByte (b : UInt8)
  /-- The bytes are of another version of the format. -/
  | version (v : UInt8)
  /-- The predicate does not begin with its tag. -/
  | predicateTag
  /-- Bytes are left behind the fact. -/
  | trailing
deriving DecidableEq

/-- The wording of a fault in stored bytes. -/
def PayloadFault.message : PayloadFault → Text
  | truncated position => "truncated payload at byte " ++ Text.ofNat position
  | fieldLength length => "field length " ++ Text.ofNat length ++ " out of range"
  | nodeTag tag => "unknown node tag " ++ Text.ofNat tag.toNat
  | valueTag tag => "unknown value tag " ++ Text.ofNat tag.toNat
  | booleanByte b => "boolean byte " ++ Text.ofNat b.toNat
  | version v => "unsupported codec version " ++ Text.ofNat v.toNat
  | predicateTag => "expected predicate tag"
  | trailing => "trailing bytes after triple"

/-- What is wrong with a line of a document. -/
inductive SyntaxFault where
  /-- A certain byte has to stand here. -/
  | expected (c : UInt8)
  /-- An IRI is not closed. -/
  | openIri
  /-- A backslash closes an IRI. -/
  | danglingIriEscape
  /-- An escape that IRIs do not have. -/
  | iriEscape (c : UInt8)
  /-- A numeric escape has too few digits. -/
  | shortEscape
  /-- A numeric escape holds something other than digits in base sixteen. -/
  | escapeDigit
  /-- A numeric escape denotes no character. -/
  | codePoint
  /-- An IRI is empty. -/
  | emptyIri
  /-- A blank node has no label. -/
  | emptyLabel
  /-- Nothing stands where the subject should. -/
  | missingSubject
  /-- The subject is neither an IRI nor a blank node. -/
  | badSubject
  /-- Nothing stands where the object should. -/
  | missingObject
  /-- The object is neither an IRI nor a blank node nor a literal. -/
  | badObject
  /-- A literal is not closed. -/
  | openLiteral
  /-- A backslash ends the line inside a literal. -/
  | danglingEscape
  /-- An escape that literals do not have. -/
  | unknownEscape (c : UInt8)
  /-- Something stands behind an integer. -/
  | badInteger (literal : Text)
  /-- Something stands behind a floating point number. -/
  | badDouble (literal : Text)
  /-- A literal of a numeric type is no number. -/
  | badNumber (literal : Text)
  /-- A number is too large or too small for its type. -/
  | numberRange (literal : Text)
  /-- A literal of the type of truth values is no truth value. -/
  | badBoolean (literal : Text)
  /-- Something stands behind the closing point. -/
  | afterPoint
deriving DecidableEq

/-- The wording of a fault in a document. -/
def SyntaxFault.message : SyntaxFault → Text
  | expected c => "expected '" ++ [c] ++ "'"
  | openIri => "unterminated IRI"
  | danglingIriEscape => "dangling escape in IRI"
  | iriEscape c => "unknown IRI escape \\" ++ [c]
  | shortEscape => "short unicode escape"
  | escapeDigit => "bad hex digit in unicode escape"
  | codePoint => "invalid code point in escape"
  | emptyIri => "empty IRI"
  | emptyLabel => "empty blank node label"
  | missingSubject => "missing subject"
  | badSubject => "subject must be an IRI or blank node"
  | missingObject => "missing object"
  | badObject => "object must be an IRI, blank node or literal"
  | openLiteral => "unterminated literal"
  | danglingEscape => "dangling escape"
  | unknownEscape c => "unknown escape \\" ++ [c]
  | badInteger literal => "bad integer literal '" ++ literal ++ "'"
  | badDouble literal => "bad double literal '" ++ literal ++ "'"
  | badNumber literal => "bad numeric literal '" ++ literal ++ "'"
  | numberRange literal => "numeric literal out of range '" ++ literal ++ "'"
  | badBoolean literal => "bad boolean literal '" ++ literal ++ "'"
  | afterPoint => "unexpected text after '.'"

/-- The part of a fact whose text can be too long. -/
inductive FactPart where
  | subject
  | predicate
  | objectString
  | objectNode
deriving DecidableEq

/-- The word for a part of a fact. -/
def FactPart.name : FactPart → Text
  | subject => "subject"
  | predicate => "predicate"
  | objectString => "object string"
  | objectNode => "object node"

/-- The longest text that a field of a fact may hold, in bytes. -/
def fieldLimit : Nat := 16777216

/-- The steps in which a table is used. -/
inductive TableStep where
  /-- The file is read for the first time and gets its log. -/
  | setUp
  /-- The table is made in the file, if it is not there. -/
  | make
  /-- A row is written. -/
  | put
  /-- A row is taken away. -/
  | remove
  /-- What stands in the log is brought into the file. -/
  | flush
deriving DecidableEq

/-- The text of a step. -/
def TableStep.text : TableStep → Text
  | setUp => "PRAGMA journal_mode=WAL"
  | make => "CREATE TABLE IF NOT EXISTS triples (id BLOB PRIMARY KEY, data BLOB NOT NULL)"
  | put => "put"
  | remove => "remove"
  | flush => "PRAGMA wal_checkpoint(TRUNCATE)"

/-- Why a table cannot be used. -/
inductive TableFault where
  /-- A file cannot be opened or made. -/
  | unopened
  /-- What is needed from the disk cannot be had. -/
  | unreadable
  /-- The table can only be read. -/
  | readOnly
  /-- The file is in use. -/
  | locked
  /-- The file holds something else. -/
  | foreign
deriving DecidableEq

/-- The wording of a fault of a table. -/
def TableFault.message : TableFault → Text
  | unopened => "unable to open database file"
  | unreadable => "disk I/O error"
  | readOnly => "attempt to write a readonly database"
  | locked => "database is locked"
  | foreign => "file is not a database"

/-- The kinds of errors of the store. -/
inductive StoreErrorKind where
  | notFound
  | duplicate
  | invalidFact
  | storage
  | serialization
  | query
  | index
  | inputOutput
  | config
  | unavailable
deriving DecidableEq

/-- The words for a kind of error. -/
def StoreErrorKind.name : StoreErrorKind → Text
  | notFound => "not found"
  | duplicate => "duplicate"
  | invalidFact => "invalid triple"
  | storage => "storage error"
  | serialization => "serialization error"
  | query => "query error"
  | index => "index error"
  | inputOutput => "io error"
  | config => "config error"
  | unavailable => "backend unavailable"

/-- An error of the store. -/
inductive StoreError where
  /-- The predicate has the empty name. -/
  | emptyPredicate (f : Fact)
  /-- The subject has the empty name. -/
  | emptySubject (f : Fact)
  /-- The object is the node with the empty name. -/
  | emptyObject (f : Fact)
  /-- A part of a fact about `subject` is longer than a field may be. -/
  | partOverLimit (part : FactPart) (size : Nat) (subject : Node)
  /-- A field that has to be written is longer than a field may be. -/
  | fieldOverLimit (size : Nat)
  /-- The fact is stored already. -/
  | alreadyStored (f : Fact) (id : Digest)
  /-- Stored bytes are no fact. -/
  | payload (fault : PayloadFault)
  /-- A document cannot be read. -/
  | document (line column : Nat) (fault : SyntaxFault)
  /-- The storage is closed. -/
  | closed (storage : Text)
  /-- The storage at a path cannot be opened. -/
  | cannotOpen (path reason : Text)
  /-- A step with a table fails. -/
  | table (step : TableStep) (fault : TableFault)
  /-- There is no storage. -/
  | noStorage
  /-- Any other failure, by its kind and wording. -/
  | reported (kind : StoreErrorKind) (message : Text)
deriving DecidableEq

namespace StoreError

/-- The kind of an error. -/
def kind : StoreError → StoreErrorKind
  | emptyPredicate _ | emptySubject _ | emptyObject _ | partOverLimit .. | fieldOverLimit _ =>
    .invalidFact
  | alreadyStored .. => .duplicate
  | payload _ | document .. => .serialization
  | closed _ | cannotOpen .. | noStorage => .unavailable
  | table .. => .storage
  | reported kind _ => kind

/-- The wording of an error, without its kind. -/
def message : StoreError → Text
  | emptyPredicate f => "empty predicate in " ++ f.toText
  | emptySubject f => "empty subject in " ++ f.toText
  | emptyObject f => "empty object node in " ++ f.toText
  | partOverLimit part size subject =>
    part.name ++ " of " ++ Text.ofNat size ++ " bytes exceeds the " ++ Text.ofNat fieldLimit ++
      " byte limit (subject " ++ subject.toText.take 64 ++ ")"
  | fieldOverLimit size =>
    "field of " ++ Text.ofNat size ++ " bytes exceeds " ++ Text.ofNat fieldLimit
  | alreadyStored f id => f.toText ++ " already stored as " ++ id.short
  | payload fault => fault.message
  | document line column fault =>
    "n-triples line " ++ Text.ofNat line ++ ", column " ++ Text.ofNat column ++ ": " ++
      fault.message
  | closed storage => storage
  | cannotOpen path reason => "cannot open " ++ path ++ ": " ++ reason
  | table step fault => step.text ++ ": " ++ fault.message
  | noStorage => "no storage backend"
  | reported _ message => message

/-- The kind and the wording of an error. -/
def describe (e : StoreError) : Text := e.kind.name ++ ": " ++ e.message

end StoreError
end FactGraph
