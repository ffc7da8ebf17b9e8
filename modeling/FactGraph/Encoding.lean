import FactGraph.StoreError
import FactGraph.Digest.Sha256

/-!
# The encoding of facts

Every fact has one form in bytes. A version byte is followed by the subject, the predicate and the
object; each field begins with a tag, and a text is preceded by its length in four bytes. The digest
of these bytes names the fact, and the bytes of a node or a value are its key in an index.

A text longer than `fieldLimit` has no encoding: `encode`, `nodeKey`, `valueKey` and `Fact.id`
refuse it, while the functions that only lay out bytes are total.
-/

namespace FactGraph

/-- The texts of a node that are laid out as fields. -/
def Node.fields : Node → List Text
  | .named name => [name]
  | .blank _ _ => []

/-- The texts of a value that are laid out as fields. -/
def Value.fields : Value → List Text
  | .node n => n.fields
  | .string t => [t]
  | _ => []

/-- The texts of a fact that are laid out as fields, in the order of its bytes. -/
def Fact.fields (f : Fact) : List Text := f.subject.fields ++ f.predicate :: f.object.fields

namespace Encoding

/-- The version of the format. -/
abbrev version : UInt8 := 1

/-- The tag of a named node. -/
abbrev namedTag : UInt8 := 0x01

/-- The tag of a blank node. -/
abbrev blankTag : UInt8 := 0x02

/-- The tag of a predicate. -/
abbrev predicateTag : UInt8 := 0x10

/-- The tag of a value that is a node. -/
abbrev nodeTag : UInt8 := 0x20

/-- The tag of a string. -/
abbrev stringTag : UInt8 := 0x21

/-- The tag of an integer. -/
abbrev integerTag : UInt8 := 0x22

/-- The tag of a double. -/
abbrev floatTag : UInt8 := 0x23

/-- The tag of a truth value. -/
abbrev booleanTag : UInt8 := 0x24

/-! ## Bytes -/

/-- A text with its length in front. -/
def fieldBytes (t : Text) : Text := Word.bigEndian 4 t.length ++ t

/-- The bytes of a node. -/
def nodeBytes : Node → Text
  | .named name => namedTag :: fieldBytes name
  | .blank high low =>
    blankTag :: (Word.bigEndian 8 high.toNat ++ Word.bigEndian 8 low.toNat)

/-- The bytes of a value. -/
def valueBytes : Value → Text
  | .node n => nodeTag :: nodeBytes n
  | .string t => stringTag :: fieldBytes t
  | .integer n => integerTag :: Word.bigEndian 8 n.toUInt64.toNat
  | .float x => floatTag :: Word.bigEndian 8 x.bits.toNat
  | .boolean b => [booleanTag, if b then 1 else 0]

/-- The bytes of a fact. -/
def factBytes (f : Fact) : Text :=
  version :: (nodeBytes f.subject ++ predicateTag :: (fieldBytes f.predicate ++
    valueBytes f.object))

/-! ## Limits -/

/-- Refuses texts longer than a field may be, naming the size of the first. -/
def checkFields (fields : List Text) : Except StoreError Unit :=
  match fields.find? fun t => fieldLimit < t.length with
  | some t => .error (.fieldOverLimit t.length)
  | none => .ok ()

/-- The bytes of a fact whose fields are within the limit. -/
def encode (f : Fact) : Except StoreError Text := do
  checkFields f.fields
  return factBytes f

/-- The key of a node in an index. -/
def nodeKey (n : Node) : Except StoreError Text := do
  checkFields n.fields
  return nodeBytes n

/-- The key of a value in an index. -/
def valueKey (v : Value) : Except StoreError Text := do
  checkFields v.fields
  return valueBytes v

end Encoding

/-- The digest of the bytes of a fact. -/
def Fact.digest (f : Fact) : Digest := sha256 (Encoding.factBytes f)

/-- The digest that names a fact whose fields are within the limit. -/
def Fact.id (f : Fact) : Except StoreError Digest := do
  return sha256 (← Encoding.encode f)

end FactGraph
