import FactGraph.Encoding

/-!
# Reading the encoding of facts

Bytes are read from front to back. Nothing but the bytes of one fact is accepted, up to the patterns
of a double that are not a number, which are read as the one value that is not a number.
-/

namespace FactGraph

/-- What is left to read, and how many bytes were read before. -/
structure Cursor where
  /-- How many bytes were read. -/
  position : Nat
  /-- The bytes that follow. -/
  rest : Text

namespace Cursor

/-- Reads a number of bytes. -/
def take (c : Cursor) (count : Nat) : Except PayloadFault (Text × Cursor) :=
  if c.rest.length < count then .error (.truncated c.position)
  else .ok (c.rest.take count, ⟨c.position + count, c.rest.drop count⟩)

/-- Reads one byte. -/
def byte (c : Cursor) : Except PayloadFault (UInt8 × Cursor) :=
  match c.rest with
  | [] => .error (.truncated c.position)
  | b :: rest => .ok (b, ⟨c.position + 1, rest⟩)

/-- Reads a number of the given width. -/
def number (c : Cursor) (width : Nat) : Except PayloadFault (Nat × Cursor) := do
  let (bytes, c) ← c.take width
  return (Word.ofBigEndian bytes, c)

/-- Reads a text with its length in front. -/
def field (c : Cursor) : Except PayloadFault (Text × Cursor) := do
  let (length, c) ← c.number 4
  if fieldLimit < length then throw (.fieldLength length)
  c.take length

/-- Reads a node behind its tag. -/
def node (c : Cursor) (tag : UInt8) : Except PayloadFault (Node × Cursor) := do
  if tag == Encoding.namedTag then
    let (name, c) ← c.field
    return (.named name, c)
  else if tag == Encoding.blankTag then
    let (high, c) ← c.number 8
    let (low, c) ← c.number 8
    return (.blank (UInt64.ofNat high) (UInt64.ofNat low), c)
  else throw (.nodeTag tag)

/-- Reads a value. -/
def value (c : Cursor) : Except PayloadFault (Value × Cursor) := do
  let (tag, c) ← c.byte
  if tag == Encoding.nodeTag then
    let (tag, c) ← c.byte
    let (n, c) ← c.node tag
    return (.node n, c)
  else if tag == Encoding.stringTag then
    let (t, c) ← c.field
    return (.string t, c)
  else if tag == Encoding.integerTag then
    let (n, c) ← c.number 8
    return (.integer (UInt64.ofNat n).toInt64, c)
  else if tag == Encoding.floatTag then
    let (bits, c) ← c.number 8
    return (.float (Binary64.ofBits (UInt64.ofNat bits)), c)
  else if tag == Encoding.booleanTag then
    let (b, c) ← c.byte
    if 1 < b then throw (.booleanByte b)
    return (.boolean (b == 1), c)
  else throw (.valueTag tag)

/-- Reads a fact. -/
def fact (c : Cursor) : Except PayloadFault (Fact × Cursor) := do
  let (version, c) ← c.byte
  if version != Encoding.version then throw (.version version)
  let (tag, c) ← c.byte
  let (subject, c) ← c.node tag
  let (tag, c) ← c.byte
  if tag != Encoding.predicateTag then throw .predicateTag
  let (predicate, c) ← c.field
  let (object, c) ← c.value
  return (⟨subject, predicate, object⟩, c)

end Cursor

/-- The fact that bytes stand for. -/
def Encoding.decode? (bytes : Text) : Except PayloadFault Fact := do
  let (f, c) ← Cursor.fact ⟨0, bytes⟩
  if !c.rest.isEmpty then throw .trailing
  return f

/-- The fact that stored bytes stand for, with a fault as an error of the store. -/
def Encoding.decode (bytes : Text) : Except StoreError Fact :=
  (Encoding.decode? bytes).mapError .payload

end FactGraph
