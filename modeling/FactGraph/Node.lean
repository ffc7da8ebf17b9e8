import FactGraph.Word

/-!
# Nodes

A node is what facts are about. A named node is known by its name; a blank node has no meaning
outside the graph and is known by 128 bits. Both have a textual form from which they can be read
back.
-/

namespace FactGraph

/-- A node of the graph. -/
inductive Node where
  /-- A node that is known by its name. -/
  | named (name : Text)
  /-- A node that is known by 128 bits, written as two words. -/
  | blank (high low : UInt64)
deriving BEq, ReflBEq, LawfulBEq

namespace Node

instance : DecidableEq Node := instDecidableEqOfLawfulBEq

instance : Inhabited Node := ⟨named []⟩

/-- Named nodes come before blank ones; names are compared by their bytes and blank nodes as
128-bit numbers. -/
instance : Ord Node where
  compare
    | named a, named b => compare a b
    | named _, blank _ _ => .lt
    | blank _ _, named _ => .gt
    | blank h l, blank h' l' => (compare h h').then (compare l l')

/-- The name of a named node. -/
def name? : Node → Option Text
  | named name => some name
  | blank _ _ => none

/-- Whether the node has the empty name. -/
def isNameless : Node → Bool
  | named name => name.isEmpty
  | blank _ _ => false

/-- A name in angle brackets, or the mark of blank nodes and 32 digits. -/
def toText : Node → Text
  | named name => Text.bracket name
  | blank high low => "_:b" ++ Word.hex64 high ++ Word.hex64 low

/-- The blank node that 32 digits in base sixteen stand for. -/
def ofDigits? (digits : Text) : Option Node := do
  let bytes ← Text.unhex? digits
  if bytes.length = 16 then
    some (blank (UInt64.ofNat (Word.ofBigEndian (bytes.take 8)))
      (UInt64.ofNat (Word.ofBigEndian (bytes.drop 8))))
  else none

/-- The mark in front of the digits of a blank node. -/
def blankMark : Text := "_:b"

/-- Reads a node: a name in angle brackets, the mark of blank nodes with 32 digits, or any other
text as a bare name. The empty text and the mark with anything else behind it are no nodes. -/
def parse? (t : Text) : Option Node :=
  if t.isEmpty then none
  else if 2 ≤ t.length && t.head? == some '<'.toUInt8 && t.getLast? == some '>'.toUInt8 then
    some (named ((t.drop 1).take (t.length - 2)))
  else if blankMark.isPrefixOf t then ofDigits? (t.drop 3)
  else some (named t)

/-- The namespace in the name of a node; blank nodes have none. -/
def namespacePart : Node → Text
  | named name => Text.namespacePart name
  | blank _ _ => []

/-- The local part of the name of a node; a blank node stands for itself. -/
def localPart : Node → Text
  | named name => Text.localPart name
  | blank high low => (blank high low).toText

end Node
end FactGraph
