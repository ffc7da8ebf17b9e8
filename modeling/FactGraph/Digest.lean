import FactGraph.Text

/-!
# Digests

A digest is a string of 32 bytes that names a fact by its content. It is shown in base sixteen, in
full or by its first twelve digits.
-/

namespace FactGraph

/-- A string of 32 bytes. -/
structure Digest where
  /-- The bytes. -/
  bytes : Text
  /-- There are 32 of them. -/
  length_bytes : bytes.length = 32
deriving DecidableEq

namespace Digest

/-- The digest with the given bytes, if there are 32. -/
def ofBytes? (bytes : Text) : Option Digest :=
  if h : bytes.length = 32 then some ⟨bytes, h⟩ else none

/-- Digests are listed in the order of their bytes. -/
instance : Ord Digest := ⟨fun a b => compare a.bytes b.bytes⟩

/-- The 64 digits of a digest in base sixteen, in lower case. -/
def toHex (d : Digest) : Text := Text.hex d.bytes

/-- The first twelve digits, enough to recognise a digest. -/
def short (d : Digest) : Text := d.toHex.take 12

/-- The digest that 64 digits in base sixteen stand for, in either case. -/
def ofHex? (t : Text) : Option Digest := (Text.unhex? t).bind ofBytes?

end Digest
end FactGraph
