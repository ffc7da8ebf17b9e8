import FactGraph.Text

/-!
# Checksums

The CRC-32 checksum with the reflected polynomial `0xEDB88320`, computed bit by bit.
-/

namespace FactGraph.Checksum

/-- The reflected polynomial. -/
abbrev polynomial : UInt32 := 0xEDB88320

/-- One bit of the division. -/
def stepBit (crc : UInt32) : UInt32 :=
  if crc &&& 1 == 1 then (crc >>> 1) ^^^ polynomial else crc >>> 1

/-- One byte of the division. -/
def stepByte (crc : UInt32) (b : UInt8) : UInt32 :=
  Nat.repeat stepBit 8 (crc ^^^ b.toUInt32)

/-- The checksum of a text. -/
def crc32 (t : Text) : UInt32 := ~~~(t.foldl stepByte 0xFFFFFFFF)

end FactGraph.Checksum
