import FactGraph.Text

/-!
# Words as bytes

Fixed-width numbers laid out as bytes, in either byte order. The width is the number of bytes, and
only the low bytes of the number are written.
-/

namespace FactGraph.Word

/-- The `width` low bytes of `n`, least significant first. -/
def littleEndian : Nat → Nat → Text
  | 0, _ => []
  | width + 1, n => UInt8.ofNat n :: littleEndian width (n / 256)

/-- The number that bytes spell, least significant first. -/
def ofLittleEndian : Text → Nat
  | [] => 0
  | b :: bytes => b.toNat + 256 * ofLittleEndian bytes

/-- The `width` low bytes of `n`, most significant first. -/
def bigEndian (width n : Nat) : Text := (littleEndian width n).reverse

/-- The number that bytes spell, most significant first. -/
def ofBigEndian (bytes : Text) : Nat := ofLittleEndian bytes.reverse

/-- The sixteen digits of a 64-bit word in base sixteen. -/
def hex64 (n : UInt64) : Text := Text.hex (bigEndian 8 n.toNat)

@[simp] theorem length_littleEndian (width n : Nat) : (littleEndian width n).length = width := by
  induction width generalizing n with
  | zero => rfl
  | succ width ih => simp [littleEndian, ih]

@[simp] theorem length_bigEndian (width n : Nat) : (bigEndian width n).length = width := by
  simp [bigEndian]

end FactGraph.Word
