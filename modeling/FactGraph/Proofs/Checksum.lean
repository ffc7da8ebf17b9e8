import Mathlib.Data.Nat.Bitwise
import Mathlib.Logic.Function.Basic
import FactGraph.Checksum
import FactGraph.Proofs.Word

/-!
# Checksums tell changed bytes

Every step of the division can be undone: the bit that is shifted out shows in the highest bit of
the remainder, which the polynomial sets (`stepBit_injective`). The bits above it only move down, so up
to four bytes are divided as the one word that they spell (`foldl_stepByte`). Hence the remainder
behind these bytes tells them if the remainder in front of them is known, and two texts that differ in
up to four bytes next to one another have different checksums (`crc32_ne_of_window`).
-/

namespace FactGraph.Checksum

theorem toNat_shiftRight_one (crc : UInt32) : (crc >>> 1).toNat = crc.toNat / 2 := by
  rw [UInt32.toNat_shiftRight]
  exact Nat.shiftRight_eq_div_pow crc.toNat 1

theorem toNat_and_one (crc : UInt32) : (crc &&& 1).toNat = crc.toNat % 2 := by
  rw [UInt32.toNat_and]
  exact Nat.and_one_is_mod crc.toNat

theorem and_one_eq_iff (crc : UInt32) : (crc &&& 1 == 1) = true ↔ crc.toNat % 2 = 1 := by
  rw [beq_iff_eq, ← UInt32.toNat_inj, toNat_and_one]
  rfl

/-- A remainder is known by its lowest bit and the others. -/
theorem eq_of_shiftRight_one {c d : UInt32} (hlow : c.toNat % 2 = d.toNat % 2)
    (hhigh : c >>> 1 = d >>> 1) : c = d := by
  have hhalf : c.toNat / 2 = d.toNat / 2 := by
    rw [← toNat_shiftRight_one, ← toNat_shiftRight_one, hhigh]
  rw [← UInt32.toNat_inj]
  omega

/-- The polynomial has the highest bit, which no remainder has that was shifted. -/
theorem shiftRight_one_xor_ne (c d : UInt32) : c >>> 1 ^^^ polynomial ≠ d >>> 1 := by
  intro h
  have hpolynomial : c >>> 1 ^^^ d >>> 1 = polynomial := by
    rw [← h, ← UInt32.xor_assoc, UInt32.xor_self, UInt32.zero_xor]
  have hc : (c >>> 1).toNat < 2 ^ 31 := by
    have := c.toNat_lt
    rw [toNat_shiftRight_one]
    omega
  have hd : (d >>> 1).toNat < 2 ^ 31 := by
    have := d.toNat_lt
    rw [toNat_shiftRight_one]
    omega
  have hlow : polynomial.toNat < 2 ^ 31 := by
    rw [← hpolynomial, UInt32.toNat_xor]
    exact Nat.xor_lt_two_pow hc hd
  exact absurd hlow (by decide)

theorem stepBit_injective : Function.Injective stepBit := by
  intro c d h
  simp only [stepBit] at h
  have hc := and_one_eq_iff c
  have hd := and_one_eq_iff d
  split at h <;> split at h <;> rename_i hcbit hdbit
  · refine eq_of_shiftRight_one ((hc.1 hcbit).trans (hd.1 hdbit).symm) ?_
    exact (UInt32.xor_left_inj polynomial).1 h
  · exact absurd h (shiftRight_one_xor_ne c d)
  · exact absurd h.symm (shiftRight_one_xor_ne d c)
  · rw [hc] at hcbit
    rw [hd] at hdbit
    exact eq_of_shiftRight_one (by omega) h

theorem stepBits_injective (n : Nat) : Function.Injective (Nat.repeat stepBit n) := by
  induction n with
  | zero => exact Function.injective_id
  | succ n ih => exact stepBit_injective.comp ih

theorem stepByte_injective (b : UInt8) : Function.Injective (stepByte · b) := by
  intro c d h
  have hxor : c ^^^ b.toUInt32 = d ^^^ b.toUInt32 := stepBits_injective 8 h
  exact (UInt32.xor_left_inj _).1 hxor

theorem foldl_stepByte_injective (t : Text) : Function.Injective (t.foldl stepByte) := by
  induction t with
  | nil => exact Function.injective_id
  | cons b t ih => exact ih.comp (stepByte_injective b)

/-! ## Bytes next to one another -/

/-- The bit that is shifted out of a remainder is not one of those above it. -/
theorem stepBit_xor_double {m : Nat} (h : 2 * m < UInt32.size) (c : UInt32) :
    stepBit (c ^^^ .ofNat (2 * m)) = stepBit c ^^^ .ofNat m := by
  have hm : m < UInt32.size := by omega
  have hbit : ((c ^^^ .ofNat (2 * m)) &&& 1 == 1) = (c &&& 1 == 1) := by
    rw [Bool.eq_iff_iff, and_one_eq_iff, and_one_eq_iff, UInt32.toNat_xor,
      UInt32.toNat_ofNat_of_lt' h, Nat.xor_mod_two_eq]
    omega
  have hshift : (c ^^^ .ofNat (2 * m)) >>> 1 = c >>> 1 ^^^ .ofNat m := by
    have hhalf : 2 * m / 2 = m := by omega
    rw [← UInt32.toNat_inj, toNat_shiftRight_one, UInt32.toNat_xor, UInt32.toNat_xor,
      toNat_shiftRight_one, UInt32.toNat_ofNat_of_lt' h, UInt32.toNat_ofNat_of_lt' hm,
      Nat.xor_div_two, hhalf]
  unfold stepBit
  rw [hbit, hshift]
  split
  · rw [UInt32.xor_assoc, UInt32.xor_assoc, UInt32.xor_comm polynomial]
  · rfl

/-- As many bits as are shifted out of a remainder do not meet those above them. -/
theorem stepBits_xor_shifted (n : Nat) {m : Nat} (h : 2 ^ n * m < UInt32.size) (c : UInt32) :
    Nat.repeat stepBit n (c ^^^ .ofNat (2 ^ n * m)) = Nat.repeat stepBit n c ^^^ .ofNat m := by
  induction n generalizing m with
  | zero => simp [Nat.repeat]
  | succ n ih =>
    have hdouble : 2 ^ (n + 1) * m = 2 ^ n * (2 * m) := by rw [Nat.pow_succ, Nat.mul_assoc]
    rw [hdouble] at h ⊢
    have hm : 2 * m < UInt32.size :=
      Nat.lt_of_le_of_lt (Nat.le_mul_of_pos_left _ (Nat.two_pow_pos n)) h
    rw [Nat.repeat, ih h, stepBit_xor_double hm, Nat.repeat]

theorem stepBits_add (n k : Nat) (c : UInt32) :
    Nat.repeat stepBit (n + k) c = Nat.repeat stepBit n (Nat.repeat stepBit k c) := by
  induction n with
  | zero => rw [Nat.zero_add, Nat.repeat]
  | succ n ih => rw [Nat.succ_add, Nat.repeat, Nat.repeat, ih]

theorem ofNat_ofLittleEndian_cons (b : UInt8) (t : Text) :
    UInt32.ofNat (Word.ofLittleEndian (b :: t)) =
      b.toUInt32 ^^^ .ofNat (2 ^ 8 * Word.ofLittleEndian t) := by
  have hb : b.toNat < 2 ^ 8 := b.toNat_lt
  have hsplit : Word.ofLittleEndian (b :: t) = b.toNat ^^^ 2 ^ 8 * Word.ofLittleEndian t := by
    rw [Word.ofLittleEndian, Nat.add_comm]
    refine Nat.eq_of_testBit_eq fun i => ?_
    rw [Nat.testBit_xor, show 256 = 2 ^ 8 from rfl, Nat.testBit_two_pow_mul_add _ hb,
      Nat.testBit_two_pow_mul]
    by_cases hi : i < 8
    · simp [hi, Nat.not_le.2 hi]
    · have hhigh : b.toNat.testBit i = false :=
        Nat.testBit_lt_two_pow (hb.trans_le (Nat.pow_le_pow_right (by decide) (by omega)))
      simp [hi, hhigh, Nat.le_of_not_lt hi]
  rw [hsplit, UInt32.ofNat_xor, UInt32.ofNat_uInt8ToNat]

/-- Up to four bytes are divided as the one word that they spell. -/
theorem foldl_stepByte {t : Text} (h : t.length ≤ 4) (c : UInt32) :
    t.foldl stepByte c =
      Nat.repeat stepBit (8 * t.length) (c ^^^ .ofNat (Word.ofLittleEndian t)) := by
  induction t generalizing c with
  | nil => simp [Nat.repeat, Word.ofLittleEndian]
  | cons b t ih =>
    rw [List.length_cons] at h
    have hword : 2 ^ 8 * Word.ofLittleEndian t < UInt32.size := by
      have hlt := Word.ofLittleEndian_lt t
      have hpow : 256 ^ t.length ≤ 256 ^ 3 := Nat.pow_le_pow_right (by decide) (by omega)
      have hsize : UInt32.size = 2 ^ 8 * 256 ^ 3 := rfl
      omega
    have hlength : 8 * (t.length + 1) = 8 * t.length + 8 := by omega
    rw [List.foldl_cons, ih (by omega), List.length_cons, hlength, stepBits_add,
      ofNat_ofLittleEndian_cons, ← UInt32.xor_assoc, stepBits_xor_shifted 8 hword]
    rfl

/-- Two texts that differ in up to four bytes next to one another have different checksums. -/
theorem crc32_ne_of_window {before after s t : Text} (hlength : s.length = t.length)
    (hwindow : t.length ≤ 4) (hne : s ≠ t) :
    crc32 (before ++ s ++ after) ≠ crc32 (before ++ t ++ after) := by
  intro h
  have hfold : (before ++ s ++ after).foldl stepByte 0xFFFFFFFF =
      (before ++ t ++ after).foldl stepByte 0xFFFFFFFF := by
    simpa [crc32] using h
  simp only [List.foldl_append] at hfold
  have hstate := foldl_stepByte_injective after hfold
  rw [foldl_stepByte (hlength ▸ hwindow), foldl_stepByte hwindow, hlength] at hstate
  have hword := (UInt32.xor_right_inj _).1 (stepBits_injective _ hstate)
  have hfits : ∀ {u : Text}, u.length ≤ 4 → Word.ofLittleEndian u < UInt32.size := fun hu =>
    (Word.ofLittleEndian_lt _).trans_le (Nat.pow_le_pow_right (by decide) hu)
  rw [← UInt32.toNat_inj, UInt32.toNat_ofNat_of_lt' (hfits (hlength ▸ hwindow)),
    UInt32.toNat_ofNat_of_lt' (hfits hwindow)] at hword
  exact hne ((Word.ofLittleEndian_inj hlength).1 hword)

/-- A text in which one byte is changed has another checksum. -/
theorem crc32_set_ne {t : Text} {i : Nat} {b : UInt8} (hi : i < t.length) (hb : t[i] ≠ b) :
    crc32 (t.set i b) ≠ crc32 t := by
  have hsplit : t = t.take i ++ [t[i]] ++ t.drop (i + 1) := by
    rw [List.append_assoc, List.singleton_append, ← List.drop_eq_getElem_cons hi,
      List.take_append_drop]
  have hset : t.set i b = t.take i ++ [b] ++ t.drop (i + 1) := by
    rw [List.set_eq_take_append_cons_drop, if_pos hi, List.append_assoc, List.singleton_append]
  have hne : [b] ≠ [t[i]] := fun h => hb (List.singleton_inj.1 h).symm
  rw [hset, congrArg crc32 hsplit]
  exact crc32_ne_of_window rfl (by simp) hne

end FactGraph.Checksum
