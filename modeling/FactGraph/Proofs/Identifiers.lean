import FactGraph.Digest
import FactGraph.Proofs.Document
import FactGraph.Proofs.Labels

/-!
# Identifiers are read back

A node and a digest are known by their texts: each is read back from its own (`Node.parse?_toText`,
`Digest.ofHex?_toHex`). What is read as a digest are 64 digits in either case, and the text of the
digest has them in lower case (`Digest.ofHex?_eq_some`). What is read as a blank node are its mark
and 32 digits, and the node is that of the number which they spell (`Node.parse?_eq_blank`); every
other text that is not empty and has not the mark in front is a name.
-/

namespace FactGraph

namespace Text

/-- The digits in base sixteen, in either case. -/
def hexAlphabet : Text := "0123456789abcdefABCDEF"

theorem isHexDigit_iff (c : UInt8) : Numeral.isHexDigit c = true ↔ c ∈ hexAlphabet := by
  have hbytes : ∀ c : UInt8, Numeral.isHexDigit c = hexAlphabet.contains c := by decide +kernel
  rw [hbytes, List.contains_iff_mem]

/-- The numeral of the value of a digit is the digit in lower case. -/
theorem hexDigit_of_hexValue? {c v : UInt8} (h : hexValue? c = some v) :
    hexDigit v = toLower c := by
  have hbytes : ∀ c : UInt8, ((hexValue? c).all fun v => hexDigit v == toLower c) = true := by
    decide +kernel
  simpa [h] using hbytes c

/-- Two halves can be read off the byte that they make up. -/
theorem halves_join {high low : UInt8} (hhigh : high < 16) (hlow : low < 16) :
    (high <<< 4 ||| low) >>> 4 = high ∧ (high <<< 4 ||| low) &&& 0x0F = low := by
  have hfin : ∀ a b : Fin 16,
      (UInt8.ofNat a <<< 4 ||| UInt8.ofNat b) >>> 4 = UInt8.ofNat a ∧
        (UInt8.ofNat a <<< 4 ||| UInt8.ofNat b) &&& 0x0F = UInt8.ofNat b := by decide
  have h := hfin ⟨high.toNat, hhigh⟩ ⟨low.toNat, hlow⟩
  simpa only [UInt8.ofNat_toNat] using h

/-- The bytes that digits stand for are written with the same digits, in lower case. -/
theorem hex_of_unhex? {t bytes : Text} (h : unhex? t = some bytes) : hex bytes = t.map toLower := by
  fun_induction unhex? t generalizing bytes with
  | case1 =>
    cases h
    rfl
  | case2 => cases h
  | case3 a b rest ih =>
    obtain ⟨high, ha, h⟩ := Option.bind_eq_some_iff.1 h
    obtain ⟨low, hb, h⟩ := Option.bind_eq_some_iff.1 h
    obtain ⟨tail, htail, h⟩ := Option.bind_eq_some_iff.1 h
    cases h
    obtain ⟨hhigh, hlow⟩ := halves_join (hexValue?_lt ha) (hexValue?_lt hb)
    have hcons (b : UInt8) : hex (b :: tail) = hexDigit (b >>> 4) :: hexDigit (b &&& 0x0F) ::
      hex tail := rfl
    rw [hcons, hhigh, hlow, hexDigit_of_hexValue? ha, hexDigit_of_hexValue? hb, ih htail,
      List.map_cons, List.map_cons]

end Text

open Text

/-! ## Digests -/

namespace Digest

variable {t : Text} {d : Digest}

theorem ofHex?_toHex (d : Digest) : ofHex? d.toHex = some d := by
  rw [ofHex?, toHex, unhex?_hex, Option.bind_some, ofBytes?, dif_pos d.length_bytes]

theorem exists_ofHex? (hlength : t.length = 64) (hdigits : ∀ c ∈ t, c ∈ hexAlphabet) :
    ∃ d, ofHex? t = some d := by
  obtain ⟨bytes, hbytes⟩ := exists_unhex? (n := 32) hlength
    fun c hc => (isHexDigit_iff c).2 (hdigits c hc)
  obtain ⟨hcount, -, -⟩ := unhex?_eq_some hbytes
  have hthirtyTwo : bytes.length = 32 := by omega
  refine ⟨⟨bytes, hthirtyTwo⟩, ?_⟩
  rw [ofHex?, hbytes, Option.bind_some, ofBytes?, dif_pos hthirtyTwo]

/-- What is read as a digest are 64 digits, which are the digits of the digest but for their
case. -/
theorem of_ofHex? (h : ofHex? t = some d) :
    t.length = 64 ∧ (∀ c ∈ t, c ∈ hexAlphabet) ∧ d.toHex = t.map toLower := by
  obtain ⟨bytes, hbytes, h⟩ := Option.bind_eq_some_iff.1 h
  obtain ⟨hlength, hdigits, -⟩ := unhex?_eq_some hbytes
  rw [ofBytes?] at h
  split at h
  · next hthirtyTwo =>
    cases h
    exact ⟨by omega, fun c hc => (isHexDigit_iff c).1 (hdigits c hc), hex_of_unhex? hbytes⟩
  · cases h

theorem toHex_injective {d d' : Digest} (h : d.toHex = d'.toHex) : d = d' := by
  have hread := ofHex?_toHex d
  rw [h, ofHex?_toHex] at hread
  exact (Option.some.inj hread).symm

/-- A digest is read from 64 digits in either case, and from nothing else; they are its digits. -/
theorem ofHex?_eq_some : ofHex? t = some d ↔
    t.length = 64 ∧ (∀ c ∈ t, c ∈ hexAlphabet) ∧ d.toHex = t.map toLower := by
  refine ⟨of_ofHex?, ?_⟩
  rintro ⟨hlength, hdigits, hhex⟩
  obtain ⟨d', hd'⟩ := exists_ofHex? hlength hdigits
  rw [hd', toHex_injective (hhex.trans (of_ofHex? hd').2.2.symm)]

end Digest

/-! ## Nodes -/

namespace Node

variable {t : Text} {high low : UInt64}

theorem blankMark_eq : blankMark = ['_'.toUInt8, ':'.toUInt8, 'b'.toUInt8] := by decide

theorem drop_mark (digits : Text) : (blankMark ++ digits).drop 3 = digits := by
  rw [blankMark_eq]
  rfl

theorem parse?_bracket (name : Text) : parse? (bracket name) = some (named name) := by
  have hlength : (bracket name).length = name.length + 2 := by simp [bracket]
  have hlast : (bracket name).getLast? = some '>'.toUInt8 :=
    List.getLast?_concat (l := '<'.toUInt8 :: name)
  have hinner : ((bracket name).drop 1).take ((bracket name).length - 2) = name := by
    rw [hlength]
    simp [bracket]
  rw [parse?, hinner, hlength, hlast]
  simp [bracket]

/-- Behind the mark of blank nodes, the digits decide. -/
theorem parse?_mark (digits : Text) : parse? (blankMark ++ digits) = ofDigits? digits := by
  have hmark : blankMark.isPrefixOf (blankMark ++ digits) = true :=
    List.isPrefixOf_iff_prefix.2 (List.prefix_append ..)
  have hangle : (blankMark ++ digits).head? = some '_'.toUInt8 := by
    rw [blankMark_eq]
    rfl
  have hne : (some '_'.toUInt8 == some '<'.toUInt8) = false := rfl
  rw [parse?, hangle, hne, Bool.and_false, Bool.false_and, if_neg Bool.false_ne_true, if_pos hmark,
    drop_mark, blankMark_eq]
  rfl

theorem parse?_toText (n : Node) : parse? n.toText = some n := by
  cases n with
  | named name => exact parse?_bracket name
  | blank high low =>
    obtain ⟨bytes, htext, hread⟩ := exists_toText_blank high low
    have hmark : (blank high low).toText = blankMark ++ hex bytes := by
      rw [htext, blankMark_eq]
      rfl
    rw [hmark, parse?_mark, hread]

/-- The bits of a blank node are those of its two words. -/
theorem blank_eq_ofBits {v : Nat} (hv : v < 2 ^ 128) :
    blank high low = ofBits v ↔ high.toNat * 2 ^ 64 + low.toNat = v := by
  have hhigh := high.toNat_lt
  have hlow := low.toNat_lt
  rw [ofBits, Node.blank.injEq, ← UInt64.toNat_inj, ← UInt64.toNat_inj]
  simp only [UInt64.toNat_ofNat']
  omega

/-- A blank node is read from its mark and 32 digits that spell its bits, and from nothing else. -/
theorem parse?_eq_blank : parse? t = some (blank high low) ↔ ∃ digits, t = blankMark ++ digits ∧
    digits.length = 32 ∧ (∀ c ∈ digits, c ∈ hexAlphabet) ∧
      high.toNat * 2 ^ 64 + low.toNat = Numeral.hexValue digits := by
  have hspelled {digits : Text} : ofDigits? digits = some (blank high low) ↔ digits.length = 32 ∧
      (∀ c ∈ digits, c ∈ hexAlphabet) ∧
        high.toNat * 2 ^ 64 + low.toNat = Numeral.hexValue digits := by
    simp only [ofDigits?_eq_some, isHexDigit_iff]
    refine and_congr_right fun hlength => and_congr_right fun hdigits => ?_
    refine blank_eq_ofBits ?_
    have howned : NTriples.Own ('b'.toUInt8 :: digits) (Numeral.hexValue digits) :=
      ⟨digits, rfl, hlength, fun c hc => (isHexDigit_iff c).2 (hdigits c hc), rfl⟩
    exact howned.lt
  constructor
  · intro h
    rw [parse?] at h
    split at h
    · cases h
    · split at h
      · cases h
      · split at h
        · next hmark =>
          obtain ⟨digits, rfl⟩ := List.isPrefixOf_iff_prefix.1 hmark
          rw [drop_mark] at h
          exact ⟨digits, rfl, hspelled.1 h⟩
        · cases h
  · rintro ⟨digits, rfl, h⟩
    rw [parse?_mark]
    exact hspelled.2 h

end Node

/-! ## Both -/

/-- Nodes and digests are read back from their texts. What is read as a digest are 64 digits in
either case, and written again they are in lower case; what is read as a blank node are the mark of
blank nodes and 32 digits in either case, which spell its 128 bits. -/
theorem identifiers_read_back :
    (∀ n : Node, Node.parse? n.toText = some n) ∧
    (∀ d : Digest, Digest.ofHex? d.toHex = some d) ∧
    (∀ t : Text, (Digest.ofHex? t).isSome = true ↔
      t.length = 64 ∧ ∀ c ∈ t, c ∈ hexAlphabet) ∧
    (∀ (t : Text) (d : Digest), Digest.ofHex? t = some d ↔
      t.length = 64 ∧ (∀ c ∈ t, c ∈ hexAlphabet) ∧ d.toHex = t.map toLower) ∧
    (∀ (t : Text) (high low : UInt64), Node.parse? t = some (.blank high low) ↔
      ∃ digits, t = "_:b" ++ digits ∧ digits.length = 32 ∧ (∀ c ∈ digits, c ∈ hexAlphabet) ∧
        high.toNat * 2 ^ 64 + low.toNat = Numeral.hexValue digits) := by
  refine ⟨Node.parse?_toText, Digest.ofHex?_toHex, fun t => ?_, fun t d => Digest.ofHex?_eq_some,
    fun t high low => Node.parse?_eq_blank⟩
  rw [Option.isSome_iff_exists]
  constructor
  · rintro ⟨d, hd⟩
    obtain ⟨hlength, hdigits, -⟩ := Digest.of_ofHex? hd
    exact ⟨hlength, hdigits⟩
  · rintro ⟨hlength, hdigits⟩
    exact Digest.exists_ofHex? hlength hdigits

end FactGraph
