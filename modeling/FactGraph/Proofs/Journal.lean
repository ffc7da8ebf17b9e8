import Mathlib.Data.List.Forall2
import Mathlib.Order.Bounds.Basic
import FactGraph.Proofs.Encoding
import FactGraph.Storage.Journal

/-!
# Reading the file of a journal

The header of an entry tells where the entry ends. So whether bytes are a whole entry can be said of
these bytes alone (`Entry.Whole`), and what is read from a file are the entries that its beginning
spells, whatever follows (`Entry.read?_eq_some`). Of any bytes the longest beginning is read that is
a row of whole entries (`Entry.isGreatest_row`); of a row of entries that was written and cut off
anywhere these are the entries that are left whole (`Entry.exists_take_flatMap`).
-/

namespace FactGraph

namespace Journal

/-! ## The bytes of an entry -/

namespace Entry

variable {e : Entry} {es : List Entry} {file before rest tail : Text} {position width : Nat}

theorem numberAt_field (width : Nat) {n : Nat} (hn : n < 256 ^ width) (rest : Text) :
    numberAt (Word.littleEndian width n ++ rest) 0 width = n := by
  rw [numberAt, List.drop_zero, List.take_left' (Word.length_littleEndian width n),
    Word.ofLittleEndian_littleEndian hn]

theorem numberAt_append_left (h : position + width ≤ file.length) :
    numberAt (file ++ rest) position width = numberAt file position width := by
  rw [numberAt, numberAt, List.drop_append_of_le_length (by omega),
    List.take_append_of_le_length (by rw [List.length_drop]; omega)]

theorem numberAt_append_right (h : before.length ≤ position) :
    numberAt (before ++ rest) position width = numberAt rest (position - before.length) width := by
  rw [numberAt, numberAt, List.drop_append, List.drop_of_length_le h, List.nil_append]

theorem numberAt_take {n : Nat} (h : position + width ≤ n) :
    numberAt (file.take n) position width = numberAt file position width := by
  rw [numberAt, numberAt, List.drop_take, List.take_take, Nat.min_eq_left (by omega)]

theorem numberAt_lt (bytes : Text) (position width : Nat) :
    numberAt bytes position width < 256 ^ width :=
  (Word.ofLittleEndian_lt _).trans_le
    (Nat.pow_le_pow_right (by decide) (List.length_take_le width _))

theorem length_header (e : Entry) : e.header.length = headerLength := by simp [header]

theorem length_body (e : Entry) : e.body.length = 32 + e.payload.length := by
  rw [body, List.length_append, e.id.length_bytes]

theorem length_bytes (e : Entry) : e.bytes.length = headerLength + e.body.length := by
  rw [bytes, List.length_append, length_header]

/-- Whether the length of an entry can be written in its header. -/
def Fits (e : Entry) : Prop := headerLength + e.body.length < 256 ^ 4

theorem numberAt_bytes (h : position + width ≤ headerLength) :
    numberAt e.bytes position width = numberAt e.header position width := by
  rw [bytes, numberAt_append_left (by rwa [length_header])]

theorem numberAt_mark (e : Entry) : numberAt e.header 0 4 = mark := by
  simp only [header, List.append_assoc]
  exact numberAt_field 4 (by decide) _

theorem numberAt_length (h : e.Fits) : numberAt e.header 4 4 = e.bytes.length := by
  rw [length_bytes]
  simp only [header, List.append_assoc]
  rw [numberAt_append_right (by simp), Word.length_littleEndian]
  exact numberAt_field 4 h _

theorem numberAt_sequence (e : Entry) : numberAt e.header 8 8 = e.sequence.toNat := by
  simp only [header, List.append_assoc]
  iterate 2 rw [numberAt_append_right (by simp), Word.length_littleEndian]
  exact numberAt_field 8 e.sequence.toNat_lt _

theorem numberAt_time (e : Entry) : numberAt e.header 16 8 = e.time.toNat := by
  simp only [header, List.append_assoc]
  iterate 3 rw [numberAt_append_right (by simp), Word.length_littleEndian]
  exact numberAt_field 8 e.time.toNat_lt _

theorem numberAt_operation (e : Entry) : numberAt e.header 24 1 = e.operation.toNat := by
  simp only [header, List.append_assoc]
  iterate 4 rw [numberAt_append_right (by simp), Word.length_littleEndian]
  have hbyte : Word.littleEndian 1 e.operation.toNat = [e.operation] := by
    simp [Word.littleEndian]
  have := numberAt_field 1 e.operation.toNat_lt
    ([version, 0, 0] ++ Word.littleEndian 4 (Checksum.crc32 e.body).toNat)
  rwa [hbyte] at this

theorem numberAt_checksum (e : Entry) :
    numberAt e.header 28 4 = (Checksum.crc32 e.body).toNat := by
  simp only [header, List.append_assoc]
  iterate 4 rw [numberAt_append_right (by simp), Word.length_littleEndian]
  rw [numberAt_append_right (by simp)]
  have := numberAt_field 4 (Checksum.crc32 e.body).toNat_lt []
  rwa [List.append_nil] at this

/-! ## Whole entries -/

/-- Whether bytes are one whole entry: a header and a digest at least, with the mark, the length of
all these bytes and the checksum of those behind the header. -/
structure Whole (bytes : Text) : Prop where
  /-- There is room for a header and a digest. -/
  long : headerLength + 32 ≤ bytes.length
  /-- The mark is right. -/
  mark : numberAt bytes 0 4 = mark
  /-- The entry ends with the bytes. -/
  length : numberAt bytes 4 4 = bytes.length
  /-- The checksum is right. -/
  checksum : numberAt bytes 28 4 = (Checksum.crc32 (bytes.drop headerLength)).toNat

/-- Whether bytes are one whole entry that records a given one. The version and the two bytes behind
it are free. -/
structure Spells (bytes : Text) (e : Entry) : Prop extends Whole bytes where
  /-- The number of the entry. -/
  sequence : numberAt bytes 8 8 = e.sequence.toNat
  /-- The time of the change. -/
  time : numberAt bytes 16 8 = e.time.toNat
  /-- The operation. -/
  operation : numberAt bytes 24 1 = e.operation.toNat
  /-- The digest of the cell and the text. -/
  body : bytes.drop headerLength = e.body

theorem Whole.exists_spells (h : Whole file) : ∃ e, Spells file e := by
  have hlong : 64 ≤ file.length := h.long
  have hid : ((file.drop headerLength).take 32).length = 32 := by
    have : headerLength = 32 := rfl
    rw [List.length_take, List.length_drop]
    omega
  refine ⟨⟨.ofNat (numberAt file 8 8), .ofNat (numberAt file 16 8), .ofNat (numberAt file 24 1),
    ⟨_, hid⟩, (file.drop headerLength).drop 32⟩, h, ?_, ?_, ?_, ?_⟩
  · exact (UInt64.toNat_ofNat_of_lt' (numberAt_lt file 8 8)).symm
  · exact (UInt64.toNat_ofNat_of_lt' (numberAt_lt file 16 8)).symm
  · exact (UInt8.toNat_ofNat_of_lt' (numberAt_lt file 24 1)).symm
  · exact (List.take_append_drop 32 _).symm

/-- What is written for an entry spells it. -/
theorem spells_bytes (h : e.Fits) : Spells e.bytes e where
  long := by
    rw [length_bytes, length_body]
    omega
  mark := by rw [numberAt_bytes (by decide), numberAt_mark]
  length := by rw [numberAt_bytes (by decide), numberAt_length h]
  checksum := by
    rw [numberAt_bytes (by decide), numberAt_checksum, bytes, List.drop_left' e.length_header]
  sequence := by rw [numberAt_bytes (by decide), numberAt_sequence]
  time := by rw [numberAt_bytes (by decide), numberAt_time]
  operation := by rw [numberAt_bytes (by decide), numberAt_operation]
  body := by rw [bytes, List.drop_left' e.length_header]

/-! ## Reading one entry -/

theorem length?_eq_some {n : Nat} : length? file = some n ↔ headerLength ≤ file.length ∧
    numberAt file 0 4 = mark ∧ numberAt file 4 4 = n ∧ headerLength + 32 ≤ n ∧
      n ≤ file.length := by
  have hshort : (file.take headerLength).length < headerLength ↔ file.length < headerLength := by
    rw [List.length_take]
    omega
  simp only [length?, hshort, numberAt_take (show 0 + 4 ≤ headerLength by decide),
    numberAt_take (show 4 + 4 ≤ headerLength by decide), bne_iff_ne]
  split_ifs <;> simp <;> omega

/-- An entry is read from bytes if they begin with a whole entry that spells it, whatever follows. -/
theorem read?_eq_some :
    read? file = some (e, rest) ↔ ∃ part, Spells part e ∧ file = part ++ rest := by
  simp only [read?, Option.bind_eq_bind, Option.bind_eq_some_iff, length?_eq_some,
    numberAt_take (show 8 + 8 ≤ headerLength by decide),
    numberAt_take (show 16 + 8 ≤ headerLength by decide),
    numberAt_take (show 24 + 1 ≤ headerLength by decide),
    numberAt_take (show 28 + 4 ≤ headerLength by decide), Digest.ofBytes?]
  constructor
  · rintro ⟨n, ⟨-, hmark, hlength, hlong, hn⟩, id, hid, h⟩
    split at hid <;> cases hid
    split at h <;> cases h
    next hchecksum =>
    have hpart : (file.take n).length = n := List.length_take_of_le hn
    have hbody : (file.take n).drop headerLength =
        (file.drop headerLength).take (n - headerLength) := List.drop_take ..
    have hfield {position width : Nat} (h : position + width ≤ headerLength) :
        numberAt (file.take n) position width = numberAt file position width :=
      numberAt_take (h.trans (by omega))
    refine ⟨file.take n, ⟨⟨?_, ?_, ?_, ?_⟩, ?_, ?_, ?_, ?_⟩, (List.take_append_drop n file).symm⟩
    · rwa [hpart]
    · rw [hfield (by decide), hmark]
    · rw [hfield (by decide), hlength, hpart]
    · rw [hfield (by decide), hbody]
      exact (show _ = _ by simpa using hchecksum).symm
    · rw [hfield (by decide), UInt64.toNat_ofNat_of_lt' (numberAt_lt ..)]
    · rw [hfield (by decide), UInt64.toNat_ofNat_of_lt' (numberAt_lt ..)]
    · rw [hfield (by decide), UInt8.toNat_ofNat_of_lt' (numberAt_lt ..)]
    · rw [hbody]
      exact (List.take_append_drop 32 _).symm
  · rintro ⟨part, h, rfl⟩
    have hlong := h.long
    have hfield {position width : Nat} (h : position + width ≤ headerLength) :
        numberAt (part ++ rest) position width = numberAt part position width :=
      numberAt_append_left (h.trans (by omega))
    have hbody : ((part ++ rest).drop headerLength).take (part.length - headerLength) = e.body := by
      rw [List.drop_append_of_le_length (by omega), List.take_left' (by rw [List.length_drop]), h.body]
    have hid : e.body.take 32 = e.id.bytes := by rw [body, List.take_left' e.id.length_bytes]
    have hpayload : e.body.drop 32 = e.payload := by rw [body, List.drop_left' e.id.length_bytes]
    have hchecksum : numberAt part 28 4 = (Checksum.crc32 e.body).toNat := by
      rw [h.checksum, h.body]
    refine ⟨part.length, ⟨?_, ?_, ?_, hlong, ?_⟩, e.id, ?_, ?_⟩
    · rw [List.length_append]
      omega
    · rw [hfield (by decide), h.mark]
    · rw [hfield (by decide), h.length]
    · rw [List.length_append]
      omega
    · rw [hbody, hid, dif_pos e.id.length_bytes]
    · simp only [hbody, hpayload, hfield (show 28 + 4 ≤ headerLength by decide),
        hfield (show 24 + 1 ≤ headerLength by decide), hfield (show 16 + 8 ≤ headerLength by decide),
        hfield (show 8 + 8 ≤ headerLength by decide), hchecksum, h.sequence, h.time, h.operation,
        bne_self_eq_false, Bool.false_eq_true, if_false, List.drop_left, UInt64.ofNat_toNat,
        UInt8.ofNat_toNat, Option.pure_def]

/-- No whole entry is the beginning of another one. -/
theorem Whole.eq_of_append {part part' rest' : Text} (h : Whole part) (h' : Whole part')
    (heq : part ++ rest = part' ++ rest') : part = part' ∧ rest = rest' := by
  have hlong : headerLength + 32 ≤ part.length := h.long
  have hlong' : headerLength + 32 ≤ part'.length := h'.long
  have hfits : 4 + 4 ≤ headerLength + 32 := by decide
  refine List.append_inj heq ?_
  calc part.length = numberAt (part ++ rest) 4 4 := by
        rw [numberAt_append_left (hfits.trans hlong), h.length]
    _ = numberAt (part' ++ rest') 4 4 := by rw [heq]
    _ = part'.length := by rw [numberAt_append_left (hfits.trans hlong'), h'.length]

/-- No entry is read from a part of the bytes of an entry. -/
theorem read?_take (h : e.Fits) {n : Nat} (hn : n < e.bytes.length) :
    read? (e.bytes.take n) = none := by
  cases hread : read? (e.bytes.take n) with
  | none => rfl
  | some r =>
    obtain ⟨part, hpart, htake⟩ := read?_eq_some.1 hread
    have heq : part ++ (r.2 ++ e.bytes.drop n) = e.bytes ++ [] := by
      rw [← List.append_assoc, ← htake, List.take_append_drop, List.append_nil]
    have hall : part = e.bytes := (hpart.toWhole.eq_of_append (spells_bytes h).toWhole heq).1
    have hlength := congrArg List.length htake
    rw [hall, List.length_take, List.length_append] at hlength
    omega

theorem read?_nil : read? [] = none := rfl

/-! ## Rows of entries -/

variable {parts : List Text}

theorem length_le_length_flatten (h : List.Forall₂ Spells parts es) :
    es.length ≤ parts.flatten.length := by
  induction h with
  | nil => exact Nat.le_refl 0
  | cons hpart _ ih =>
    have := hpart.long
    rw [List.flatten_cons, List.length_append, List.length_cons]
    omega

theorem whole_of_forall₂ (h : List.Forall₂ Spells parts es) : ∀ part ∈ parts, Whole part := by
  induction h with
  | nil => simp
  | cons hpart _ ih => exact List.forall_mem_cons.2 ⟨hpart.toWhole, ih⟩

theorem readUpTo_flatten (h : List.Forall₂ Spells parts es) (htail : read? tail = none)
    {count : Nat} (hcount : es.length ≤ count) :
    readUpTo count (parts.flatten ++ tail) = (es, tail) := by
  induction h generalizing count with
  | nil =>
    cases count with
    | zero => rfl
    | succ count => simp [readUpTo, htail]
  | cons hpart _ ih =>
    cases count with
    | zero => cases hcount
    | succ count =>
      have ih := ih (Nat.le_of_succ_le_succ hcount)
      rw [List.flatten_cons, List.append_assoc, readUpTo, read?_eq_some.2 ⟨_, hpart, rfl⟩]
      simp only [ih]

/-- A row of entries is read to its end, and what follows it is left if it does not begin with an
entry. -/
theorem readAll_flatten (h : List.Forall₂ Spells parts es) (htail : read? tail = none) :
    readAll (parts.flatten ++ tail) = (es, tail) := by
  refine readUpTo_flatten h htail ?_
  have := length_le_length_flatten h
  rw [List.length_append]
  omega

/-- Any bytes are a row of entries and what does not begin with an entry. -/
theorem exists_row (bytes : Text) : ∃ parts es tail, List.Forall₂ Spells parts es ∧
    bytes = parts.flatten ++ tail ∧ read? tail = none := by
  induction hn : bytes.length using Nat.strong_induction_on generalizing bytes with
  | _ n ih =>
    cases hread : read? bytes with
    | none => exact ⟨[], [], bytes, .nil, rfl, hread⟩
    | some r =>
      obtain ⟨part, hpart, rfl⟩ := read?_eq_some.1 hread
      have hlong := hpart.long
      rw [List.length_append] at hn
      obtain ⟨parts, es, tail, hparts, hrest, htail⟩ := ih r.2.length (by omega) r.2 rfl
      refine ⟨part :: parts, r.1 :: es, tail, .cons hpart hparts, ?_, htail⟩
      rw [List.flatten_cons, List.append_assoc, ← hrest]

/-- Bytes begin with no row of whole entries that does not begin the row up to which they are
read. -/
theorem prefix_of_append_eq {row : List Text} (hrow : ∀ part ∈ row, Whole part)
    (hparts : ∀ part ∈ parts, Whole part) (htail : read? tail = none)
    (heq : row.flatten ++ rest = parts.flatten ++ tail) : row <+: parts := by
  induction row generalizing parts with
  | nil => exact List.nil_prefix
  | cons part row ih =>
    obtain ⟨hpart, hrow⟩ := List.forall_mem_cons.1 hrow
    rw [List.flatten_cons, List.append_assoc] at heq
    cases parts with
    | nil =>
      obtain ⟨e, he⟩ := hpart.exists_spells
      have hread : read? tail = some (e, row.flatten ++ rest) :=
        read?_eq_some.2 ⟨part, he, heq.symm⟩
      rw [htail] at hread
      cases hread
    | cons part' parts =>
      obtain ⟨hpart', hmore⟩ := List.forall_mem_cons.1 hparts
      rw [List.flatten_cons, List.append_assoc] at heq
      obtain ⟨hsame, heq⟩ := hpart.eq_of_append hpart' heq
      rw [hsame]
      exact (List.prefix_cons_inj part').2 (ih hrow hmore heq)

/-- The longest beginning of bytes that is a row of whole entries is the one that is read. -/
theorem isGreatest_row (h : List.Forall₂ Spells parts es) (htail : read? tail = none) :
    IsGreatest {n | n ≤ (parts.flatten ++ tail).length ∧ ∃ row : List Text,
      (∀ part ∈ row, Whole part) ∧ (parts.flatten ++ tail).take n = row.flatten}
      parts.flatten.length := by
  have hparts := whole_of_forall₂ h
  refine ⟨⟨?_, parts, hparts, List.take_left⟩, ?_⟩
  · rw [List.length_append]
    omega
  · rintro n ⟨hn, row, hrow, htake⟩
    have heq : row.flatten ++ (parts.flatten ++ tail).drop n = parts.flatten ++ tail := by
      rw [← htake, List.take_append_drop]
    obtain ⟨more, rfl⟩ := prefix_of_append_eq hrow hparts htail heq
    have hlength := congrArg List.length htake
    rw [List.length_take_of_le hn] at hlength
    rw [List.flatten_append, List.length_append, hlength]
    omega

/-! ## Rows that were written -/

theorem forall₂_spells_bytes (hes : ∀ e ∈ es, e.Fits) :
    List.Forall₂ Spells (es.map bytes) es := by
  rw [List.forall₂_map_left_iff, List.forall₂_same]
  exact fun e he => spells_bytes (hes e he)

theorem readAll_flatMap (hes : ∀ e ∈ es, e.Fits) (htail : read? tail = none) :
    readAll (es.flatMap bytes ++ tail) = (es, tail) :=
  readAll_flatten (forall₂_spells_bytes hes) htail

/-- What is left of a row of entries are whole entries and a part of the next one. -/
theorem exists_take_flatMap (hes : ∀ e ∈ es, e.Fits) (n : Nat) :
    ∃ k tail, (es.flatMap bytes).take n = (es.take k).flatMap bytes ++ tail ∧ read? tail = none ∧
      IsGreatest {k | k ≤ es.length ∧ ((es.take k).flatMap bytes).length ≤ n} k := by
  induction es generalizing n with
  | nil =>
    refine ⟨0, [], by simp, read?_nil, ⟨by simp, ?_⟩⟩
    intro k hk
    exact hk.1
  | cons e es ih =>
    obtain ⟨he, hes⟩ := List.forall_mem_cons.1 hes
    by_cases hn : e.bytes.length ≤ n
    · obtain ⟨k, tail, htake, htail, ⟨hle, hfit⟩, hgreatest⟩ := ih hes (n - e.bytes.length)
      refine ⟨k + 1, tail, ?_, htail, ⟨⟨Nat.succ_le_succ hle, ?_⟩, ?_⟩⟩
      · rw [List.flatMap_cons, List.take_append, List.take_of_length_le hn, htake,
          List.take_succ_cons, List.flatMap_cons, List.append_assoc]
      · rw [List.take_succ_cons, List.flatMap_cons, List.length_append]
        omega
      · rintro (_ | k') ⟨hle', hfit'⟩
        · exact Nat.zero_le _
        · rw [List.take_succ_cons, List.flatMap_cons, List.length_append] at hfit'
          exact Nat.succ_le_succ (hgreatest ⟨Nat.le_of_succ_le_succ hle', by omega⟩)
    · have hn : n < e.bytes.length := Nat.lt_of_not_le hn
      refine ⟨0, e.bytes.take n, ?_, read?_take he hn, ⟨by simp, ?_⟩⟩
      · rw [List.flatMap_cons, List.take_append_of_le_length (Nat.le_of_lt hn)]
        rfl
      · rintro (_ | k') ⟨-, hfit'⟩
        · exact Nat.le_refl 0
        · rw [List.take_succ_cons, List.flatMap_cons, List.length_append] at hfit'
          omega

end Entry

end Journal
end FactGraph
