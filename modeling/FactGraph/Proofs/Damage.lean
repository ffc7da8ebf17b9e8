import FactGraph.Proofs.Checksum
import FactGraph.Proofs.Repair

/-!
# Journals with a changed byte

The checksum of an entry covers what follows its header, and the header itself is covered by nothing.
So what comes of a changed byte in the file of a history depends on where it stands in its entry. In
the mark, the checksum, the digest or the text it costs its entry and all later ones, as if the file
had ended there. In the number, the time, the version or the bytes behind it, it costs no text. The
operation is read as it stands, and a changed length delimits other bytes, which are checked in turn.
-/

namespace FactGraph

namespace Journal

namespace Entry

variable {e : Entry} {bytes rest : Text} {b : UInt8} {position width q : Nat}

/-! ## Numbers in changed bytes -/

theorem numberAt_set_of_lt (h : q < position) :
    numberAt (bytes.set q b) position width = numberAt bytes position width := by
  rw [numberAt, List.drop_set_of_lt h, ← numberAt]

theorem numberAt_set_of_le (h : position + width ≤ q) :
    numberAt (bytes.set q b) position width = numberAt bytes position width := by
  rw [← numberAt_take h, List.take_set_of_le (Nat.le_refl q), numberAt_take h]

/-- A changed byte changes the number in which it stands. -/
theorem numberAt_set_ne (hq : q < bytes.length) (hb : bytes[q] ≠ b) (hlow : position ≤ q)
    (hhigh : q < position + width) :
    numberAt (bytes.set q b) position width ≠ numberAt bytes position width := by
  rw [numberAt, numberAt, Ne, Word.ofLittleEndian_inj (by simp)]
  intro h
  have hbyte := congrArg (fun t => t[q - position]?) h
  have hplace : position + (q - position) = q := by omega
  simp only [List.getElem?_take, List.getElem?_drop, hplace, List.getElem?_set_self hq] at hbyte
  rw [if_pos (by omega), if_pos (by omega), List.getElem?_eq_getElem hq] at hbyte
  exact hb (Option.some.inj hbyte).symm

/-! ## Entries with a changed byte -/

/-- A changed byte in the mark, in the checksum or in what is checked is noticed. -/
theorem Whole.not_set (h : Whole bytes) (hq : q < bytes.length) (hb : bytes[q] ≠ b)
    (hplace : q < 4 ∨ 28 ≤ q) : ¬ Whole (bytes.set q b) := by
  intro h'
  rcases hplace with hmark | hlate
  · exact numberAt_set_ne hq hb (Nat.zero_le q) (by omega) (h'.mark.trans h.mark.symm)
  · have hchecksum := h'.checksum
    by_cases hfield : q < headerLength
    · rw [List.drop_set_of_lt hfield, ← h.checksum] at hchecksum
      exact numberAt_set_ne hq hb hlate hfield hchecksum
    · have hbody : q - headerLength < (bytes.drop headerLength).length := by
        rw [List.length_drop]
        omega
      rw [numberAt_set_of_le (Nat.le_of_not_lt hfield), List.drop_set, if_neg hfield, h.checksum,
        UInt32.toNat_inj] at hchecksum
      refine Checksum.crc32_set_ne hbody ?_ hchecksum.symm
      simpa [Nat.add_sub_cancel' (Nat.le_of_not_lt hfield)] using hb

/-- The bytes that the length in a header delimits. -/
def frame (bytes : Text) : Text := bytes.take (numberAt bytes 4 4)

theorem read?_eq_none_of_frame (h : ¬ Whole (frame bytes)) : read? bytes = none := by
  cases hread : read? bytes with
  | none => rfl
  | some r =>
    obtain ⟨part, hpart, rfl⟩ := read?_eq_some.1 hread
    have hlong := hpart.long
    rw [frame, numberAt_append_left (by omega), hpart.length, List.take_left] at h
    exact absurd hpart.toWhole h

theorem frame_append (hlong : 8 ≤ bytes.length) (h : numberAt bytes 4 4 = bytes.length) :
    frame (bytes ++ rest) = bytes := by
  rw [frame, numberAt_append_left hlong, h, List.take_left]

/-- No entry is read where the mark, the checksum or what is checked has a changed byte. -/
theorem read?_set (h : Whole bytes) (hq : q < bytes.length) (hb : bytes[q] ≠ b)
    (hplace : q < 4 ∨ 28 ≤ q) (rest : Text) : read? (bytes.set q b ++ rest) = none := by
  have hlong := h.long
  have hlength : numberAt (bytes.set q b) 4 4 = (bytes.set q b).length := by
    rw [List.length_set, ← h.length]
    rcases hplace with hmark | hlate
    · exact numberAt_set_of_lt hmark
    · exact numberAt_set_of_le (by omega)
  apply read?_eq_none_of_frame
  rw [frame_append (by rw [List.length_set]; omega) hlength]
  exact h.not_set hq hb hplace

/-- An entry with a changed byte in its number, its time, its operation, the version or the bytes
behind it is still whole. Only a changed operation changes what it records. -/
theorem Spells.set (h : Spells bytes e) (hlow : 8 ≤ q) (hhigh : q < 28) (b : UInt8) :
    ∃ e', Spells (bytes.set q b) e' ∧
      e'.recorded? = (if q = 24 then { e with operation := b } else e).recorded? := by
  have hlong : 64 ≤ bytes.length := h.long
  have hdrop : (bytes.set q b).drop headerLength = bytes.drop headerLength :=
    List.drop_set_of_lt (hhigh.trans (by decide))
  have hwhole : Whole (bytes.set q b) := by
    refine ⟨?_, ?_, ?_, ?_⟩
    · rw [List.length_set]
      exact h.long
    · rw [numberAt_set_of_le (by omega), h.mark]
    · rw [numberAt_set_of_le (by omega), h.length, List.length_set]
    · rw [numberAt_set_of_lt hhigh, hdrop, h.checksum]
  have hoperation :
      numberAt (bytes.set q b) 24 1 = (if q = 24 then b else e.operation).toNat := by
    split
    · next hq =>
      have hbyte : ((bytes.set q b).drop 24).take 1 = [b] := by
        rw [hq, List.drop_set, if_neg (Nat.lt_irrefl 24), List.drop_eq_getElem_cons (by omega)]
        rfl
      rw [numberAt, hbyte]
      rfl
    · next hq =>
      rw [← h.operation]
      rcases Nat.lt_or_gt_of_ne hq with hq | hq
      · exact numberAt_set_of_lt hq
      · exact numberAt_set_of_le hq
  refine ⟨{ e with
    sequence := .ofNat (numberAt (bytes.set q b) 8 8)
    time := .ofNat (numberAt (bytes.set q b) 16 8)
    operation := if q = 24 then b else e.operation }, ⟨hwhole, ?_, ?_, hoperation, ?_⟩, ?_⟩
  · exact (UInt64.toNat_ofNat_of_lt' (numberAt_lt ..)).symm
  · exact (UInt64.toNat_ofNat_of_lt' (numberAt_lt ..)).symm
  · rw [hdrop, h.body]
    rfl
  · split_ifs <;> rfl

end Entry

/-! ## Operations and their places -/

/-- The digest of an operation. -/
def Operation.id : Operation → Digest
  | put id _ => id
  | erase id => id

/-- The text that an operation puts; there is none where a cell is taken away. -/
def Operation.payload : Operation → Text
  | put _ t => t
  | erase _ => []

/-- What the entry of an operation records where another operation is written in it. -/
def Operation.reread (b : UInt8) (o : Operation) : Option Operation :=
  if b = Entry.putOperation then some (.put o.id o.payload)
  else if b = Entry.eraseOperation then some (.erase o.id)
  else none

variable {j : Journal} {o : Operation} {ops before after : List Operation} {e : Entry} {p : Nat}
  {m : Digest → Option Text}

theorem Operation.Recorded.reread (h : o.Recorded e) (b : UInt8) :
    { e with operation := b }.recorded? = o.reread b := by
  cases o with
  | put id t =>
    obtain ⟨-, rfl, rfl⟩ := h
    rfl
  | erase id =>
    obtain ⟨-, rfl, hpayload⟩ := h
    rw [Entry.recorded?, Operation.reread, Operation.id, Operation.payload, ← hpayload]

theorem extent_cons (o : Operation) (ops : List Operation) :
    extent (o :: ops) = o.length + extent ops := by
  rw [extent, List.map_cons, List.sum_cons, ← extent]

/-- Every byte of a file belongs to an operation. -/
theorem exists_place (hp : p < extent ops) : ∃ before o after q, ops = before ++ o :: after ∧
    p = extent before + q ∧ q < o.length := by
  induction ops generalizing p with
  | nil => cases hp
  | cons o ops ih =>
    by_cases hfirst : p < o.length
    · exact ⟨[], o, ops, p, rfl, (Nat.zero_add p).symm, hfirst⟩
    · rw [extent_cons] at hp
      obtain ⟨before, o', after, q, rfl, hplace, hq⟩ := ih (p := p - o.length) (by omega)
      refine ⟨o :: before, o', after, q, rfl, ?_, hq⟩
      rw [extent_cons]
      omega

theorem operations_append (m : Digest → Option Text) (cs others : List Change) :
    operations m (cs ++ others) =
      operations m cs ++ operations ((operations m cs).foldl Operation.apply m) others := by
  induction cs generalizing m with
  | nil => rfl
  | cons c cs ih => simp [operations, ih]

/-- The operations in front of another one come of the beginning of the changes. -/
theorem exists_operations_take {cs : List Change} (h : operations m cs = before ++ o :: after) :
    ∃ n, operations m (cs.take n) = before := by
  induction cs generalizing m before with
  | nil => simp [operations] at h
  | cons c cs ih =>
    cases before with
    | nil => exact ⟨0, rfl⟩
    | cons first before =>
      rw [operations] at h
      cases hmade : c.operation? m with
      | none =>
        rw [hmade] at h
        obtain ⟨n, hn⟩ := ih h
        exact ⟨n + 1, by simpa [operations, hmade] using hn⟩
      | some made =>
        rw [hmade] at h
        obtain ⟨rfl, hrest⟩ := List.cons.inj h
        obtain ⟨n, hn⟩ := ih hrest
        exact ⟨n + 1, by simpa [operations, hmade] using hn⟩

/-! ## Histories with a changed byte -/

/-- Whether a journal has the texts that another one has behind some beginning of a history. -/
def Recalls (j : Journal) (history : List (UInt64 × Change)) (r : Journal) : Prop :=
  ∃ n j', run (.journal j) (history.take n) = .journal j' ∧ r.cells.get? = j'.cells.get?

theorem Holds.get?_of_run {j₀ : Journal} (hj₀ : j₀.Holds []) {history : List (UInt64 × Change)}
    (hrun : Journal.run (.journal j₀) history = .journal j) :
    j.cells.get? = contents (operations (fun _ => none) (history.map Prod.snd)) := by
  obtain ⟨j', es, hj', hes, hops⟩ := hj₀.run .nil history
  cases hrun.symm.trans hj'
  exact hes.get?_eq hops

/-- The file of a history, cut where the entry of an operation stands. -/
theorem exists_split {j₀ : Journal} (hj₀ : j₀.Holds []) {history : List (UInt64 × Change)}
    (hrun : run (.journal j₀) history = .journal j)
    (hops : operations (fun _ => none) (history.map Prod.snd) = before ++ o :: after) :
    ∃ n j' es e es', run (.journal j₀) (history.take n) = .journal j' ∧ j'.Holds es ∧
      j.Holds (es ++ e :: es') ∧ List.Forall₂ Operation.Recorded before es ∧ o.Recorded e ∧
      List.Forall₂ Operation.Recorded after es' := by
  obtain ⟨n, hn⟩ := exists_operations_take hops
  rw [← List.map_take] at hn
  obtain ⟨j', es, hj', hes, hbefore⟩ := hj₀.run .nil (history.take n)
  rw [List.nil_append, contents, List.foldl_nil, hn] at hbefore
  -- What is left of the history goes on from there.
  have hrest : run (.journal j') (history.drop n) = .journal j := by
    rw [← hj', run, run, ← List.foldl_append, List.take_append_drop]
    exact hrun
  obtain ⟨j'', new, hj'', hnew, hmade⟩ := (Extends.refl hes.isOpen).run (history.drop n)
  cases hrest.symm.trans hj''
  rw [← List.take_append_drop n history, List.map_append, operations_append, hn] at hops
  rw [hes.get?_eq hbefore, contents, List.append_cancel_left hops] at hmade
  obtain ⟨e, es', he, hes', rfl⟩ := List.forall₂_cons_left_iff.1 hmade
  exact ⟨n, j', es, e, es', hj', hes, hes.extend hnew, hbefore, he, hes'⟩

section Row

variable {es es' : List Entry} {q : Nat}

/-- A byte of a file is a byte of the entry that stands at its place. -/
theorem Holds.getElem?_device (h : j.Holds (es ++ e :: es'))
    (hbefore : List.Forall₂ Operation.Recorded before es) (hq : q < e.bytes.length) :
    j.device[extent before + q]? = e.bytes[q]? := by
  rw [h.device, ← length_flatMap_bytes hbefore, List.flatMap_append, List.flatMap_cons,
    List.getElem?_append_right (Nat.le_add_right _ q), Nat.add_sub_cancel_left,
    List.getElem?_append_left hq]

/-- A byte that is changed in a file is changed in the entry that stands at its place. -/
theorem Holds.device_set (h : j.Holds (es ++ e :: es'))
    (hbefore : List.Forall₂ Operation.Recorded before es) (hq : q < e.bytes.length) (b : UInt8) :
    j.device.set (extent before + q) b =
      es.flatMap Entry.bytes ++ (e.bytes.set q b ++ es'.flatMap Entry.bytes) := by
  rw [h.device, ← length_flatMap_bytes hbefore, List.flatMap_append, List.flatMap_cons,
    List.set_append_right _ _ (Nat.le_add_right _ q), Nat.add_sub_cancel_left,
    List.set_append_left _ _ hq]

/-- Where the bytes behind some entries do not begin with an entry, they are cut off. -/
theorem replay_cut (hfits : ∀ e ∈ es, e.Fits)
    (hbefore : List.Forall₂ Operation.Recorded before es) {tail : Text}
    (htail : Entry.read? tail = none) (path : Text) (time : UInt64) :
    (replay path time (es.flatMap Entry.bytes ++ tail)).device = es.flatMap Entry.bytes ∧
      (replay path time (es.flatMap Entry.bytes ++ tail)).cells.get? = contents before := by
  obtain ⟨hcarries, hdevice, -⟩ := replay_row (Entry.forall₂_spells_bytes hfits) htail path time
  rw [← List.flatMap_def] at hcarries hdevice
  refine ⟨hdevice, ?_⟩
  rw [hcarries.texts, filterMap_recorded? hbefore]

/-- Where a changed byte leaves all entries whole, they are kept, and only a changed operation makes a
difference to what they record. -/
theorem Holds.replay_set (h : j.Holds (es ++ e :: es'))
    (hbefore : List.Forall₂ Operation.Recorded before es) (he : o.Recorded e)
    (hafter : List.Forall₂ Operation.Recorded after es') (hlow : 8 ≤ q) (hhigh : q < 28)
    (b : UInt8) (path : Text) (time : UInt64) :
    let file := j.device.set (extent before + q) b
    (replay path time file).device = file ∧ (replay path time file).cells.get? =
      contents (before ++ (if q = 24 then o.reread b else some o).toList ++ after) := by
  intro file
  have hfits := h.fits
  simp only [List.forall_mem_append, List.forall_mem_cons] at hfits
  obtain ⟨hes, hfit, hes'⟩ := hfits
  obtain ⟨e', hspells, hrecorded⟩ := (Entry.spells_bytes hfit).set hlow hhigh b
  have hrow : List.Forall₂ Entry.Spells
      (es.map Entry.bytes ++ e.bytes.set q b :: es'.map Entry.bytes) (es ++ e' :: es') :=
    List.rel_append (Entry.forall₂_spells_bytes hes)
      (.cons hspells (Entry.forall₂_spells_bytes hes'))
  have hfile : (es.map Entry.bytes ++ e.bytes.set q b :: es'.map Entry.bytes).flatten = file := by
    have hq : q < e.bytes.length := by
      rw [Entry.length_bytes]
      exact Nat.lt_add_right _ (hhigh.trans (by decide))
    rw [List.flatten_append, List.flatten_cons, ← List.flatMap_def, ← List.flatMap_def]
    exact (h.device_set hbefore hq b).symm
  obtain ⟨hcarries, hdevice, -⟩ := replay_row hrow Entry.read?_nil path time
  rw [List.append_nil, hfile] at hcarries hdevice
  refine ⟨hdevice, ?_⟩
  have hmade : e'.recorded? = if q = 24 then o.reread b else some o := by
    rw [hrecorded, ← he.reread b, ← he.recorded?]
    split <;> rfl
  rw [hcarries.texts, ← hmade, List.filterMap_append, List.filterMap_cons,
    filterMap_recorded? hbefore, filterMap_recorded? hafter]
  cases e'.recorded? <;> simp

/-- What does not begin with an entry any more, because a byte is changed, is cut off. -/
theorem Holds.read?_drop_set (h : j.Holds (es ++ e :: es'))
    (hbefore : List.Forall₂ Operation.Recorded before es) (hq : q < e.bytes.length) {b : UInt8}
    (hb : j.device[extent before + q]? ≠ some b)
    (hcase : q < 4 ∨ 28 ≤ q ∨ (4 ≤ q ∧ q < 8 ∧ ¬ Entry.Whole (Entry.frame
      ((j.device.set (extent before + q) b).drop (extent before))))) :
    Entry.read? (e.bytes.set q b ++ es'.flatMap Entry.bytes) = none := by
  have hwhole : Entry.Whole e.bytes := (Entry.spells_bytes (h.fits e (by simp))).toWhole
  rw [h.getElem?_device hbefore hq, List.getElem?_eq_getElem hq, Ne, Option.some.injEq] at hb
  rcases hcase with hmark | hlate | ⟨-, -, hframe⟩
  · exact Entry.read?_set hwhole hq hb (.inl hmark) _
  · exact Entry.read?_set hwhole hq hb (.inr hlate) _
  · rw [h.device_set hbefore hq, ← length_flatMap_bytes hbefore, List.drop_left] at hframe
    exact Entry.read?_eq_none_of_frame hframe

end Row

/-- A journal that is opened on the file of a history in which one byte is changed. Where the byte is
in the mark, the checksum, the digest or the text of an entry, or in its length and the bytes that the
length delimits are no entry, the entry and all later ones are cut off, and what is left are the texts
behind some beginning of the history. In the number, the time, the version and the bytes behind it the
change costs no text. A changed operation is the operation that the entry records, and all other
entries stay. -/
theorem opens_changed_file {path : Text} {time : UInt64} {d : Disk}
    (hempty : (d.locate path.untilNul).fileBytes = .ok []) (history : List (UInt64 × Change)) :
    ∃ d₀ j₀ j, (openedOnDisk path time).on d = (d₀, .ok j₀) ∧
      run (.journal j₀) history = .journal j ∧
      ∀ (p : Nat) (b : UInt8) (hp : p < j.device.length), j.device[p] ≠ b →
        ∃ before o after q,
          operations (fun _ => none) (history.map Prod.snd) = before ++ o :: after ∧
          p = extent before + q ∧ q < o.length ∧
          ∀ (path : Text) (time : UInt64) (d : Disk),
            (d.locate path.untilNul).fileBytes = .ok (j.device.set p b) →
            ∃ r, (openedOnDisk path time).on d = (d.write path.untilNul r.device, .ok r) ∧
              r.isOpen = true ∧
              (q < 4 ∨ 28 ≤ q ∨ (4 ≤ q ∧ q < 8 ∧ ¬ Entry.Whole (Entry.frame
                  ((j.device.set p b).drop (extent before)))) →
                r.device = j.device.take (extent before) ∧ r.cells.get? = contents before ∧
                  Recalls j₀ history r) ∧
              (8 ≤ q → q < 28 → q ≠ 24 →
                r.device = j.device.set p b ∧ r.cells.get? = j.cells.get?) ∧
              (q = 24 → r.device = j.device.set p b ∧
                r.cells.get? = contents (before ++ (o.reread b).toList ++ after)) := by
  have hj₀ := holds_replay_nil path time
  obtain ⟨j, es, hj, h, hops⟩ := hj₀.run .nil history
  refine ⟨_, _, j, on_openedOnDisk time hempty, hj, fun p b hp hb => ?_⟩
  rw [List.nil_append] at hops
  have hextent : p < extent (operations (fun _ => none) (history.map Prod.snd)) := by
    rwa [h.device, length_flatMap_bytes hops] at hp
  obtain ⟨before, o, after, q, hsplit, rfl, hq⟩ := exists_place hextent
  refine ⟨before, o, after, q, hsplit, rfl, hq, fun path time d hd => ?_⟩
  obtain ⟨n, j', es, e, es', hj', hes, hall, hbefore, he, hafter⟩ := exists_split hj₀ hj hsplit
  have hplace : q < e.bytes.length := by rwa [he.length_bytes]
  have hbyte : j.device[extent before + q]? ≠ some b := by
    rwa [List.getElem?_eq_getElem hp, Ne, Option.some.injEq]
  have hkept := hall.replay_set (q := q) hbefore he hafter
  refine ⟨_, on_openedOnDisk time hd, rfl, fun hcase => ?_, fun hlow hhigh hne => ?_, ?_⟩
  · have hread := hall.read?_drop_set hbefore hplace hbyte hcase
    obtain ⟨hdevice, htexts⟩ := replay_cut hes.fits hbefore hread path time
    rw [← hall.device_set hbefore hplace b] at hdevice htexts
    refine ⟨?_, htexts, n, j', hj', ?_⟩
    · rw [hdevice, hall.device, ← length_flatMap_bytes hbefore, List.flatMap_append, List.take_left]
    · rw [htexts, hes.get?_eq hbefore]
  · obtain ⟨hdevice, htexts⟩ := hkept hlow hhigh b path time
    refine ⟨hdevice, ?_⟩
    rw [htexts, if_neg hne, hall.get?_eq (List.rel_append hbefore (.cons he hafter)),
      Option.toList_some, List.append_assoc]
    rfl
  · rintro rfl
    exact hkept (by decide) (by decide) b path time

/-- A changed byte in the second of two entries leaves the first one. -/
theorem opens_changed_file_payload :
    let id : Digest := ⟨List.replicate 32 7, rfl⟩
    let other : Digest := ⟨List.replicate 32 8, rfl⟩
    let f : Fact := ⟨.named "a", "p", .string [226, 82, 187, 74]⟩
    let g : Fact := ⟨.named "a", "p", .boolean true⟩
    let history : List (UInt64 × Change) := [(5, .put id f), (6, .put other g)]
    ∃ j₀ j r, ((openedOnDisk "log" 4).on {}).2 = .ok j₀ ∧ run (.journal j₀) history = .journal j ∧
      j.device[146]? = some 8 ∧
      ((openedOnDisk "log" 9).on (({} : Disk).write "log" (j.device.set 146 9))).2 = .ok r ∧
      r.device = j.device.take 86 ∧ r.cells.get? id = some (Encoding.factBytes f) ∧
      r.cells.get? other = none := by
  intro id other f g history
  have hplace : (({} : Disk).locate (Text.untilNul "log")).fileBytes = .ok [] := by decide +kernel
  obtain ⟨d₀, j₀, j, hopened, hrun, hchanged⟩ := @opens_changed_file "log" 4 {} hplace history
  obtain rfl : j₀ = replay "log" 4 [] := eq_replay_of_opened hplace hopened
  have hbyte : j.device[146]? = some 8 := by
    have hvalue : passes (fun j => decide (j.device[146]? = some 8))
        (run (.journal (replay "log" 4 [])) history) = true := by
      decide +kernel
    rw [hrun] at hvalue
    exact of_decide_eq_true hvalue
  have hops : operations (fun _ => none) (history.map Prod.snd) =
      [.put id (Encoding.factBytes f), .put other (Encoding.factBytes g)] := by
    rfl
  have hlt : 146 < j.device.length := (List.getElem?_eq_some_iff.1 hbyte).1
  obtain ⟨before, o, after, q, hsplit, hplace, hq, hreopened⟩ := hchanged 146 9 hlt (by
    rw [List.getElem?_eq_getElem hlt, Option.some.injEq] at hbyte
    rw [hbyte]
    decide)
  obtain ⟨r, hr, -, hcut, -, -⟩ := hreopened "log" 9 _ (fileBytes_write_log _)
  rw [hops] at hsplit
  -- The entries take 86 and 79 bytes.
  rcases before with _ | ⟨first, _ | ⟨second, before⟩⟩
  · cases hsplit
    have hlength : (Operation.put id (Encoding.factBytes f)).length = 86 := by decide +kernel
    simp only [extent, List.map_nil, List.sum_nil] at hplace
    omega
  · cases hsplit
    have hstart : extent [.put id (Encoding.factBytes f)] = 86 := by decide +kernel
    rw [hstart] at hplace hcut
    obtain ⟨hdevice, htexts, -⟩ := hcut (.inr (.inl (by omega)))
    refine ⟨_, j, r, congrArg Prod.snd hopened, hrun, hbyte, congrArg Prod.snd hr, hdevice, ?_, ?_⟩
    · rw [htexts]
      decide +kernel
    · rw [htexts]
      decide +kernel
  · simp at hsplit

/-- A changed operation takes a text away that was put, and keeps a later one. A changed length may
delimit bytes that happen to have the checksum, and so cut the end of a text off. Neither is what there
was behind a beginning of the history. -/
theorem changed_header_not_recalled :
    let id : Digest := ⟨List.replicate 32 7, rfl⟩
    let other : Digest := ⟨List.replicate 32 8, rfl⟩
    let f : Fact := ⟨.named "a", "p", .string [226, 82, 187, 74]⟩
    let g : Fact := ⟨.named "a", "p", .boolean true⟩
    let history : List (UInt64 × Change) := [(5, .put id f), (6, .put other g)]
    ∃ j₀ j, ((openedOnDisk "log" 4).on {}).2 = .ok j₀ ∧ run (.journal j₀) history = .journal j ∧
      ∀ change ∈ [((24 : Nat), (2 : UInt8)), (4, 82)], ∃ r, ((openedOnDisk "log" 9).on
        (({} : Disk).write "log" (j.device.set change.1 change.2))).2 = .ok r ∧
        ¬ Recalls j₀ history r := by
  intro id other f g history
  have hplace : (({} : Disk).locate (Text.untilNul "log")).fileBytes = .ok [] := by decide +kernel
  have hj₀ := holds_replay_nil "log" 4
  obtain ⟨j, es, hrun, hes, hops⟩ := hj₀.run .nil history
  -- Behind every beginning of the history, the first text is there if the second one is.
  have hbehind {n : Nat} {j' : Journal}
      (hj' : run (.journal (replay "log" 4 [])) (history.take n) = .journal j') :
      j'.cells.get? id = none ∧ j'.cells.get? other = none ∨
        j'.cells.get? id = some (Encoding.factBytes f) := by
    rw [hj₀.get?_of_run hj']
    rcases n with _ | _ | n
    · exact .inl ⟨rfl, rfl⟩
    · exact .inr (by decide +kernel)
    · rw [List.take_of_length_le (Nat.le_add_left 2 n)]
      exact .inr (by decide +kernel)
  refine ⟨_, j, congrArg Prod.snd (on_openedOnDisk 4 hplace), hrun, fun change hchange => ?_⟩
  refine ⟨_, congrArg Prod.snd (on_openedOnDisk 9 (fileBytes_write_log _)), ?_⟩
  rintro ⟨n, j', hj', htexts⟩
  simp only [List.mem_cons, List.not_mem_nil, or_false] at hchange
  rcases hchange with rfl | rfl
  · obtain ⟨e, es', he, hafter, rfl⟩ := List.forall₂_cons_left_iff.1 hops
    have hall : j.Holds ([] ++ e :: es') := hes
    obtain ⟨-, hreplay⟩ := hall.replay_set (q := 24) .nil he hafter (by decide) (by decide) 2 "log" 9
    have hgone : j'.cells.get? id = none := by
      rw [← htexts]
      exact (congrFun hreplay id).trans (by decide +kernel)
    have hlater : j'.cells.get? other = some (Encoding.factBytes g) := by
      rw [← htexts]
      exact (congrFun hreplay other).trans (by decide +kernel)
    rcases hbehind hj' with ⟨-, hnone⟩ | hsome
    · cases hnone.symm.trans hlater
    · cases hgone.symm.trans hsome
  · have hvalue : passes (fun j => decide ((replay "log" 9 (j.device.set 4 82)).cells.get? id =
        some ((Encoding.factBytes f).take 18)))
        (run (.journal (replay "log" 4 [])) history) = true := by
      decide +kernel
    rw [hrun] at hvalue
    have hcut : j'.cells.get? id = some ((Encoding.factBytes f).take 18) := by
      rw [← htexts]
      exact of_decide_eq_true hvalue
    rcases hbehind hj' with ⟨hnone, -⟩ | hsome
    · cases hnone.symm.trans hcut
    · exact absurd (Option.some.inj (hsome.symm.trans hcut)) (by decide +kernel)

end Journal
end FactGraph
