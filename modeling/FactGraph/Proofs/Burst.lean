import FactGraph.Proofs.Damage

/-!
# Journals with damaged data

Up to four bytes next to one another, changed in what follows the header of an entry, show in its
checksum. The file is then cut off in front of the entry, and what is opened is the journal as it was
when the entries in front of it had been written (`Journal.opens_damaged_data`).
-/

namespace FactGraph

/-- Of two ways to cut a text in two, the longer first part begins with the shorter one. -/
theorem exists_append_of_length_le {a b c d : Text} (h : a ++ b = c ++ d)
    (hlength : a.length ≤ c.length) : ∃ between, c = a ++ between ∧ b = between ++ d := by
  have ha : a <+: c ++ d := h ▸ List.prefix_append a b
  obtain ⟨between, rfl⟩ := List.prefix_of_prefix_length_le ha (List.prefix_append c d) hlength
  rw [List.append_assoc] at h
  exact ⟨between, rfl, List.append_cancel_left h⟩

namespace Journal

variable {j : Journal} {o : Operation} {before after : List Operation} {e : Entry}
  {es es' : List Entry}

/-- No entry is read where other bytes follow the header, if their checksum is another one. -/
theorem Entry.read?_of_checksum (h : e.Fits) {body : Text} (hlength : body.length = e.body.length)
    (hchecksum : Checksum.crc32 body ≠ Checksum.crc32 e.body) (rest : Text) :
    read? (e.header ++ body ++ rest) = none := by
  have hheader := length_header e
  have hbytes : (e.header ++ body).length = e.bytes.length := by
    rw [length_bytes, List.length_append, hheader, hlength]
  apply read?_eq_none_of_frame
  rw [frame_append]
  · intro hwhole
    have hfound := hwhole.checksum
    rw [List.drop_left' hheader, numberAt_append_left (by rw [hheader]), numberAt_checksum,
      UInt32.toNat_inj] at hfound
    exact hchecksum hfound.symm
  · rw [List.length_append, hheader]
    exact Nat.le_add_right_of_le (by decide)
  · rw [numberAt_append_left (by rw [hheader]; decide), numberAt_length h, hbytes]

/-- Bytes behind the header of an entry and in front of the next entry are bytes of its body. -/
theorem Holds.exists_body (h : j.Holds (es ++ e :: es'))
    (hbefore : List.Forall₂ Operation.Recorded before es) (he : o.Recorded e)
    {front s back : Text} (hdevice : j.device = front ++ s ++ back)
    (hlow : extent before + Entry.headerLength ≤ front.length)
    (hhigh : front.length + s.length ≤ extent before + o.length) :
    ∃ first last, e.body = first ++ s ++ last ∧
      front = es.flatMap Entry.bytes ++ (e.header ++ first) ∧
      back = last ++ es'.flatMap Entry.bytes := by
  have hheader := e.length_header
  have hextent := length_flatMap_bytes hbefore
  have hbody : Entry.headerLength + e.body.length = o.length := by
    rw [← e.length_bytes, he.length_bytes]
  have hfile : (es.flatMap Entry.bytes ++ e.header) ++ (e.body ++ es'.flatMap Entry.bytes) =
      front ++ (s ++ back) := by
    rw [h.device, List.flatMap_append, List.flatMap_cons, Entry.bytes] at hdevice
    simpa only [List.append_assoc] using hdevice
  obtain ⟨first, rfl, hrest⟩ := exists_append_of_length_le hfile (by
    rw [List.length_append]
    omega)
  simp only [List.length_append] at hhigh
  rw [← List.append_assoc] at hrest
  obtain ⟨last, hlast, rfl⟩ := exists_append_of_length_le hrest.symm (by
    rw [List.length_append]
    omega)
  exact ⟨first, last, hlast, List.append_assoc .., rfl⟩

/-- A journal that is opened on the entries of another one, and on bytes behind them that do not begin
with an entry, is the other one again. -/
theorem Holds.replay_append (h : j.Holds es) {tail : Text} (htail : Entry.read? tail = none)
    (path : Text) (time : UInt64) :
    let r := replay path time (j.device ++ tail)
    r.device = j.device ∧ r.cells = j.cells ∧
      (es.length < 2 ^ 64 → r.sequence = j.sequence) := by
  have hread := Entry.readAll_flatMap h.fits htail
  rw [h.device, h.cells, h.sequence]
  refine ⟨?_, ?_, fun hcount => ?_⟩
  · simp only [replay, hread, Journal.device, List.length_append, Nat.add_sub_cancel,
      List.take_left, List.reverse_singleton, List.flatten_singleton]
  · simp only [replay, hread]
  · simp only [replay, hread]
    exact h.numbered.greatest hcount

/-- Texts that differ in up to four bytes next to one another have different checksums. So a journal
that is opened on the file of a history, in which such bytes are changed in the digest or the text of
an entry, is the journal of the beginning of the history that wrote the entries in front of it, and
all bytes behind these are cut off. -/
theorem opens_damaged_data {path : Text} {time : UInt64} {d : Disk}
    (hempty : (d.locate path.untilNul).fileBytes = .ok []) (history : List (UInt64 × Change)) :
    (∀ before s t after : Text, s.length = t.length → t.length ≤ 4 → s ≠ t →
      Checksum.crc32 (before ++ s ++ after) ≠ Checksum.crc32 (before ++ t ++ after)) ∧
    ∃ d₀ j₀ j, (openedOnDisk path time).on d = (d₀, .ok j₀) ∧
      run (.journal j₀) history = .journal j ∧
      ∀ before o after,
        operations (fun _ => none) (history.map Prod.snd) = before ++ o :: after →
        ∃ n j', run (.journal j₀) (history.take n) = .journal j' ∧
          j'.device = j.device.take (extent before) ∧ j'.cells.get? = contents before ∧
          j'.sequence = .ofNat before.length ∧
          ∀ front s t back : Text, j.device = front ++ s ++ back →
            extent before + Entry.headerLength ≤ front.length →
            front.length + s.length ≤ extent before + o.length →
            t.length = s.length → s.length ≤ 4 → t ≠ s →
            ∀ (path : Text) (time : UInt64) (d : Disk),
              (d.locate path.untilNul).fileBytes = .ok (front ++ t ++ back) →
              ∃ r, (openedOnDisk path time).on d = (d.write path.untilNul j'.device, .ok r) ∧
                r.isOpen = true ∧ r.device = j'.device ∧ r.cells = j'.cells ∧
                (before.length < 2 ^ 64 → r.sequence = j'.sequence) := by
  refine ⟨fun before s t after => Checksum.crc32_ne_of_window, ?_⟩
  have hj₀ := holds_replay_nil path time
  obtain ⟨j, -, hj, -, -⟩ := hj₀.run .nil history
  refine ⟨_, _, j, on_openedOnDisk time hempty, hj, fun before o after hsplit => ?_⟩
  obtain ⟨n, j', es, e, es', hj', hes, hall, hbefore, he, -⟩ := exists_split hj₀ hj hsplit
  have hextent := length_flatMap_bytes hbefore
  refine ⟨n, j', hj', ?_, hes.get?_eq hbefore, hbefore.length_eq ▸ hes.sequence, ?_⟩
  · rw [hes.device, hall.device, List.flatMap_append, ← hextent, List.take_left]
  · intro front s t back hdevice hlow hhigh hlength hwindow hne path time d hd
    obtain ⟨first, last, hbody, rfl, rfl⟩ := hall.exists_body hbefore he hdevice hlow hhigh
    have hchecksum : Checksum.crc32 (first ++ t ++ last) ≠ Checksum.crc32 e.body :=
      hbody ▸ Checksum.crc32_ne_of_window hlength hwindow hne
    have hsize : (first ++ t ++ last).length = e.body.length := by
      simp [hbody, hlength]
    have htail := Entry.read?_of_checksum (hall.fits e (by simp)) hsize hchecksum
      (es'.flatMap Entry.bytes)
    have hfile : es.flatMap Entry.bytes ++ (e.header ++ first) ++ t ++
        (last ++ es'.flatMap Entry.bytes) =
        j'.device ++ (e.header ++ (first ++ t ++ last) ++ es'.flatMap Entry.bytes) := by
      simp only [hes.device, List.append_assoc]
    rw [hfile] at hd
    obtain ⟨hkept, hcells, hsequence⟩ := hes.replay_append htail path time
    refine ⟨_, (on_openedOnDisk time hd).trans (by rw [hkept]), rfl, hkept, hcells, ?_⟩
    rwa [← hbefore.length_eq] at hsequence

/-- Two changed bytes in the digest of the second of two entries leave the journal of the first one. -/
theorem opens_damaged_data_digest :
    let id : Digest := ⟨List.replicate 32 7, rfl⟩
    let other : Digest := ⟨List.replicate 32 8, rfl⟩
    let f : Fact := ⟨.named "a", "p", .string [226, 82, 187, 74]⟩
    let g : Fact := ⟨.named "a", "p", .boolean true⟩
    let history : List (UInt64 × Change) := [(5, .put id f), (6, .put other g)]
    Checksum.crc32 [1, 2, 3, 4, 5, 6] ≠ Checksum.crc32 [1, 9, 3, 4, 9, 6] ∧
    ∃ j₀ j r, ((openedOnDisk "log" 4).on {}).2 = .ok j₀ ∧ run (.journal j₀) history = .journal j ∧
      j.device = j.device.take 140 ++ [8, 8, 8, 8] ++ j.device.drop 144 ∧
      ((openedOnDisk "log" 9).on (({} : Disk).write "log"
        (j.device.take 140 ++ [9, 8, 8, 7] ++ j.device.drop 144))).2 = .ok r ∧
      r.device = j.device.take 86 ∧ r.sequence = 1 ∧
      r.cells.get? id = some (Encoding.factBytes f) ∧ r.cells.get? other = none := by
  intro id other f g history
  have hplace : (({} : Disk).locate (Text.untilNul "log")).fileBytes = .ok [] := by decide +kernel
  obtain ⟨hchecksums, d₀, j₀, j, hopened, hrun, hsplits⟩ :=
    @opens_damaged_data "log" 4 {} hplace history
  obtain rfl : j₀ = replay "log" 4 [] := eq_replay_of_opened hplace hopened
  have hops : operations (fun _ => none) (history.map Prod.snd) =
      [.put id (Encoding.factBytes f)] ++ .put other (Encoding.factBytes g) :: [] := rfl
  have hvalue : passes (fun j => decide
      (j.device.length = 165 ∧ (j.device.drop 140).take 4 = [8, 8, 8, 8]))
      (run (.journal (replay "log" 4 [])) history) = true := by
    decide +kernel
  rw [hrun] at hvalue
  obtain ⟨hlength, hwindow⟩ := of_decide_eq_true hvalue
  have hdevice : j.device = j.device.take 140 ++ [8, 8, 8, 8] ++ j.device.drop 144 := by
    rw [← hwindow, List.append_assoc, show 144 = 140 + 4 from rfl, ← List.drop_drop,
      List.take_append_drop, List.take_append_drop]
  obtain ⟨n, j', hj', hfile, htexts, hnumber, hdamaged⟩ := hsplits _ _ _ hops
  -- The entries take 86 and 79 bytes.
  have hstart : extent [.put id (Encoding.factBytes f)] = 86 := by decide +kernel
  have hlong : (Operation.put other (Encoding.factBytes g)).length = 79 := by decide +kernel
  have hfront : (j.device.take 140).length = 140 := List.length_take_of_le (by omega)
  have hheader : Entry.headerLength = 32 := rfl
  rw [hstart] at hfile
  obtain ⟨r, hr, -, hkept, hcells, hsequence⟩ := hdamaged (j.device.take 140) [8, 8, 8, 8]
    [9, 8, 8, 7] (j.device.drop 144) hdevice (by omega)
    (by rw [hfront, hstart, hlong]; decide) rfl (by decide) (by decide) "log" 9 _
    (fileBytes_write_log _)
  refine ⟨?_, _, j, r, congrArg Prod.snd hopened, hrun, hdevice, congrArg Prod.snd hr,
    hkept.trans hfile, ?_, ?_, ?_⟩
  · exact hchecksums [1] [2, 3, 4, 5] [9, 3, 4, 9] [6] rfl (by decide) (by decide)
  · rw [hsequence (by decide), hnumber]
    rfl
  · rw [hcells, htexts]
    decide +kernel
  · rw [hcells, htexts]
    decide +kernel

end Journal
end FactGraph
