import FactGraph.Proofs.Recovery

/-!
# Journals on any file

A journal can be opened on any bytes. It keeps the longest beginning of them that is a row of whole
entries, which it would read again in the same way, and has the texts that the operations leave
which these entries record; an entry with an operation that is not known is kept, but does nothing.
Entries that are written from then on stand directly behind the others, so that none of them is lost
when the file is opened once more.
-/

namespace FactGraph

namespace Journal

variable {j j' : Journal} {es new : List Entry} {parts : List Text} {tail : Text}

/-- The highest number of entries. -/
def greatest (es : List Entry) : UInt64 := es.foldl (fun n e => max n e.sequence) 0

/-- Whether a journal that is open has entries in its file, whoever wrote them, and the texts that
they leave. -/
structure Carries (j : Journal) (es : List Entry) : Prop where
  /-- The journal can be used. -/
  isOpen : j.isOpen = true
  /-- The file is a row of whole entries. -/
  device : ∃ parts, List.Forall₂ Entry.Spells parts es ∧ j.device = parts.flatten
  /-- The texts are those of the operations that are recorded. -/
  texts : j.cells.get? = contents (es.filterMap Entry.recorded?)

/-! ## Opening -/

/-- A journal that is opened on a row of entries carries them, and cuts off what follows them if it
does not begin with an entry. -/
theorem replay_row (h : List.Forall₂ Entry.Spells parts es) (htail : Entry.read? tail = none)
    (path : Text) (time : UInt64) : (replay path time (parts.flatten ++ tail)).Carries es ∧
      (replay path time (parts.flatten ++ tail)).device = parts.flatten ∧
      (replay path time (parts.flatten ++ tail)).sequence = greatest es := by
  have hread : Entry.readAll (parts.flatten ++ tail) = (es, tail) := Entry.readAll_flatten h htail
  have hdevice : (replay path time (parts.flatten ++ tail)).device = parts.flatten := by
    simp only [replay, hread, Journal.device, List.length_append, Nat.add_sub_cancel, List.take_left,
      List.reverse_singleton, List.flatten_singleton]
  refine ⟨⟨rfl, ⟨parts, h, hdevice⟩, ?_⟩, hdevice, ?_⟩
  · simp only [replay, hread]
    exact get?_foldl_recorded es .empty
  · simp only [replay, hread, greatest]

/-- The file of a journal that carries entries is read again as it is. -/
theorem Carries.replay (h : j.Carries es) (path : Text) (time : UInt64) :
    (Journal.replay path time j.device).isOpen = true ∧
      (Journal.replay path time j.device).device = j.device ∧
      (Journal.replay path time j.device).cells.get? = j.cells.get? ∧
      (Journal.replay path time j.device).sequence = greatest es := by
  obtain ⟨parts, hparts, hdevice⟩ := h.device
  obtain ⟨hcarries, hfile, hsequence⟩ := replay_row hparts Entry.read?_nil path time
  rw [List.append_nil, ← hdevice] at hcarries hfile hsequence
  exact ⟨rfl, hfile, hcarries.texts.trans h.texts.symm, hsequence⟩

/-! ## Changes -/

/-- What a history writes behind entries is carried with them. -/
theorem Carries.extend (h : j.Carries es) (hnew : j.Extends new j') : j'.Carries (es ++ new) where
  isOpen := hnew.isOpen
  device := by
    obtain ⟨parts, hparts, hdevice⟩ := h.device
    refine ⟨parts ++ new.map Entry.bytes, ?_, ?_⟩
    · exact List.rel_append hparts (Entry.forall₂_spells_bytes hnew.fits)
    · rw [hnew.device, hdevice, List.flatten_append, List.flatMap_def]
  texts := by
    rw [hnew.cells, get?_foldl_recorded, h.texts, List.filterMap_append, contents_append]

/-- On any file a journal can be opened. It keeps the longest beginning of the file that is a row of
whole entries, has the texts and the number that come of these entries, and has them again when it
is opened on what it kept. Whatever history follows, a journal that is opened on the file afterwards
has the texts that come of the history where it begins with those that were kept. -/
theorem opens_any_file {path file : Text} {time : UInt64} {d : Disk}
    (hfile : (d.locate path.untilNul).fileBytes = .ok file) :
    ∃ n j es, IsGreatest {n | n ≤ file.length ∧ ∃ row : List Text,
        (∀ part ∈ row, Entry.Whole part) ∧ file.take n = row.flatten} n ∧
      (openedOnDisk path time).on d = (d.write path.untilNul (file.take n), .ok j) ∧
      j.isOpen = true ∧ j.device = file.take n ∧
      (∃ row, List.Forall₂ Entry.Spells row es ∧ file.take n = row.flatten) ∧
      j.cells.get? = contents (es.filterMap Entry.recorded?) ∧ j.sequence = greatest es ∧
      (∀ (path : Text) (time : UInt64) (d : Disk),
        (d.locate path.untilNul).fileBytes = .ok (file.take n) →
        ∃ r, (openedOnDisk path time).on d = (d.write path.untilNul (file.take n), .ok r) ∧
          r.isOpen = true ∧ r.device = file.take n ∧ r.cells.get? = j.cells.get? ∧
          r.sequence = j.sequence) ∧
      ∀ history : List (UInt64 × Change), ∃ j', run (.journal j) history = .journal j' ∧
        ∀ (path : Text) (time : UInt64) (d : Disk),
          (d.locate path.untilNul).fileBytes = .ok j'.device →
          ∃ r, (openedOnDisk path time).on d = (d.write path.untilNul j'.device, .ok r) ∧
            r.isOpen = true ∧ r.device = j'.device ∧
            r.cells.get? = (operations j.cells.get? (history.map Prod.snd)).foldl Operation.apply
              j.cells.get? := by
  obtain ⟨parts, es, tail, hparts, rfl, htail⟩ := Entry.exists_row file
  obtain ⟨hcarries, hdevice, hsequence⟩ := replay_row hparts htail path time
  have hgreatest := Entry.isGreatest_row hparts htail
  have hreopened {j : Journal} {es : List Entry} (hj : j.Carries es) (path : Text) (time : UInt64)
      (d : Disk) (hd : (d.locate path.untilNul).fileBytes = .ok j.device) :
      (openedOnDisk path time).on d =
        (d.write path.untilNul j.device, .ok (replay path time j.device)) := by
    rw [on_openedOnDisk time hd, (hj.replay path time).2.1]
  generalize hj : replay path time (parts.flatten ++ tail) = j at hcarries hdevice hsequence
  refine ⟨parts.flatten.length, j, es, hgreatest, ?_, hcarries.isOpen, ?_, ?_, hcarries.texts,
    hsequence, ?_, ?_⟩
  · rw [on_openedOnDisk time hfile, hj, hdevice, List.take_left]
  · rw [hdevice, List.take_left]
  · exact ⟨parts, hparts, List.take_left⟩
  · rw [List.take_left, ← hdevice]
    intro path time d hd
    obtain ⟨hopen, hkept, htexts, hnumber⟩ := hcarries.replay path time
    exact ⟨_, hreopened hcarries path time d hd, hopen, hkept, htexts, hnumber.trans hsequence.symm⟩
  · intro history
    obtain ⟨j', new, hrun, hnew, hmade⟩ := (Extends.refl hcarries.isOpen).run history
    have hcarries' := hcarries.extend hnew
    refine ⟨j', hrun, fun path time d hd => ?_⟩
    obtain ⟨hopen, hkept, htexts, -⟩ := hcarries'.replay path time
    refine ⟨_, hreopened hcarries' path time d hd, hopen, hkept, ?_⟩
    rw [htexts, hnew.cells]
    exact get?_foldl_apply hmade j.cells

/-- A file with an entry of an operation that is not known, which has the highest number there is, an
entry that puts a text, and bytes that are no entry. -/
theorem opens_any_file_foreign :
    let id : Digest := ⟨List.replicate 32 7, rfl⟩
    let foreign : Entry := ⟨18446744073709551615, 3, 9, id, [1]⟩
    let known : Entry := ⟨4, 5, Entry.putOperation, id, [2, 3]⟩
    let file : Text := foreign.bytes ++ known.bytes ++ [0x47, 0x4C]
    ((({} : Disk).write "log" file).locate (Text.untilNul "log")).fileBytes = .ok file ∧
      ∃ j j' r, ((openedOnDisk "log" 9).on (({} : Disk).write "log" file)).2 = .ok j ∧
        j.device = foreign.bytes ++ known.bytes ∧ j.cells.get? id = some [2, 3] ∧
        j.sequence = foreign.sequence ∧ run (.journal j) [(9, .erase id)] = .journal j' ∧
        ((openedOnDisk "log" 9).on (({} : Disk).write "log" j'.device)).2 = .ok r ∧
        r.device = j'.device ∧ r.cells.get? id = none := by
  intro id foreign known file
  have hfile := fileBytes_write_log file
  obtain ⟨n, j, es, -, hopened, -, -, -, -, -, -, hrun⟩ := @opens_any_file "log" file 9 _ hfile
  obtain ⟨j', hj', hreopened⟩ := hrun [(9, .erase id)]
  obtain ⟨r, hr, -, hkept, hleft⟩ := hreopened "log" 9 _ (fileBytes_write_log j'.device)
  have hj : j = replay "log" 9 file := eq_replay_of_opened hfile hopened
  subst hj
  refine ⟨hfile, _, j', r, congrArg Prod.snd hopened, by decide +kernel, by decide +kernel,
    by decide +kernel, hj', congrArg Prod.snd hr, hkept, ?_⟩
  rw [hleft]
  decide +kernel

end Journal
end FactGraph
