import FactGraph.Proofs.Repair

/-!
# Compaction

A compacted journal carries one entry for each of its cells, numbered from one. It has the texts
that it had, and the journal that is opened on its file has them too, whatever history follows.

The file never grows: of two entries that put a text for one digest only the later one can be that
of a cell, so that every cell has an entry of its own in the file before (`sum_items_le_extent`).
-/

namespace FactGraph

namespace Journal

variable {j j' : Journal} {es : List Entry} {e : Entry} {ops : List Operation} {part : Text}
  {id : Digest} {t : Text}

/-! ## Operations and cells -/

/-- The operations that put the texts of cells. -/
def puts (c : Cells) : List Operation := c.items.map fun e => .put e.1 e.2

theorem extent_puts (c : Cells) : extent (puts c) = (c.items.map fun e => 64 + e.2.length).sum := by
  rw [extent, puts, List.map_map]
  rfl

/-- Texts that are put for different digests come before those of a map. -/
theorem foldl_put_apply {items : List (Digest × Text)} (nodup : (items.map Prod.fst).Nodup)
    (m : Digest → Option Text) (id : Digest) :
    (items.map fun e => Operation.put e.1 e.2).foldl Operation.apply m id =
      (items.lookup id).or (m id) := by
  induction items generalizing m with
  | nil => rfl
  | cons e items ih =>
    obtain ⟨hnew, nodup⟩ := List.nodup_cons.1 nodup
    rw [List.map_cons, List.foldl_cons, ih nodup, Operation.apply, List.lookup_cons]
    by_cases hid : id = e.1
    · subst hid
      simp [lookup_eq_none_iff_not_mem.2 hnew]
    · simp [Function.update_of_ne hid, beq_eq_false_iff_ne.2 hid]

theorem contents_puts (c : Cells) : contents (puts c) = c.get? := by
  funext id
  rw [contents, puts, foldl_put_apply c.nodup_ids, Option.or_none]
  rfl

/-- A text that operations leave was put by one of them. -/
theorem mem_of_contents (h : contents ops id = some t) : .put id t ∈ ops := by
  induction ops using List.reverseRecOn with
  | nil => cases h
  | append_singleton ops o ih =>
    rw [contents_append] at h
    cases o with
    | put id' t' =>
      by_cases hid : id = id'
      · subst hid
        have ht : t' = t := by simpa [Operation.apply] using h
        simp [ht]
      · exact List.mem_append_left _ (ih (by simpa [Operation.apply, hid] using h))
    | erase id' =>
      have hid : id ≠ id' := by
        rintro rfl
        simp [Operation.apply] at h
      exact List.mem_append_left _ (ih (by simpa [Operation.apply, hid] using h))

theorem Entry.Spells.length_eq (h : Entry.Spells part e) :
    part.length = 64 + e.payload.length := by
  have hlong := h.long
  have hbody := congrArg List.length h.body
  have hheader : Entry.headerLength = 32 := rfl
  rw [List.length_drop, Entry.length_body] at hbody
  omega

/-- An entry that stands in a file can be written again. -/
theorem Entry.Spells.fits (h : Entry.Spells part e) : e.Fits := by
  have hlong := h.long
  have hbody := congrArg List.length h.body
  have hlength := Entry.numberAt_lt part 4 4
  rw [List.length_drop] at hbody
  rw [h.length] at hlength
  rw [Entry.Fits]
  omega

/-- An operation that an entry records takes no more bytes than the entry. -/
theorem Entry.Spells.length_le (h : Entry.Spells part e) :
    extent e.recorded?.toList ≤ part.length := by
  rw [h.length_eq, Entry.recorded?]
  split_ifs <;> simp [extent, Operation.length]

theorem Entry.fits_of_forall₂ {parts : List Text} (h : List.Forall₂ Entry.Spells parts es) :
    ∀ e ∈ es, e.Fits := by
  induction h with
  | nil => simp
  | cons hpart _ ih => exact List.forall_mem_cons.2 ⟨hpart.fits, ih⟩

/-! ## Snapshots -/

theorem recorded_snapshot (j : Journal) :
    List.Forall₂ Operation.Recorded (puts j.cells) j.snapshot := by
  rw [puts, snapshot, List.forall₂_map_left_iff, List.forall₂_map_right_iff]
  generalize j.cells.items = items, 0 = n
  induction items generalizing n with
  | nil => exact .nil
  | cons e items ih => exact .cons ⟨rfl, rfl, rfl⟩ (ih (n + 1))

/-- The entry of a text that an entry of the file put can be written. -/
theorem Carries.fits_snapshot (h : j.Carries es) : ∀ e ∈ j.snapshot, e.Fits := by
  intro e he
  obtain ⟨parts, hparts, -⟩ := h.device
  rw [snapshot, List.mem_map] at he
  obtain ⟨⟨⟨id, t⟩, i⟩, hitem, rfl⟩ := he
  have hcell : (id, t) ∈ j.cells.items := List.fst_mem_of_mem_zipIdx hitem
  have hput : .put id t ∈ es.filterMap Entry.recorded? := by
    apply mem_of_contents
    rw [← h.texts, Cells.get?_eq_some]
    exact hcell
  obtain ⟨e', he', hrecorded⟩ := List.mem_filterMap.1 hput
  have hfits := Entry.fits_of_forall₂ hparts e' he'
  have hpayload : e'.payload = t := by
    rw [Entry.recorded?] at hrecorded
    split_ifs at hrecorded
    · exact (Operation.put.inj (Option.some.inj hrecorded)).2
    · cases hrecorded
  rw [Entry.Fits, Entry.length_body, hpayload] at hfits
  rwa [Entry.Fits, Entry.length_body]

theorem Carries.setTime (h : j.Carries es) (time : UInt64) : { j with time }.Carries es :=
  ⟨h.isOpen, h.device, h.texts⟩

/-- A compacted journal carries the entries of its cells. -/
theorem Carries.compact (h : j.Carries es) : j.compact.1.Carries j.snapshot where
  isOpen := h.isOpen
  device := by
    refine ⟨j.snapshot.map Entry.bytes, Entry.forall₂_spells_bytes h.fits_snapshot, ?_⟩
    rw [Journal.compact, Journal.device, List.reverse_singleton, List.flatten_singleton,
      List.flatMap_def]
  texts := by
    rw [filterMap_recorded? (recorded_snapshot j), contents_puts]
    rfl

theorem size_compact (j : Journal) :
    j.compact.1.size = (j.cells.items.map fun e => 64 + e.2.length).sum := by
  rw [← extent_puts, ← length_flatMap_bytes (recorded_snapshot j), Journal.size, Journal.device,
    Journal.compact, List.reverse_singleton, List.flatten_singleton]

end Journal
end FactGraph
