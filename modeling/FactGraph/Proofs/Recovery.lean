import Mathlib
import FactGraph.Proofs.Journal
import FactGraph.Proofs.Storage
import FactGraph.Storage.Kind

/-!
# Journals that were cut short

A history of changes leaves an entry in the file of a journal for every change that was made: for
every text that was put and for every cell that was taken away, but not for a fact over the limit
and not for a digest without a cell. Whatever number of bytes of the file is left, the journal that
is opened on them has the cells and the number that it had behind the last change whose entry is
whole, and the file is cut off there.
-/

namespace FactGraph

/-! ## Cells as a map -/

namespace Cells

theorem get?_put (c : Cells) (id : Digest) (t : Text) :
    (c.put id t).get? = Function.update c.get? id (some t) :=
  get?_eq_update fun e => by rw [mem_put, Prod.ext_iff, Option.some.injEq, eq_comm (b := t)]

theorem get?_erase (c : Cells) (id : Digest) :
    (c.erase id).get? = Function.update c.get? id none :=
  get?_eq_update fun e => by simp [mem_erase]

end Cells

/-! ## Work on disks -/

theorem DiskWork.on_bind_of_ok {α β : Type} {work : DiskWork α} {f : α → DiskWork β} {d d' : Disk}
    {a : α} (h : work.on d = (d', .ok a)) : on (work >>= f) d = (f a).on d' := by
  rw [on] at h ⊢
  rw [run_bind]
  rcases hrun : StateT.run work.run d with ⟨r, d''⟩
  rw [hrun] at h
  cases h
  rfl

namespace Journal

/-! ## Changes and what comes of them -/

/-- What can be asked of a storage to change its cells. -/
inductive Change where
  /-- To give a fact to a digest. -/
  | put (id : Digest) (f : Fact)
  /-- To take away the cell of a digest. -/
  | erase (id : Digest)

/-- The storage after a change; one that is refused leaves it as it is. -/
def Change.perform (s : Storage) : Change → Storage
  | put id f => (s.put id f).toOption.getD s
  | erase id => ((s.erase id).map Prod.fst).toOption.getD s

/-- The time that a storage writes into its entries from now on. -/
def setTime (time : UInt64) : Storage → Storage
  | .journal j => .journal { j with time }
  | s => s

/-- The storage after changes, each of them at its time. -/
def run (s : Storage) (history : List (UInt64 × Change)) : Storage :=
  history.foldl (fun s step => step.2.perform (setTime step.1 s)) s

/-- Whether a storage is a journal that passes a test. -/
def passes (test : Journal → Bool) : Storage → Bool
  | .journal j => test j
  | _ => false

/-- A change that was made. -/
inductive Operation where
  /-- A text was put. -/
  | put (id : Digest) (t : Text)
  /-- A cell was taken away. -/
  | erase (id : Digest)

/-- What an operation does to a map from digests to texts. -/
def Operation.apply (m : Digest → Option Text) : Operation → Digest → Option Text
  | put id t => Function.update m id (some t)
  | erase id => Function.update m id none

/-- The number of bytes that an operation takes in the file. -/
def Operation.length : Operation → Nat
  | put _ t => 64 + t.length
  | erase _ => 64

/-- The texts by digest after operations. -/
def contents (ops : List Operation) : Digest → Option Text :=
  ops.foldl Operation.apply fun _ => none

/-- The number of bytes that operations take in the file. -/
def extent (ops : List Operation) : Nat := (ops.map Operation.length).sum

/-- The operation that comes of a change, if any: every fact within the limit is put, and a digest
is erased if it has a text. -/
def Change.operation? (m : Digest → Option Text) : Change → Option Operation
  | put id f => (Encoding.encode f).toOption.map (.put id)
  | erase id => if (m id).isSome then some (.erase id) else none

/-- The operations that come of changes, one after the other. -/
def operations (m : Digest → Option Text) : List Change → List Operation
  | [] => []
  | c :: cs =>
    let made := (c.operation? m).toList
    made ++ operations (made.foldl Operation.apply m) cs

theorem contents_append (ops others : List Operation) :
    contents (ops ++ others) = others.foldl Operation.apply (contents ops) := by
  rw [contents, List.foldl_append, ← contents]

/-! ## Entries of operations -/

/-- The operation that an entry records, if it is one that is known. -/
def Entry.recorded? (e : Entry) : Option Operation :=
  if e.operation = Entry.putOperation then some (.put e.id e.payload)
  else if e.operation = Entry.eraseOperation then some (.erase e.id)
  else none

theorem Entry.get?_apply (c : Cells) (e : Entry) :
    (e.apply c).get? = e.recorded?.toList.foldl Operation.apply c.get? := by
  rw [Entry.apply, Entry.recorded?]
  simp only [beq_iff_eq]
  split
  · exact Cells.get?_put ..
  · split
    · exact Cells.get?_erase ..
    · rfl

/-- Entries leave the texts that the operations leave which they record. -/
theorem get?_foldl_recorded (es : List Entry) (c : Cells) :
    (es.foldl Entry.apply c).get? =
      (es.filterMap Entry.recorded?).foldl Operation.apply c.get? := by
  induction es generalizing c with
  | nil => rfl
  | cons e es ih =>
    rw [List.foldl_cons, ih, Entry.get?_apply, List.filterMap_cons]
    cases e.recorded? <;> rfl

/-- Whether an entry records an operation. -/
def Operation.Recorded : Operation → Entry → Prop
  | put id t, e => e.operation = Entry.putOperation ∧ e.id = id ∧ e.payload = t
  | erase id, e => e.operation = Entry.eraseOperation ∧ e.id = id ∧ e.payload = []

variable {o : Operation} {ops : List Operation} {e : Entry} {es : List Entry} {j : Journal}

theorem Operation.Recorded.recorded? (h : o.Recorded e) : e.recorded? = some o := by
  cases o with
  | put id t =>
    obtain ⟨hop, rfl, rfl⟩ := h
    rw [Entry.recorded?, if_pos hop]
  | erase id =>
    obtain ⟨hop, rfl, -⟩ := h
    rw [Entry.recorded?, if_neg (by rw [hop]; decide), if_pos hop]

theorem Operation.Recorded.length_bytes (h : o.Recorded e) : e.bytes.length = o.length := by
  rw [Entry.length_bytes, Entry.length_body]
  cases o with
  | put id t =>
    obtain ⟨-, -, rfl⟩ := h
    have : Entry.headerLength = 32 := rfl
    rw [Operation.length]
    omega
  | erase id =>
    obtain ⟨-, -, h⟩ := h
    rw [h]
    rfl

/-- The entries of operations have their length. -/
theorem length_flatMap_bytes (h : List.Forall₂ Operation.Recorded ops es) :
    (es.flatMap Entry.bytes).length = extent ops := by
  induction h with
  | nil => rfl
  | cons hrecorded _ ih =>
    rw [List.flatMap_cons, List.length_append, ih, hrecorded.length_bytes]
    rfl

theorem filterMap_recorded? (h : List.Forall₂ Operation.Recorded ops es) :
    es.filterMap Entry.recorded? = ops := by
  induction h with
  | nil => rfl
  | cons hrecorded _ ih => rw [List.filterMap_cons, hrecorded.recorded?, ih]

/-- Applying the entries of operations gives the texts after them. -/
theorem get?_foldl_apply (h : List.Forall₂ Operation.Recorded ops es) (c : Cells) :
    (es.foldl Entry.apply c).get? = ops.foldl Operation.apply c.get? := by
  rw [get?_foldl_recorded, filterMap_recorded? h]

/-! ## Numbers -/

/-- Whether entries are numbered from one. -/
def Numbered (es : List Entry) : Prop :=
  es.map Entry.sequence = (List.range es.length).map fun i => UInt64.ofNat (i + 1)

theorem Numbered.take (h : Numbered es) (k : Nat) : Numbered (es.take k) := by
  rw [Numbered, List.map_take, h, ← List.map_take, List.take_range, List.length_take]

/-- The greatest number of numbered entries is how many there are. -/
theorem Numbered.greatest (h : Numbered es) (hcount : es.length < 2 ^ 64) :
    es.foldl (fun n e => max n e.sequence) 0 = UInt64.ofNat es.length := by
  rw [← List.foldl_map (f := Entry.sequence) (g := max), h]
  generalize es.length = count at hcount
  induction count with
  | zero => rfl
  | succ count ih =>
    have hsize : UInt64.size = 2 ^ 64 := rfl
    have hle : UInt64.ofNat count ≤ UInt64.ofNat (count + 1) := by
      rw [UInt64.le_iff_toNat_le, UInt64.toNat_ofNat_of_lt' (by omega),
        UInt64.toNat_ofNat_of_lt' (by omega)]
      omega
    rw [List.range_succ, List.map_append, List.foldl_append, ih (by omega)]
    exact if_pos hle

/-! ## Journals and their entries -/

/-- Whether a journal that is open has written entries, from the first one on. -/
structure Holds (j : Journal) (es : List Entry) : Prop where
  isOpen : j.isOpen = true
  device : j.device = es.flatMap Entry.bytes
  cells : j.cells = es.foldl Entry.apply .empty
  sequence : j.sequence = UInt64.ofNat es.length
  numbered : Numbered es
  fits : ∀ e ∈ es, e.Fits

theorem holds_replay_nil (path : Text) (time : UInt64) : (replay path time []).Holds [] where
  isOpen := rfl
  device := rfl
  cells := rfl
  sequence := rfl
  numbered := rfl
  fits := by simp

/-! ## Entries behind others -/

/-- Whether a journal that is open is another one with entries written behind it, one for each
change and numbered one after the other. -/
structure Extends (j : Journal) (es : List Entry) (j' : Journal) : Prop where
  /-- The journal can be used. -/
  isOpen : j'.isOpen = true
  /-- The entries stand behind the others. -/
  device : j'.device = j.device ++ es.flatMap Entry.bytes
  /-- The entries are applied to the cells. -/
  cells : j'.cells = es.foldl Entry.apply j.cells
  /-- The last number is as much higher as there are entries. -/
  sequence : j'.sequence = j.sequence + UInt64.ofNat es.length
  /-- The entries have the numbers in between. -/
  numbers : es.map Entry.sequence =
    (List.range es.length).map fun i => j.sequence + UInt64.ofNat (i + 1)
  /-- The lengths of the entries can be written. -/
  fits : ∀ e ∈ es, e.Fits

variable {j' : Journal} {new : List Entry}

theorem Extends.refl (h : j.isOpen = true) : j.Extends [] j :=
  ⟨h, by simp, rfl, by simp, rfl, by simp⟩

theorem Extends.setTime (h : j.Extends es j') (time : UInt64) : j.Extends es { j' with time } :=
  ⟨h.isOpen, h.device, h.cells, h.sequence, h.numbers, h.fits⟩

/-- The next entry is written behind the others. -/
theorem Extends.append (h : j.Extends es j') {operation : UInt8} {id : Digest} {t : Text}
    (hfits : t.length < 256 ^ 4 - 64) : j.Extends (es ++ [j'.nextEntry operation id t])
      (j'.append (j'.nextEntry operation id t)) := by
  have hnumber : (j'.nextEntry operation id t).sequence =
      j.sequence + UInt64.ofNat (es.length + 1) := by
    rw [nextEntry, h.sequence, UInt64.ofNat_add, UInt64.add_assoc]
    rfl
  refine ⟨h.isOpen, ?_, ?_, ?_, ?_, ?_⟩
  · rw [device_append, h.device, List.flatMap_append, List.flatMap_singleton, List.append_assoc]
  · rw [List.foldl_append, ← h.cells]
    rfl
  · rw [List.length_append, List.length_singleton, ← hnumber]
    rfl
  · rw [List.map_append, h.numbers, List.length_append, List.length_singleton, List.range_succ,
      List.map_append, List.map_singleton, List.map_singleton, hnumber]
  · intro e he
    rcases List.mem_append.1 he with he | he
    · exact h.fits e he
    · rw [List.mem_singleton.1 he, Entry.Fits, Entry.length_body]
      have : Entry.headerLength = 32 := rfl
      simp only [nextEntry]
      omega

/-- A change writes the entry of the operation that comes of it, or nothing. -/
theorem Extends.perform (h : j.Extends es j') (c : Change) : ∃ j₁ made,
    c.perform (.journal j') = .journal j₁ ∧ j.Extends (es ++ made) j₁ ∧
      List.Forall₂ Operation.Recorded (c.operation? j'.cells.get?).toList made := by
  have hopen : (Storage.journal j').check = .ok () := Storage.check_eq_ok.2 h.isOpen
  cases c with
  | put id f =>
    cases hencode : Encoding.encode f with
    | error reason =>
      refine ⟨j', [], ?_, by rwa [List.append_nil], ?_⟩
      · simp [Change.perform, Storage.put, hencode, bind, Except.bind, Except.toOption]
      · simp [Change.operation?, hencode, Except.toOption]
    | ok bytes =>
      obtain ⟨hlimit, rfl⟩ := Encoding.encode_eq_ok.1 hencode
      refine ⟨j'.put id (Encoding.factBytes f), _, ?_,
        h.append (Encoding.length_factBytes_lt hlimit), ?_⟩
      · simp [Change.perform, Storage.put, hencode, hopen, Storage.checkPut, Storage.putBytes, bind,
          Except.bind, pure, Except.pure, Except.toOption]
      · simp only [Change.operation?, hencode, Except.toOption, Option.map_some, Option.toList_some]
        exact .cons ⟨rfl, rfl, rfl⟩ .nil
  | erase id =>
    have hperform : (Change.erase id).perform (.journal j') = .journal (j'.erase id) := by
      simp [Change.perform, Storage.erase, hopen, Storage.checkErase, Storage.eraseBytes, bind,
        Except.bind, pure, Except.pure, Except.map, Except.toOption]
    rw [hperform, Journal.erase, Cells.has]
    by_cases hid : (j'.cells.get? id).isSome
    · refine ⟨_, _, by rw [if_pos hid], h.append (t := []) (by decide), ?_⟩
      simp only [Change.operation?, hid, if_true, Option.toList_some]
      exact .cons ⟨rfl, rfl, rfl⟩ .nil
    · refine ⟨j', [], by rw [if_neg hid], by rwa [List.append_nil], ?_⟩
      simp [Change.operation?, hid]

/-- A history writes the entries of the operations that come of it. -/
theorem Extends.run (h : j.Extends es j') (history : List (UInt64 × Change)) : ∃ j₁ made,
    Journal.run (.journal j') history = .journal j₁ ∧ j.Extends (es ++ made) j₁ ∧
      List.Forall₂ Operation.Recorded
        (operations j'.cells.get? (history.map Prod.snd)) made := by
  induction history generalizing j' es with
  | nil => exact ⟨j', [], rfl, by rwa [List.append_nil], .nil⟩
  | cons step history ih =>
    obtain ⟨j₁, made, hj₁, h₁, hmade⟩ := (h.setTime step.1).perform step.2
    obtain ⟨j₂, more, hj₂, h₂, hmore⟩ := ih h₁
    have hcells : j₁.cells.get? =
        (step.2.operation? j'.cells.get?).toList.foldl Operation.apply j'.cells.get? := by
      rw [h₁.cells, List.foldl_append, ← h.cells]
      exact get?_foldl_apply hmade j'.cells
    refine ⟨j₂, made ++ more, ?_, by rwa [← List.append_assoc], ?_⟩
    · rw [← hj₂, ← hj₁]
      rfl
    · rw [hcells] at hmore
      exact List.rel_append hmade hmore

/-- Entries that are written behind numbered ones are numbered on. -/
theorem Extends.numbered (h : j.Extends new j') (hes : Numbered es)
    (hcount : j.sequence = UInt64.ofNat es.length) : Numbered (es ++ new) := by
  rw [Numbered, List.map_append, hes, h.numbers, List.length_append, List.range_add,
    List.map_append, List.map_map]
  congr 1
  refine List.map_congr_left fun i _ => ?_
  rw [hcount, ← UInt64.ofNat_add]
  rfl

/-- What a history writes behind entries is held with them. -/
theorem Holds.extend (h : j.Holds es) (hnew : j.Extends new j') : j'.Holds (es ++ new) where
  isOpen := hnew.isOpen
  device := by rw [hnew.device, h.device, List.flatMap_append]
  cells := by rw [hnew.cells, h.cells, List.foldl_append]
  sequence := by rw [hnew.sequence, h.sequence, List.length_append, UInt64.ofNat_add]
  numbered := hnew.numbered h.numbered h.sequence
  fits := fun e he => (List.mem_append.1 he).elim (h.fits e) (hnew.fits e)

/-- The journal that is opened on what is left of a file holds the entries that are whole. -/
theorem Holds.replay_take (h : j.Holds es) (path : Text) (time : UInt64) (n : Nat) :
    ∃ k, IsGreatest {k | k ≤ es.length ∧ ((es.take k).flatMap Entry.bytes).length ≤ n} k ∧
      (replay path time (j.device.take n)).device = (es.take k).flatMap Entry.bytes ∧
      (replay path time (j.device.take n)).cells = (es.take k).foldl Entry.apply .empty ∧
      (k < 2 ^ 64 → (replay path time (j.device.take n)).sequence = UInt64.ofNat k) := by
  obtain ⟨k, tail, htake, htail, hk⟩ := Entry.exists_take_flatMap h.fits n
  have hfits : ∀ e ∈ es.take k, e.Fits := fun e he => h.fits e (List.mem_of_mem_take he)
  have hread := Entry.readAll_flatMap hfits htail
  have hlength : (es.take k).length = k := by
    rw [List.length_take]
    exact Nat.min_eq_left hk.1.1
  rw [h.device, htake]
  refine ⟨k, hk, ?_, ?_, ?_⟩
  · simp only [replay, hread, Journal.device, List.length_append, Nat.add_sub_cancel,
      List.take_left, List.reverse_singleton, List.flatten_singleton]
  · simp only [replay, hread]
  · intro hcount
    simp only [replay, hread]
    rw [(h.numbered.take k).greatest (by omega), hlength]

/-! ## Histories -/

theorem Holds.get?_eq (h : j.Holds es) (hops : List.Forall₂ Operation.Recorded ops es) :
    j.cells.get? = contents ops := by
  rw [h.cells, get?_foldl_apply hops]
  rfl

/-- A history writes the entries of the operations that come of it. -/
theorem Holds.run (h : j.Holds es) (hops : List.Forall₂ Operation.Recorded ops es)
    (history : List (UInt64 × Change)) : ∃ j' es', Journal.run (.journal j) history = .journal j' ∧
      j'.Holds es' ∧ List.Forall₂ Operation.Recorded
        (ops ++ operations (contents ops) (history.map Prod.snd)) es' := by
  obtain ⟨j', new, hj', hnew, hmade⟩ := (Extends.refl h.isOpen).run history
  rw [h.get?_eq hops] at hmade
  exact ⟨j', es ++ new, hj', h.extend hnew, List.rel_append hops hmade⟩

theorem on_openedOnDisk {d : Disk} {path bytes : Text} (time : UInt64)
    (h : (d.locate path.untilNul).fileBytes = .ok bytes) :
    (openedOnDisk path time).on d = (d.write path.untilNul (replay path time bytes).device,
      .ok (replay path time bytes)) := by
  have hget : DiskWork.on get d = (d, .ok d) := rfl
  have hopened : DiskWork.on (ofExcept (opened path time (d.locate path.untilNul))) d =
      (d, .ok (replay path time bytes)) := by
    rw [opened, h]
    rfl
  rw [openedOnDisk, DiskWork.on_bind_of_ok hget, DiskWork.on_bind_of_ok hopened]
  rfl

theorem eq_replay_of_opened {d d' : Disk} {path bytes : Text} {time : UInt64}
    (h : (d.locate path.untilNul).fileBytes = .ok bytes)
    (hopened : (openedOnDisk path time).on d = (d', .ok j)) : j = replay path time bytes := by
  rw [on_openedOnDisk time h] at hopened
  exact (Except.ok.inj (congrArg Prod.snd hopened)).symm

/-- A file that is written on an empty disk is found there. -/
theorem fileBytes_write_log (bytes : Text) :
    ((({} : Disk).write "log" bytes).locate (Text.untilNul "log")).fileBytes = .ok bytes := by
  cbv

/-- A journal that is opened on what is left of the file of a history has the texts and the number
that come of the operations whose entries are whole, and cuts off the rest; opened on the whole
file, it has the cells and the number of the journal that wrote it. Numbers are 64 bits long, and so
tell the operations as long as there are fewer of them. -/
theorem recovers_entries {path : Text} {time : UInt64} {d : Disk}
    (hempty : (d.locate path.untilNul).fileBytes = .ok []) (history : List (UInt64 × Change)) :
    let ops := operations (fun _ => none) (history.map Prod.snd)
    ∃ d₀ j₀ j, (openedOnDisk path time).on d = (d₀, .ok j₀) ∧
      run (.journal j₀) history = .journal j ∧ j.size = extent ops ∧
      (∀ (n : Nat) (path : Text) (time : UInt64) (d : Disk),
        (d.locate path.untilNul).fileBytes = .ok (j.device.take n) →
        ∃ k r, IsGreatest {k | k ≤ ops.length ∧ extent (ops.take k) ≤ n} k ∧
          (openedOnDisk path time).on d =
            (d.write path.untilNul (j.device.take (extent (ops.take k))), .ok r) ∧
          r.isOpen = true ∧ r.device = j.device.take (extent (ops.take k)) ∧
          r.cells.get? = contents (ops.take k) ∧ (k < 2 ^ 64 → r.sequence.toNat = k)) ∧
      ∀ (path : Text) (time : UInt64) (d : Disk),
        (d.locate path.untilNul).fileBytes = .ok j.device →
        ∃ r, (openedOnDisk path time).on d = (d.write path.untilNul j.device, .ok r) ∧
          r.isOpen = true ∧ r.device = j.device ∧ r.cells = j.cells ∧
          (ops.length < 2 ^ 64 → r.sequence = j.sequence) := by
  intro ops
  obtain ⟨j, es, hj, h, hops⟩ := (holds_replay_nil path time).run .nil history
  change List.Forall₂ Operation.Recorded ops es at hops
  have hlength : es.length = ops.length := hops.length_eq.symm
  have hextent : ∀ k, ((es.take k).flatMap Entry.bytes).length = extent (ops.take k) := fun k =>
    length_flatMap_bytes (List.forall₂_take k hops)
  have hdevice : ∀ k, j.device.take (extent (ops.take k)) = (es.take k).flatMap Entry.bytes := by
    intro k
    conv_lhs => rw [h.device, ← List.take_append_drop k es, List.flatMap_append]
    exact List.take_left' (hextent k)
  refine ⟨_, _, j, on_openedOnDisk time hempty, hj, ?_, ?_, ?_⟩
  · rw [size, h.device]
    exact length_flatMap_bytes hops
  · intro n path time d hd
    obtain ⟨k, hk, hreplay, hcells, hsequence⟩ := h.replay_take path time n
    simp only [hextent, hlength] at hk
    refine ⟨k, replay path time (j.device.take n), hk, ?_, rfl, ?_, ?_, ?_⟩
    · rw [on_openedOnDisk time hd, hreplay, hdevice]
    · rw [hreplay, hdevice]
    · rw [hcells, get?_foldl_apply (List.forall₂_take k hops)]
      rfl
    · intro hcount
      rw [hsequence hcount, UInt64.toNat_ofNat_of_lt' hcount]
  · intro path time d hd
    obtain ⟨k, hk, hreplay, hcells, hsequence⟩ := h.replay_take path time j.device.length
    have hall : k = es.length :=
      Nat.le_antisymm hk.1.1 (hk.2 ⟨Nat.le_refl _, by rw [List.take_length, h.device]⟩)
    rw [List.take_length] at hreplay hcells hsequence
    rw [hall, List.take_length] at hreplay hcells
    rw [hall] at hsequence
    refine ⟨replay path time j.device, ?_, rfl, ?_, ?_, ?_⟩
    · rw [on_openedOnDisk time hd, hreplay, h.device]
    · rw [hreplay, h.device]
    · rw [hcells, h.cells]
    · intro hcount
      rw [hsequence (by omega), h.sequence]

/-- A text that was put is kept where the entry that takes it away is not whole. -/
theorem recovers_entries_torn :
    let f : Fact := ⟨.named "a", "p", .boolean true⟩
    let id : Digest := ⟨List.replicate 32 7, rfl⟩
    ∃ j r, run (.journal (replay "log" 4 [])) [(5, .put id f), (6, .erase id)] = .journal j ∧
      ((openedOnDisk "log" 9).on (({} : Disk).write "log" (j.device.take 100))).2 = .ok r ∧
      r.size = 79 ∧ r.cells.get? id = some (Encoding.factBytes f) ∧ r.sequence.toNat = 1 := by
  intro f id
  have hplace : (({} : Disk).locate (Text.untilNul "log")).fileBytes = .ok [] := by decide +kernel
  obtain ⟨d₀, j₀, j, hopened, hrun, hsize, hcut, -⟩ :=
    recovers_entries hplace [(5, .put id f), (6, .erase id)]
  have hj₀ : j₀ = replay "log" 4 [] := by
    rw [on_openedOnDisk 4 hplace] at hopened
    exact (Except.ok.inj (congrArg Prod.snd hopened)).symm
  subst hj₀
  have hfile : ((({} : Disk).write "log" (j.device.take 100)).locate
      (Text.untilNul "log")).fileBytes = .ok (j.device.take 100) := by
    cbv
  obtain ⟨k, r, ⟨⟨hle, hfit⟩, hgreatest⟩, hr, -, hdevice, hcells, hsequence⟩ :=
    hcut 100 "log" 9 _ hfile
  -- The entries take 79 and 64 bytes.
  have hk : k = 1 := by
    have hlow : 1 ≤ k := hgreatest ⟨by decide +kernel, by decide +kernel⟩
    have hhigh : k ≤ 2 := hle
    have hne : k ≠ 2 := by
      rintro rfl
      exact absurd hfit (by decide +kernel)
    omega
  subst hk
  refine ⟨j, r, hrun, congrArg Prod.snd hr, ?_, ?_, hsequence (by decide)⟩
  · have hwritten : j.device.length = 143 := hsize.trans (by decide +kernel)
    rw [size, hdevice, List.length_take, hwritten]
    decide +kernel
  · rw [hcells]
    decide +kernel

end Journal
end FactGraph
