import FactGraph.Proofs.Compaction
import FactGraph.Proofs.Interchange

/-!
# How many bytes storages take

A storage in memory takes 32 bytes and a text for each of its cells. It keeps the number of bytes of
the texts beside them (`Memory.Weighed`), and takes the length of a text off before the text goes or
another one takes its place; so it never takes off more than there is.

A journal takes the length of its file. The file is as long as what was kept of it when it was
opened, and every change that is made adds the entry of its operation, 64 bytes and the text that is
put, while calls that are refused or change nothing add nothing (`Storage.Leads`). Compaction is the
only other thing that changes the length: it leaves an entry for every cell.

A closed storage does not tell its size.
-/

namespace FactGraph

open Journal (Operation operations contents extent)

/-! ## Cells and their texts -/

namespace Cells

/-- How many bytes the texts of cells have. -/
def weight (c : Cells) : Nat := (c.items.map fun e => e.2.length).sum

variable {c c' : Cells} {id : Digest} {t : Text}

theorem weight_eq_of_get? (h : c.get? = c'.get?) : c.weight = c'.weight := by
  rw [weight, weight, ((Storage.items_perm h).map fun e => e.2.length).sum_eq]

theorem get?_renew (c : Cells) (id : Digest) (t : Text) :
    (c.renew id t).get? = Function.update c.get? id (some t) :=
  get?_eq_update fun e => by rw [mem_renew, Prod.ext_iff, Option.some.injEq, eq_comm (b := t)]

theorem weight_renew (c : Cells) (id : Digest) (t : Text) :
    (c.renew id t).weight = t.length + (c.erase id).weight := by
  rw [weight, renew, List.map_cons, List.sum_cons, weight]

theorem weight_put (c : Cells) (id : Digest) (t : Text) :
    (c.put id t).weight = t.length + (c.erase id).weight := by
  rw [← weight_renew]
  exact weight_eq_of_get? (by rw [get?_put, get?_renew])

/-- A cell that is taken away takes its text with it. -/
theorem weight_eq (c : Cells) (id : Digest) :
    c.weight = ((c.get? id).getD []).length + (c.erase id).weight := by
  cases h : c.get? id with
  | none =>
    have hsame : c.get? = (c.erase id).get? := by rw [get?_erase, ← h, Function.update_eq_self]
    rw [weight_eq_of_get? hsame, Option.getD_none, List.length_nil, Nat.zero_add]
  | some t =>
    have hsame : c.get? = (c.renew id t).get? := by rw [get?_renew, ← h, Function.update_eq_self]
    rw [weight_eq_of_get? hsame, weight_renew, Option.getD_some]

end Cells

namespace Memory

variable {m : Memory} {id : Digest} {t : Text}

/-- Whether the number of bytes that is kept beside the cells is right. -/
def Weighed (m : Memory) : Prop := m.payload = m.cells.weight

/-- No text is longer than the number of bytes from which its length is taken off. -/
theorem Weighed.length_le (h : m.Weighed) (id : Digest) :
    ((m.cells.get? id).getD []).length ≤ m.payload := by
  rw [h, m.cells.weight_eq id]
  exact Nat.le_add_right _ _

theorem Weighed.put (h : m.Weighed) (id : Digest) (t : Text) : (m.put id t).Weighed := by
  have hweight := m.cells.weight_eq id
  rw [Weighed] at h
  rw [Weighed, Memory.put, Cells.weight_put]
  dsimp only
  omega

theorem Weighed.erase (h : m.Weighed) (id : Digest) : (m.erase id).Weighed := by
  have hweight := m.cells.weight_eq id
  rw [Weighed] at h
  rw [Weighed, Memory.erase]
  dsimp only
  omega

theorem Weighed.size_eq (h : m.Weighed) :
    m.size = (m.cells.items.map fun e => 32 + e.2.length).sum := by
  rw [Weighed, Cells.weight] at h
  rw [size, h, Cells.size]
  simp [List.sum_map_add, Nat.add_comm, Nat.mul_comm]

end Memory

namespace Journal

variable {j : Journal} {id : Digest} {t : Text}

theorem size_append (j : Journal) (e : Entry) : (j.append e).size = j.size + e.bytes.length := by
  rw [size, device_append, List.length_append, size]

/-- A text that is put takes 64 bytes more than it has. -/
theorem size_put (j : Journal) (id : Digest) (t : Text) :
    (j.put id t).size = j.size + (64 + t.length) := by
  have hrecorded : (Operation.put id t).Recorded (j.nextEntry Entry.putOperation id t) :=
    ⟨rfl, rfl, rfl⟩
  rw [put, size_append, hrecorded.length_bytes, Operation.length]

/-- A digest that is erased takes 64 bytes, if it has a cell. -/
theorem size_erase (j : Journal) (id : Digest) :
    (j.erase id).size = j.size + if j.cells.has id then 64 else 0 := by
  rw [erase]
  split
  · have hrecorded : (Operation.erase id).Recorded (j.nextEntry Entry.eraseOperation id []) :=
      ⟨rfl, rfl, rfl⟩
    rw [size_append, hrecorded.length_bytes, Operation.length]
  · rfl

/-- On any file a journal can be opened, and its size is that of the longest beginning of the file
that is a row of whole entries. -/
theorem exists_opened {path file : Text} {d : Disk} (time : UInt64)
    (hfile : (d.locate path.untilNul).fileBytes = .ok file) :
    ∃ n j, IsGreatest {n | n ≤ file.length ∧ ∃ row : List Text,
        (∀ part ∈ row, Entry.Whole part) ∧ file.take n = row.flatten} n ∧
      (openedOnDisk path time).on d = (d.write path.untilNul (file.take n), .ok j) ∧
      j.isOpen = true ∧ j.size = n := by
  obtain ⟨parts, es, tail, hparts, rfl, htail⟩ := Entry.exists_row file
  obtain ⟨hcarries, hdevice, -⟩ := replay_row hparts htail path time
  refine ⟨_, _, Entry.isGreatest_row hparts htail, ?_, hcarries.isOpen,
    congrArg List.length hdevice⟩
  rw [on_openedOnDisk time hfile, hdevice, List.take_left]

end Journal

/-! ## Storages at work -/

/-- The change that a call asks for, if it asks for one. -/
def Call.change? : Call → Option Journal.Change
  | put id f => some (.put id f)
  | erase id => some (.erase id)
  | _ => none

/-- The changes that calls ask for. -/
def Call.changes (history : List (UInt64 × Call)) : List Journal.Change :=
  history.filterMap fun step => step.2.change?

namespace Storage

/-- Whether operations lead from a storage to another one, as far as sizes are concerned. -/
structure Leads (s : Storage) (ops : List Operation) (s' : Storage) : Prop where
  /-- The storage accepts changes. -/
  writable : s'.Writable
  /-- The texts are those that the operations leave. -/
  texts : s'.cells.get? = ops.foldl Operation.apply s.cells.get?
  /-- In memory, the number of bytes that is kept beside the cells stays right. -/
  memory : ∀ m, s = memory m → m.Weighed → ∃ m', s' = memory m' ∧ m'.Weighed
  /-- The file of a journal grows by the entries of the operations. -/
  journal : ∀ j, s = journal j → ∃ j', s' = journal j' ∧ j'.size = j.size + extent ops

namespace Leads

variable {s s' s'' : Storage} {ops more : List Operation} {c : Call}

theorem refl (hs : s.Writable) : Leads s [] s where
  writable := hs
  texts := rfl
  memory := fun m hm h => ⟨m, hm, h⟩
  journal := fun j hj => ⟨j, hj, rfl⟩

theorem trans (h : Leads s ops s') (h' : Leads s' more s'') : Leads s (ops ++ more) s'' where
  writable := h'.writable
  texts := by rw [h'.texts, h.texts, List.foldl_append]
  memory := by
    intro m hm hweighed
    obtain ⟨m', hm', hweighed'⟩ := h.memory m hm hweighed
    exact h'.memory m' hm' hweighed'
  journal := by
    intro j hj
    obtain ⟨j', hj', hsize⟩ := h.journal j hj
    obtain ⟨j'', hj'', hsize'⟩ := h'.journal j' hj'
    refine ⟨j'', hj'', ?_⟩
    rw [hsize', hsize, extent, extent, extent, List.map_append, List.sum_append, Nat.add_assoc]

theorem setTime (hs : s.Writable) (time : UInt64) : Leads s [] (Journal.setTime time s) where
  writable := writable_setTime hs time
  texts := cells_setTime time s ▸ rfl
  memory := by
    rintro m rfl h
    exact ⟨m, rfl, h⟩
  journal := by
    rintro j rfl
    exact ⟨_, rfl, rfl⟩

theorem putBytes (hs : s.Writable) (id : Digest) (t : Text) :
    Leads s [.put id t] (s.putBytes id t) where
  writable := hs.putBytes id t
  texts := get?_putBytes s id t
  memory := by
    rintro m rfl h
    exact ⟨_, rfl, h.put id t⟩
  journal := by
    rintro j rfl
    refine ⟨_, rfl, ?_⟩
    rw [Journal.size_put, extent, List.map_singleton, List.sum_singleton, Operation.length]

/-- Only the cell of a digest that has one is taken away. -/
theorem eraseBytes (hs : s.Writable) (id : Digest) :
    Leads s (if (s.cells.get? id).isSome then [.erase id] else []) (s.eraseBytes id) where
  writable := hs.eraseBytes id
  texts := by
    rw [get?_eraseBytes]
    split
    · rfl
    · next h =>
      rw [Bool.not_eq_true, Option.isSome_eq_false_iff, Option.isNone_iff_eq_none] at h
      rw [List.foldl_nil, ← h, Function.update_eq_self]
  memory := by
    rintro m rfl h
    exact ⟨_, rfl, h.erase id⟩
  journal := by
    rintro j rfl
    refine ⟨_, rfl, ?_⟩
    rw [Journal.size_erase, Cells.has]
    change _ = j.size + extent (if (j.cells.get? id).isSome then [.erase id] else [])
    split <;> rfl

/-- A call makes the operation of the change that it asks for, if one comes of it. -/
theorem serve (hs : s.Writable) (hc : c ≠ .close) :
    Leads s (c.change?.bind (·.operation? s.cells.get?)).toList (s.serve c).1 := by
  cases c with
  | put id f =>
    rw [Call.change?, Option.bind_some, Journal.Change.operation?]
    cases hencode : Encoding.encode f with
    | error e =>
      have hput : s.put id f = .error e := by simp [Storage.put, hencode, bind, Except.bind]
      rw [Storage.serve, hput]
      exact .refl hs
    | ok bytes =>
      obtain ⟨hf, rfl⟩ := Encoding.encode_eq_ok.1 hencode
      rw [Storage.serve, put_eq_ok.2 ⟨hf, hs.isOpen, hs.checkPut, rfl⟩]
      exact .putBytes hs id _
  | erase id =>
    rw [Storage.serve, erase_eq_ok.2 ⟨hs.isOpen, hs.checkErase id, rfl, rfl⟩]
    have herase := Leads.eraseBytes hs id
    rw [Call.change?, Option.bind_some, Journal.Change.operation?]
    split at herase
    · next h => rwa [if_pos h]
    · next h => rwa [if_neg h]
  | close => exact absurd rfl hc
  | _ => exact .refl hs

/-- Calls make the operations that come of the changes which they ask for. -/
theorem after (hs : s.Writable) {history : List (UInt64 × Call)}
    (hclose : ∀ time, (time, .close) ∉ history) :
    Leads s (operations s.cells.get? (Call.changes history)) (s.after history) := by
  induction history generalizing s with
  | nil => exact .refl hs
  | cons step history ih =>
    obtain ⟨time, c⟩ := step
    have hc : c ≠ .close := by
      rintro rfl
      exact hclose time List.mem_cons_self
    have htime := Leads.setTime hs time
    have hfirst := htime.trans (.serve htime.writable hc)
    have hrest := ih hfirst.writable fun time h => hclose time (List.mem_cons_of_mem _ h)
    rw [List.nil_append, cells_setTime] at hfirst
    rw [hfirst.texts] at hrest
    have hall := hfirst.trans hrest
    rw [Storage.after, List.foldl_cons, ← Storage.after]
    cases hchange : c.change? with
    | none =>
      have hsame : Call.changes ((time, c) :: history) = Call.changes history :=
        List.filterMap_cons_none hchange
      rwa [hchange, ← hsame] at hall
    | some change =>
      have hmore : Call.changes ((time, c) :: history) = change :: Call.changes history :=
        List.filterMap_cons_some hchange
      rw [hchange] at hall
      rwa [hmore, operations]

end Leads

variable {s : Storage} {history : List (UInt64 × Call)}

theorem size_of_closed (h : s.isOpen = false) :
    s.size = .error (.closed s.closedText) := by
  simp [Storage.size, check_of_closed h, bind, Except.bind]

/-- How many bytes a storage takes, whether or not it is open. -/
def footprint : Storage → Nat
  | memory m => m.size
  | journal j => j.size
  | table t => t.size

/-- An open storage tells its size. -/
theorem size_of_open (h : s.isOpen = true) : s.size = .ok s.footprint := by
  have hcheck : s.check = .ok () := check_eq_ok.2 h
  cases s <;> simp [Storage.size, hcheck, footprint, bind, Except.bind, pure, Except.pure]

/-- Only a table may refuse changes while it is open. -/
theorem writable_of_open (h : s.isOpen = true) (htable : ∀ t, s ≠ table t) : s.Writable := by
  have hcheck : s.check = .ok () := check_eq_ok.2 h
  cases s with
  | table t => exact absurd rfl (htable t)
  | _ => exact ⟨h, rfl, by simp [flush, hcheck, bind, Except.bind, pure, Except.pure]⟩

/-- A storage in memory stays in memory, and the number of bytes beside its cells is right at any
time. -/
theorem exists_memory_after {m : Memory} (hm : m.Weighed) (history : List (UInt64 × Call)) :
    ∃ m', (memory m).after history = memory m' ∧ m'.Weighed := by
  induction history generalizing m with
  | nil => exact ⟨m, rfl, hm⟩
  | cons step history ih =>
    obtain ⟨m', hm', hweighed⟩ : ∃ m', ((memory m).serve step.2).1 = memory m' ∧ m'.Weighed := by
      by_cases hc : step.2 = .close
      · rw [hc]
        exact ⟨_, rfl, rfl⟩
      · cases hopen : m.isOpen with
        | true =>
          have hwritable := writable_of_open (s := memory m) hopen nofun
          exact (Leads.serve hwritable hc).memory m rfl hm
        | false =>
          refine ⟨m, ?_, hm⟩
          by_cases hlimit : step.2.WithinLimit
          · obtain ⟨e, he, -⟩ := serve_of_closed (s := memory m) hopen hc hlimit
            rw [he]
          · obtain ⟨e, he, -⟩ := serve_of_not_withinLimit (memory m) hlimit
            rw [he]
    have hnext : (memory m).after (step :: history) = (memory m').after history :=
      congrArg (Storage.after · history) hm'
    rw [hnext]
    exact ih hweighed

/-! ## Uses of a journal -/

/-- What can be done with a storage that is open. -/
inductive Use where
  /-- A call. -/
  | call (c : Call)
  /-- Compaction, if the storage is a journal. -/
  | compact

/-- The storage after a use. -/
def use (s : Storage) : Use → Storage
  | .call c => (s.serve c).1
  | .compact =>
    match s with
    | journal j => if j.isOpen then journal j.compact.1 else journal j
    | s => s

/-- The storage after uses, each of them at its time. -/
def used (s : Storage) (uses : List (UInt64 × Use)) : Storage :=
  uses.foldl (fun s step => (Journal.setTime step.1 s).use step.2) s

theorem used_concat (s : Storage) (uses : List (UInt64 × Use)) (time : UInt64) (u : Use) :
    s.used (uses ++ [(time, u)]) = (Journal.setTime time (s.used uses)).use u := by
  rw [used, List.foldl_append, List.foldl_cons, List.foldl_nil, ← used]

/-- A journal stays an open journal unless it is closed. -/
theorem exists_journal_used {j : Journal} (hj : j.isOpen = true) {uses : List (UInt64 × Use)}
    (hclose : ∀ time, (time, .call .close) ∉ uses) :
    ∃ j', (journal j).used uses = journal j' ∧ j'.isOpen = true := by
  induction uses generalizing j with
  | nil => exact ⟨j, rfl, hj⟩
  | cons step uses ih =>
    obtain ⟨time, u⟩ := step
    obtain ⟨j', hj', hopen⟩ : ∃ j', (Journal.setTime time (journal j)).use u = journal j' ∧
        j'.isOpen = true := by
      cases u with
      | call c =>
        have hc : c ≠ .close := by
          rintro rfl
          exact hclose time List.mem_cons_self
        have hwritable := writable_of_open (s := journal j) hj nofun
        have hserve := Leads.serve (writable_setTime hwritable time) hc
        obtain ⟨j', hj', -⟩ := hserve.journal _ rfl
        exact ⟨j', hj', (congrArg Storage.isOpen hj').symm.trans hserve.writable.isOpen⟩
      | compact => exact ⟨_, if_pos hj, hj⟩
    obtain ⟨j'', hj'', hopen'⟩ := ih hopen fun time h => hclose time (List.mem_cons_of_mem _ h)
    exact ⟨j'', (congrArg (Storage.used · uses) hj').trans hj'', hopen'⟩

theorem isOpen_use_of_closed (hs : s.isOpen = false) (u : Use) : (s.use u).isOpen = false := by
  cases u with
  | call c => exact isOpen_serve_of_closed hs c
  | compact =>
    cases s with
    | journal j =>
      have hj : j.isOpen = false := hs
      simp [use, hj, isOpen]
    | memory m => exact hs
    | table t => exact hs

theorem isOpen_used_of_closed (hs : s.isOpen = false) (uses : List (UInt64 × Use)) :
    (s.used uses).isOpen = false := by
  induction uses generalizing s with
  | nil => exact hs
  | cons step uses ih => exact ih (isOpen_use_of_closed (by rw [isOpen_setTime, hs]) step.2)

theorem isOpen_used_of_mem {uses : List (UInt64 × Use)} {time : UInt64}
    (h : (time, .call .close) ∈ uses) (s : Storage) : (s.used uses).isOpen = false := by
  induction uses generalizing s with
  | nil => cases h
  | cons step uses ih =>
    rcases List.mem_cons.1 h with rfl | h
    · exact isOpen_used_of_closed (isOpen_close _) uses
    · exact ih h _

/-- Whether entries are the texts by digest of a map, each once. -/
def Lists (entries : List (Digest × Text)) (m : Digest → Option Text) : Prop :=
  (entries.map Prod.fst).Nodup ∧ ∀ id t, (id, t) ∈ entries ↔ m id = some t

theorem lists_items (c : Cells) : Lists c.items c.get? :=
  ⟨c.nodup_ids, fun _ _ => Cells.get?_eq_some.symm⟩

/-- In memory, the size is 32 bytes and a text for each cell. -/
theorem exists_size_memory {m : Memory} (hm : m.Weighed) (hopen : m.isOpen = true)
    (hclose : ∀ time, (time, .close) ∉ history) :
    ∃ entries,
      Lists entries ((operations m.cells.get? (Call.changes history)).foldl Operation.apply
        m.cells.get?) ∧
      ((memory m).after history).size = .ok (entries.map fun e => 32 + e.2.length).sum := by
  have hleads := Leads.after (writable_of_open (s := memory m) hopen nofun) hclose
  obtain ⟨m', hm', hweighed⟩ := hleads.memory m rfl hm
  have hopen' := hleads.writable.isOpen
  have htexts := hleads.texts
  rw [hm'] at hopen' htexts ⊢
  have hlists : Lists m'.cells.items (memory m').cells.get? := lists_items m'.cells
  rw [htexts] at hlists
  refine ⟨m'.cells.items, hlists, ?_⟩
  rw [size_of_open hopen', footprint, hweighed.size_eq]

/-- A journal grows by the entries of the operations that calls make. -/
theorem size_journal {j : Journal} (hj : j.isOpen = true)
    (hclose : ∀ time, (time, .close) ∉ history) :
    ((journal j).after history).size =
      .ok (j.size + extent (operations j.cells.get? (Call.changes history))) := by
  have hleads := Leads.after (writable_of_open (s := journal j) hj nofun) hclose
  obtain ⟨j', hj', hsize⟩ := hleads.journal j rfl
  have hopen := hleads.writable.isOpen
  rw [hj'] at hopen ⊢
  rw [size_of_open hopen, footprint, hsize]
  rfl

/-- Compaction leaves an entry for each cell. -/
theorem exists_size_compact {j j' : Journal} (hj : j.isOpen = true)
    {earlier : List (UInt64 × Use)} {time : UInt64}
    (hclose : ∀ time', (time', .call .close) ∉ earlier)
    (h : (journal j).used (earlier ++ [(time, .compact)]) = journal j') :
    ∃ entries, Lists entries ((journal j).used earlier).cells.get? ∧
      j'.size = (entries.map fun e => 64 + e.2.length).sum := by
  obtain ⟨j₁, hj₁, hopen₁⟩ := exists_journal_used hj hclose
  rw [used_concat, hj₁] at h
  have hcompact : j' = { j₁ with time }.compact.1 :=
    (Storage.journal.inj ((if_pos hopen₁).symm.trans h)).symm
  exact ⟨j₁.cells.items, hj₁ ▸ lists_items j₁.cells, by rw [hcompact, Journal.size_compact]⟩

/-- In memory, the size is 32 bytes and a text for each cell, and no text is longer than the number
of bytes from which its length is taken off. The size of a journal is that of what was kept of its
file when it was opened, or that of the entries to which it was compacted, each of them 64 bytes and
the text of a cell, and of the entries of all operations since then. Once closed, neither tells its
size. -/
theorem size_accounted {path file : Text} {time : UInt64} {d : Disk}
    (hfile : (d.locate path.untilNul).fileBytes = .ok file) :
    (∀ history : List (UInt64 × Call), ∃ m, (memory {}).after history = memory m ∧
      (∀ id t, m.cells.get? id = some t → t.length ≤ m.payload) ∧
      ((∀ time, (time, .close) ∉ history) → ∃ entries,
        Lists entries (contents (operations (fun _ => none) (Call.changes history))) ∧
        ((memory {}).after history).size = .ok (entries.map fun e => 32 + e.2.length).sum) ∧
      ((∃ time, (time, .close) ∈ history) →
        ∃ e, ((memory {}).after history).size = .error e ∧ e.kind = .unavailable)) ∧
    ∃ n j, IsGreatest {n | n ≤ file.length ∧ ∃ row : List Text,
        (∀ part ∈ row, Journal.Entry.Whole part) ∧ file.take n = row.flatten} n ∧
      (Journal.openedOnDisk path time).on d = (d.write path.untilNul (file.take n), .ok j) ∧
      ∀ (uses : List (UInt64 × Use)) (history : List (UInt64 × Call)),
        let s := (journal j).used uses
        ((∀ time, (time, .call .close) ∉ uses) → (∀ time, (time, .close) ∉ history) →
          ∃ base, (uses = [] → base = n) ∧
            (∀ earlier time, uses = earlier ++ [(time, .compact)] → ∃ entries,
              Lists entries ((journal j).used earlier).cells.get? ∧
              base = (entries.map fun e => 64 + e.2.length).sum) ∧
            s.size = .ok base ∧ (s.after history).size =
              .ok (base + extent (operations s.cells.get? (Call.changes history)))) ∧
        ((∃ time, (time, .call .close) ∈ uses ∨ (time, .close) ∈ history) →
          ∃ e, (s.after history).size = .error e ∧ e.kind = .unavailable) := by
  constructor
  · intro history
    obtain ⟨m, hm, hweighed⟩ := exists_memory_after (m := {}) rfl history
    refine ⟨m, hm, fun id t ht => ?_, exists_size_memory (m := {}) rfl rfl, ?_⟩
    · have hle := hweighed.length_le id
      rwa [ht, Option.getD_some] at hle
    · rintro ⟨time, hmem⟩
      exact ⟨_, size_of_closed (isOpen_after_of_mem hmem _), rfl⟩
  · obtain ⟨n, j, hn, hopened, hj, hkept⟩ := Journal.exists_opened time hfile
    refine ⟨n, j, hn, hopened, fun uses history => ⟨fun huses hhistory => ?_, ?_⟩⟩
    · obtain ⟨j', hj', hopen⟩ := exists_journal_used hj huses
      refine ⟨j'.size, ?_, ?_, ?_, ?_⟩
      · rintro rfl
        cases hj'
        exact hkept
      · rintro earlier time rfl
        exact exists_size_compact hj (fun time h => huses time (List.mem_append_left _ h)) hj'
      · rw [hj']
        exact size_of_open (s := journal j') hopen
      · rw [hj']
        exact size_journal hopen hhistory
    · rintro ⟨time, hmem | hmem⟩
      · exact ⟨_, size_of_closed (isOpen_after_of_closed (isOpen_used_of_mem hmem _) history), rfl⟩
      · exact ⟨_, size_of_closed (isOpen_after_of_mem hmem _), rfl⟩

/-- Behind a torn entry that is cut off, two texts are put for a digest, a digest without a cell is
erased, and then the one with a cell. -/
theorem size_accounted_torn :
    let id : Digest := ⟨List.replicate 32 7, rfl⟩
    let other : Digest := ⟨List.replicate 32 8, rfl⟩
    let f : Fact := ⟨.named "a", "p", .boolean true⟩
    let known : Journal.Entry := ⟨4, 5, Journal.Entry.putOperation, id, [2, 3]⟩
    let file : Text := known.bytes ++ [0x47, 0x4C]
    let history : List (UInt64 × Call) :=
      [(5, .put id f), (6, .put id { f with predicate := "pq" }), (7, .erase other), (8, .erase id)]
    ∃ n j, ((Journal.openedOnDisk "log" 9).on (({} : Disk).write "log" file)).2 = .ok j ∧
      (journal j).size = .ok n ∧ ((journal j).after history).size = .ok (n + (79 + 80 + 64)) := by
  intro id other f known file history
  have hfile := Journal.fileBytes_write_log file
  obtain ⟨-, n, j, -, hopened, hall⟩ := @size_accounted "log" file 9 _ hfile
  have hj := Journal.eq_replay_of_opened hfile hopened
  have hextent : extent (operations (Journal.replay "log" 9 file).cells.get?
      (Call.changes history)) = 79 + 80 + 64 := by decide +kernel
  obtain ⟨base, hbase, -, hsize, hafter⟩ := (hall [] history).1 (by simp) (by simp [history])
  have hcells : ((journal j).used []).cells = (Journal.replay "log" 9 file).cells := hj ▸ rfl
  rw [hcells, hextent, hbase rfl] at hafter
  exact ⟨n, j, congrArg Prod.snd hopened, hbase rfl ▸ hsize, hafter⟩

/-- A closed storage holds nothing and still does not say that it takes nothing. -/
theorem size_of_closed_memory :
    let s := (memory {}).after [(5, .close)]
    s.cells.items = [] ∧ s.size = .error (.closed "memory backend is closed") ∧
      s.size ≠ .ok (s.cells.items.map fun e => 32 + e.2.length).sum :=
  ⟨rfl, rfl, nofun⟩

end Storage

end FactGraph
