import FactGraph.Proofs.Recovery
import FactGraph.Proofs.Refinement

/-!
# Storages of all kinds answer alike

What a storage answers depends on the texts of its cells and on whether it is open, but not on what
it is made of. Two storages that have the same texts, or are both closed, are alike
(`Storage.Alike`); they give the same answer to every call, up to the order of a listing and the
wording of an error, and are alike afterwards (`Storage.Alike.serve`). So no run of calls tells
storages apart that begin without cells.

A fact over the limit is refused by every storage before anything else is looked at. For that
reason a closed storage does not say that it is closed when it is given such a fact.
-/

namespace FactGraph

/-! ## Calls and answers -/

/-- What can be asked of a storage. -/
inductive Call where
  /-- To give a fact to a digest. -/
  | put (id : Digest) (f : Fact)
  /-- To look up the fact of a digest. -/
  | get (id : Digest)
  /-- To take away the cell of a digest. -/
  | erase (id : Digest)
  /-- To tell whether a digest has a cell. -/
  | has (id : Digest)
  /-- To list all facts. -/
  | facts
  /-- To count the cells. -/
  | count
  /-- To make sure that all changes are kept. -/
  | flush
  /-- To end the use of the storage. -/
  | close

/-- Whether a call puts nothing over the limit. -/
def Call.WithinLimit : Call → Prop
  | put _ f => f.WithinLimit
  | _ => True

/-- Whether two answers are the same, where facts may be listed in any order. -/
def Answer.Same : Answer → Answer → Prop
  | facts l, facts l' => l.Perm l'
  | a, b => a = b

theorem Answer.Same.refl (a : Answer) : a.Same a := by
  cases a with
  | facts l => exact List.Perm.refl l
  | _ => rfl

/-- Whether two calls came to the same: to the same answer, or to errors of one kind. -/
def SameOutcome : Except StoreError Answer → Except StoreError Answer → Prop
  | .ok a, .ok b => a.Same b
  | .error e, .error e' => e.kind = e'.kind
  | _, _ => False

theorem SameOutcome.refl (r : Except StoreError Answer) : SameOutcome r r := by
  cases r with
  | ok a => exact Answer.Same.refl a
  | error e => rfl

namespace Storage

/-- The storage after a change with its answer. A change that fails leaves the storage as it was. -/
def settle {α : Type} (s : Storage) (change : Except StoreError (Storage × α))
    (answer : α → Answer) : Storage × Except StoreError Answer :=
  match change with
  | .ok (s, a) => (s, .ok (answer a))
  | .error e => (s, .error e)

/-- What a storage does on a call, and what it answers. -/
def serve (s : Storage) : Call → Storage × Except StoreError Answer
  | .put id f => s.settle ((s.put id f).map fun s => (s, ())) fun _ => .done
  | .get id => (s, (s.get id).map .fact)
  | .erase id => s.settle (s.erase id) .flag
  | .has id => (s, (s.has id).map .flag)
  | .facts => (s, s.facts.map .facts)
  | .count => (s, s.count.map .number)
  | .flush => (s, s.flush.map fun _ => .done)
  | .close => (s.close, .ok .done)

/-- What a storage answers to calls, one after the other and each at its time. -/
def answers (s : Storage) : List (UInt64 × Call) → List (Except StoreError Answer)
  | [] => []
  | (time, c) :: history =>
    ((Journal.setTime time s).serve c).2 :: ((Journal.setTime time s).serve c).1.answers history

/-- The storage after calls, each of them at its time. -/
def after (s : Storage) (history : List (UInt64 × Call)) : Storage :=
  history.foldl (fun s step => ((Journal.setTime step.1 s).serve step.2).1) s

variable {s s' : Storage} {id : Digest} {f : Fact} {bytes : Text} {c : Call}

/-! ## Texts by digest -/

theorem get?_putBytes (s : Storage) (id : Digest) (bytes : Text) :
    (s.putBytes id bytes).cells.get? = Function.update s.cells.get? id (some bytes) :=
  Cells.get?_eq_update fun e => by
    rw [mem_putBytes, Prod.ext_iff, Option.some.injEq, eq_comm (b := bytes)]

theorem get?_eraseBytes (s : Storage) (id : Digest) :
    (s.eraseBytes id).cells.get? = Function.update s.cells.get? id none :=
  Cells.get?_eq_update fun e => by simp [mem_eraseBytes]

/-- Cells with the same texts by digest are the same up to their order. -/
theorem items_perm {c c' : Cells} (h : c.get? = c'.get?) : c.items.Perm c'.items := by
  have hc : c.items.Nodup := c.nodup_ids.of_map
  have hc' : c'.items.Nodup := c'.nodup_ids.of_map
  rw [List.perm_ext_iff_of_nodup hc hc']
  rintro ⟨id, t⟩
  rw [← Cells.get?_eq_some, ← Cells.get?_eq_some, h]

/-- A listing gives the same facts in some order. -/
theorem facts_perm (hs : s.isOpen = true) (hs' : s'.isOpen = true)
    (htexts : s.cells.get? = s'.cells.get?) :
    ∃ l l', s.facts = .ok l ∧ s'.facts = .ok l' ∧ l.Perm l' := by
  have htexts_perm : s.texts.Perm s'.texts :=
    (texts_perm s).trans (((items_perm htexts).map Prod.snd).trans (texts_perm s').symm)
  refine ⟨_, _, ?_, ?_, htexts_perm.filterMap fun t => (Encoding.decode t).toOption⟩
  · rw [Storage.facts, check_eq_ok.2 hs]
    rfl
  · rw [Storage.facts, check_eq_ok.2 hs']
    rfl

/-! ## Closed storages -/

theorem check_of_closed (h : s.isOpen = false) : s.check = .error (.closed s.closedText) := by
  simp [check, h]

theorem isOpen_close (s : Storage) : s.close.isOpen = false := by
  cases s <;> rfl

@[simp] theorem isOpen_setTime (time : UInt64) (s : Storage) :
    (Journal.setTime time s).isOpen = s.isOpen := by
  cases s <;> rfl

/-- A fact over the limit is refused, whether or not the storage is open. -/
theorem serve_of_not_withinLimit (s : Storage) (h : ¬ c.WithinLimit) :
    ∃ e, s.serve c = (s, .error e) ∧ e.kind = .invalidFact := by
  cases c with
  | put id f =>
    cases hencode : Encoding.encode f with
    | ok bytes => exact absurd (Encoding.encode_eq_ok.1 hencode).1 h
    | error e =>
      refine ⟨e, ?_, ?_⟩
      · simp [serve, Storage.put, hencode, settle, bind, Except.bind, Except.map]
      · rw [Encoding.encode, Encoding.checkFields] at hencode
        split at hencode
        · cases hencode
          rfl
        · cases hencode
  | _ => exact absurd trivial h

/-- A closed storage refuses everything else, but to be closed again. -/
theorem serve_of_closed (hs : s.isOpen = false) (hc : c ≠ .close) (h : c.WithinLimit) :
    ∃ e, s.serve c = (s, .error e) ∧ e.kind = .unavailable := by
  have hcheck := check_of_closed hs
  refine ⟨.closed s.closedText, ?_, rfl⟩
  cases c with
  | put id f =>
    have hencode : Encoding.encode f = .ok (Encoding.factBytes f) :=
      Encoding.encode_eq_ok.2 ⟨h, rfl⟩
    simp [serve, Storage.put, hencode, hcheck, settle, bind, Except.bind, Except.map]
  | erase id => simp [serve, Storage.erase, hcheck, settle, bind, Except.bind]
  | close => exact absurd rfl hc
  | _ =>
    simp [serve, Storage.get, Storage.has, Storage.facts, Storage.count, Storage.flush, hcheck,
      bind, Except.bind, Except.map]

theorem isOpen_serve_of_closed (hs : s.isOpen = false) (c : Call) :
    (s.serve c).1.isOpen = false := by
  by_cases hc : c = .close
  · rw [hc]
    exact isOpen_close s
  · by_cases hlimit : c.WithinLimit
    · obtain ⟨e, he, -⟩ := serve_of_closed hs hc hlimit
      rw [he]
      exact hs
    · obtain ⟨e, he, -⟩ := serve_of_not_withinLimit s hlimit
      rw [he]
      exact hs

/-- Once closed, a storage stays closed. -/
theorem isOpen_after_of_closed (hs : s.isOpen = false) (history : List (UInt64 × Call)) :
    (s.after history).isOpen = false := by
  induction history generalizing s with
  | nil => exact hs
  | cons step history ih => exact ih (isOpen_serve_of_closed (by rw [isOpen_setTime, hs]) step.2)

theorem isOpen_after_of_mem {history : List (UInt64 × Call)} {time : UInt64}
    (h : (time, .close) ∈ history) (s : Storage) : (s.after history).isOpen = false := by
  induction history generalizing s with
  | nil => cases h
  | cons step history ih =>
    rcases List.mem_cons.1 h with rfl | h
    · exact isOpen_after_of_closed (isOpen_close _) history
    · exact ih h _

/-! ## Storages that are alike -/

/-- Whether two storages accept changes and have the same texts, or are both closed. -/
inductive Alike : Storage → Storage → Prop
  /-- Both are open. -/
  | opened {s s' : Storage} (hs : s.Writable) (hs' : s'.Writable)
    (htexts : s.cells.get? = s'.cells.get?) : Alike s s'
  /-- Both are closed. -/
  | closed {s s' : Storage} (hs : s.isOpen = false) (hs' : s'.isOpen = false) : Alike s s'

theorem writable_setTime (hs : s.Writable) (time : UInt64) : (Journal.setTime time s).Writable := by
  cases s <;> exact ⟨hs.isOpen, hs.checkPut, hs.flush⟩

theorem cells_setTime (time : UInt64) (s : Storage) :
    (Journal.setTime time s).cells = s.cells := by
  cases s <;> rfl

namespace Alike

theorem setTime (h : Alike s s') (time : UInt64) :
    Alike (Journal.setTime time s) (Journal.setTime time s') := by
  cases h with
  | opened hs hs' htexts =>
    refine .opened (writable_setTime hs time) (writable_setTime hs' time) ?_
    rw [cells_setTime, cells_setTime, htexts]
  | closed hs hs' => exact .closed (by rw [isOpen_setTime, hs]) (by rw [isOpen_setTime, hs'])

/-- One call comes to the same, and leaves storages that are alike. -/
theorem serve (h : Alike s s') (c : Call) :
    SameOutcome (s.serve c).2 (s'.serve c).2 ∧ Alike (s.serve c).1 (s'.serve c).1 := by
  by_cases hlimit : c.WithinLimit
  swap
  · obtain ⟨e, he, hkind⟩ := serve_of_not_withinLimit s hlimit
    obtain ⟨e', he', hkind'⟩ := serve_of_not_withinLimit s' hlimit
    rw [he, he']
    exact ⟨hkind.trans hkind'.symm, h⟩
  by_cases hclose : c = .close
  · subst hclose
    exact ⟨SameOutcome.refl _, .closed (isOpen_close s) (isOpen_close s')⟩
  cases h with
  | closed hs hs' =>
    obtain ⟨e, he, hkind⟩ := serve_of_closed hs hclose hlimit
    obtain ⟨e', he', hkind'⟩ := serve_of_closed hs' hclose hlimit
    rw [he, he']
    exact ⟨hkind.trans hkind'.symm, .closed hs hs'⟩
  | opened hs hs' htexts =>
    have hsame : Alike s s' := .opened hs hs' htexts
    have hcheck : s.check = .ok () := check_eq_ok.2 hs.isOpen
    have hcheck' : s'.check = .ok () := check_eq_ok.2 hs'.isOpen
    cases c with
    | put id f =>
      have hput : s.put id f = .ok (s.putBytes id (Encoding.factBytes f)) :=
        put_eq_ok.2 ⟨hlimit, hs.isOpen, hs.checkPut, rfl⟩
      have hput' : s'.put id f = .ok (s'.putBytes id (Encoding.factBytes f)) :=
        put_eq_ok.2 ⟨hlimit, hs'.isOpen, hs'.checkPut, rfl⟩
      simp only [Storage.serve, hput, hput', Except.map, settle]
      refine ⟨SameOutcome.refl _, .opened (hs.putBytes _ _) (hs'.putBytes _ _) ?_⟩
      rw [get?_putBytes, get?_putBytes, htexts]
    | get id =>
      have hget : s.get id = s'.get id := by
        simp only [Storage.get, hcheck, hcheck', htexts]
      simp only [Storage.serve, hget]
      exact ⟨SameOutcome.refl _, hsame⟩
    | erase id =>
      have herase : s.erase id = .ok (s.eraseBytes id, s.cells.has id) :=
        erase_eq_ok.2 ⟨hs.isOpen, hs.checkErase id, rfl, rfl⟩
      have herase' : s'.erase id = .ok (s'.eraseBytes id, s'.cells.has id) :=
        erase_eq_ok.2 ⟨hs'.isOpen, hs'.checkErase id, rfl, rfl⟩
      have hhas : s.cells.has id = s'.cells.has id := by rw [Cells.has, Cells.has, htexts]
      simp only [Storage.serve, herase, herase', settle, hhas]
      refine ⟨SameOutcome.refl _, .opened (hs.eraseBytes _) (hs'.eraseBytes _) ?_⟩
      rw [get?_eraseBytes, get?_eraseBytes, htexts]
    | has id =>
      have hhas : s.has id = s'.has id := by
        simp only [Storage.has, hcheck, hcheck', Cells.has, htexts]
      simp only [Storage.serve, hhas]
      exact ⟨SameOutcome.refl _, hsame⟩
    | facts =>
      obtain ⟨l, l', hl, hl', hperm⟩ := facts_perm hs.isOpen hs'.isOpen htexts
      simp only [Storage.serve, hl, hl', Except.map]
      exact ⟨hperm, hsame⟩
    | count =>
      have hcount : s.count = s'.count := by
        simp only [Storage.count, hcheck, hcheck', Cells.size, (items_perm htexts).length_eq]
      simp only [Storage.serve, hcount]
      exact ⟨SameOutcome.refl _, hsame⟩
    | flush =>
      simp only [Storage.serve, hs.flush, hs'.flush]
      exact ⟨SameOutcome.refl _, hsame⟩
    | close => exact absurd rfl hclose

/-- A run of calls comes to the same. -/
theorem answers (h : Alike s s') (history : List (UInt64 × Call)) :
    List.Forall₂ SameOutcome (s.answers history) (s'.answers history) := by
  induction history generalizing s s' with
  | nil => exact .nil
  | cons step history ih =>
    obtain ⟨houtcome, hnext⟩ := (h.setTime step.1).serve step.2
    exact .cons houtcome (ih hnext)

theorem of_empty (hs : s.Writable) (hs' : s'.Writable) (hempty : s.cells.items = [])
    (hempty' : s'.cells.items = []) : Alike s s' := by
  refine .opened hs hs' (funext fun id => ?_)
  rw [Cells.get?, Cells.get?, hempty, hempty']

end Alike

/-- A storage in memory, a journal on an empty file and a table without rows that accepts changes
give the same answers to every run of calls. Behind every run, each of them refuses a fact over the
limit in the same way and keeps its cells; once closed, it refuses all other calls as a storage that
is not available, but to be closed again. -/
theorem answers_interchangeable {path : Text} {time : UInt64} {d : Disk}
    (hfile : (d.locate path.untilNul).fileBytes = .ok []) {t : Table} (ht : (table t).Writable)
    (hrows : t.cells.items = []) :
    ∃ d' j, (Journal.openedOnDisk path time).on d = (d', .ok j) ∧
      ∀ history : List (UInt64 × Call),
        List.Forall₂ SameOutcome ((memory {}).answers history) ((journal j).answers history) ∧
        List.Forall₂ SameOutcome ((memory {}).answers history) ((table t).answers history) ∧
        ∀ s ∈ [memory {}, journal j, table t],
          (∀ c : Call, ¬ c.WithinLimit → ∃ e,
            (s.after history).serve c = (s.after history, .error e) ∧ e.kind = .invalidFact) ∧
          ((s.after history).serve .close).2 = .ok .done ∧
          ((∃ time, (time, .close) ∈ history) → ∀ c : Call, c ≠ .close → c.WithinLimit → ∃ e,
            (s.after history).serve c = (s.after history, .error e) ∧ e.kind = .unavailable) := by
  refine ⟨_, _, Journal.on_openedOnDisk time hfile, fun history => ⟨?_, ?_, ?_⟩⟩
  · have hj : (journal (Journal.replay path time [])).Writable := ⟨rfl, rfl, rfl⟩
    have hm : (memory {}).Writable := ⟨rfl, rfl, rfl⟩
    exact (Alike.of_empty hm hj rfl rfl).answers history
  · have hm : (memory {}).Writable := ⟨rfl, rfl, rfl⟩
    exact (Alike.of_empty hm ht rfl hrows).answers history
  · intro s _
    refine ⟨fun c hc => serve_of_not_withinLimit _ hc, rfl, ?_⟩
    rintro ⟨time, hclosed⟩ c hc hlimit
    exact serve_of_closed (isOpen_after_of_mem hclosed s) hc hlimit

/-- A run that puts two texts under one digest, takes the text away and closes the storages. A
fact over the limit is refused for what it is afterwards, and any other one because the storage is
closed. -/
theorem answers_interchangeable_closed :
    let id : Digest := ⟨List.replicate 32 7, rfl⟩
    let f : Fact := ⟨.named "a", "p", .boolean true⟩
    let large : Fact := ⟨.named (List.replicate (fieldLimit + 1) 0), "p", .boolean true⟩
    let history : List (UInt64 × Call) :=
      [(5, .put id f), (6, .put id { f with predicate := "q" }), (7, .facts), (8, .erase id),
        (9, .close), (9, .count)]
    ∃ d' j t, (Journal.openedOnDisk "log" 4).on {} = (d', .ok j) ∧
      (Table.opened ":memory:").on {} = ({}, .ok t) ∧
      List.Forall₂ SameOutcome ((memory {}).answers history) ((journal j).answers history) ∧
      List.Forall₂ SameOutcome ((memory {}).answers history) ((table t).answers history) ∧
      ∀ s ∈ [memory {}, journal j, table t],
        (∃ e, (s.after history).serve (.put id large) = (s.after history, .error e) ∧
          e.kind = .invalidFact) ∧
        ∃ e, (s.after history).serve (.put id f) = (s.after history, .error e) ∧
          e.kind = .unavailable := by
  intro id f large history
  have hfile : (({} : Disk).locate (Text.untilNul "log")).fileBytes = .ok [] := by decide +kernel
  have htable : (Table.opened ":memory:").on {} = ({}, .ok { path := ":memory:" }) := by cbv
  have hwritable : (table { path := ":memory:" }).Writable := ⟨rfl, rfl, rfl⟩
  obtain ⟨d', j, (hj : (Journal.openedOnDisk "log" 4).on {} = _), hall⟩ :=
    answers_interchangeable hfile hwritable rfl
  obtain ⟨hjournal, htab, hrefused⟩ := hall history
  refine ⟨d', j, _, hj, htable, hjournal, htab, fun s hs => ?_⟩
  obtain ⟨hlimit, -, hclosed⟩ := hrefused s hs
  have hlarge : ¬ (Call.put id large).WithinLimit := by
    intro h
    have hlength := h (List.replicate (fieldLimit + 1) 0)
      (by simp [large, Fact.fields, Node.fields])
    rw [List.length_replicate] at hlength
    omega
  have hsmall : (Call.put id f).WithinLimit := by
    intro t ht
    have hlength : t.length ≤ 1 := by
      revert t
      decide
    exact hlength.trans (by decide)
  exact ⟨hlimit _ hlarge, hclosed ⟨9, by simp [history]⟩ _ Call.noConfusion hsmall⟩

end Storage
end FactGraph
