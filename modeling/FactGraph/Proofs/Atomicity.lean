import FactGraph.Proofs.StoreWork

/-!
# Writes that fail

A write that fails leaves the storage and the index as they were, at whatever step it fails, and of
facts that are stored together it leaves those in front of the failure stored (`Write.fails_whole`).
A write is refused as invalid for what is wrong with a fact, and for nothing else.
-/

namespace FactGraph

namespace StoreWork

variable {s : Store} {f : Fact}

/-! ## Facts one by one -/

/-- What was noted before is carried along. -/
theorem forEach_insertNoting_append (facts : List Fact) (noted old : List (Digest × Bool)) :
    Attempt.forEach Store.insertNoting (s, noted ++ old) facts =
      (Attempt.forEach Store.insertNoting (s, noted) facts).map
        (fun r => (r.1, r.2 ++ old)) fun failed => failed := by
  induction facts generalizing s noted with
  | nil => rfl
  | cons f rest ih =>
    rw [Attempt.forEach, Attempt.forEach, Store.insertNoting, Store.insertNoting]
    cases s.insert f with
    | error e => rfl
    | ok r => exact ih (r.2 :: noted)

theorem insertAll_cons (f : Fact) (rest : List Fact) : s.insertAll (f :: rest) =
    match s.insert f with
    | .ok (s₁, first) => ((s₁.insertAll rest).1, (s₁.insertAll rest).2.map (first :: ·))
    | .error e => (s, .error e) := by
  rw [Store.insertAll, Attempt.forEach, Store.insertNoting]
  cases s.insert f with
  | error e => rfl
  | ok r =>
    have h := forEach_insertNoting_append (s := r.1) rest [] [r.2]
    rw [List.nil_append] at h
    dsimp only
    rw [h, Store.insertAll]
    rcases Attempt.forEach Store.insertNoting (r.1, []) rest with ⟨⟨s', noted⟩, _ | e⟩
    · simp [Except.map]
    · rfl

theorem on_insertAll (facts : List Fact) : (insertAll facts).on s = s.insertAll facts := by
  induction facts generalizing s with
  | nil => rfl
  | cons f rest ih =>
    have h := insert_commits (s := s) (f := f)
    unfold Commits at h
    rw [insertAll, on_bind, h, insertAll_cons]
    cases s.insert f with
    | error e => rfl
    | ok r =>
      dsimp only
      rw [on_bind, ih]
      rcases r.1.insertAll rest with ⟨s', _ | each⟩ <;> rfl

theorem insertAll_cons_eq_ok {rest : List Fact} {each : List (Digest × Bool)} {s' : Store} :
    s.insertAll (f :: rest) = (s', .ok each) ↔ ∃ s₁ first others, s.insert f = .ok (s₁, first) ∧
      s₁.insertAll rest = (s', .ok others) ∧ each = first :: others := by
  rw [insertAll_cons]
  cases s.insert f with
  | error e => simp
  | ok r =>
    constructor
    · intro h
      obtain ⟨hs, heach⟩ := Prod.mk.inj h
      obtain ⟨others, hothers, rfl⟩ := map_eq_ok.1 heach
      exact ⟨r.1, r.2, others, rfl, Prod.ext hs hothers, rfl⟩
    · rintro ⟨s₁, first, others, ⟨⟩, hrest, rfl⟩
      dsimp only
      rw [hrest]
      rfl

theorem insertAll_cons_eq_error {rest : List Fact} {e : StoreError} {s' : Store} :
    s.insertAll (f :: rest) = (s', .error e) ↔ (s' = s ∧ s.insert f = .error e) ∨
      ∃ s₁ first, s.insert f = .ok (s₁, first) ∧ s₁.insertAll rest = (s', .error e) := by
  rw [insertAll_cons]
  cases s.insert f with
  | error e' => simp [eq_comm]
  | ok r =>
    obtain ⟨s₁, first⟩ := r
    rcases hrest : s₁.insertAll rest with ⟨s₂, _ | others⟩ <;> simp [hrest, Except.map]

/-- Storing facts fails at one of them, and those in front of it are stored. -/
theorem insertAll_eq_error {facts : List Fact} {s' : Store} {e : StoreError} :
    s.insertAll facts = (s', .error e) ↔ ∃ before f after each, facts = before ++ f :: after ∧
      s.insertAll before = (s', .ok each) ∧ s'.insert f = .error e := by
  constructor
  · intro h
    induction facts generalizing s with
    | nil => cases h
    | cons f rest ih =>
      rcases insertAll_cons_eq_error.1 h with ⟨rfl, hf⟩ | ⟨s₁, first, hf, hrest⟩
      · exact ⟨[], f, rest, [], rfl, rfl, hf⟩
      · obtain ⟨before, g, after, each, rfl, hbefore, hg⟩ := ih hrest
        exact ⟨f :: before, g, after, first :: each, rfl,
          insertAll_cons_eq_ok.2 ⟨s₁, first, each, hf, hbefore, rfl⟩, hg⟩
  · rintro ⟨before, f, after, each, rfl, hbefore, hf⟩
    induction before generalizing s each with
    | nil =>
      cases hbefore
      exact insertAll_cons_eq_error.2 (.inl ⟨rfl, hf⟩)
    | cons g before ih =>
      obtain ⟨s₁, first, others, hg, hrest, rfl⟩ := insertAll_cons_eq_ok.1 hbefore
      exact insertAll_cons_eq_error.2 (.inr ⟨s₁, first, hg, ih others hrest⟩)

end StoreWork

/-! ## Kinds of failure -/

/-- Whether something is wrong with a fact: a field is longer than it may be, or a name is empty. -/
def Fact.Malformed (f : Fact) : Prop :=
  (∃ t ∈ f.fields, fieldLimit < t.length) ∨ f.predicate = [] ∨ f.subject = .named [] ∨
    f.object = .named []

theorem Fact.malformed_iff {f : Fact} : f.Malformed ↔ ¬ Store.Storable f := by
  have hlimit : f.WithinLimit ↔ ¬ ∃ t ∈ f.fields, fieldLimit < t.length := by
    simp [Fact.WithinLimit]
  rw [Store.storable_iff, ← Fact.withinLimit_iff, hlimit, Malformed]
  simp only [ne_eq, not_and_or, not_not]

namespace Storage

variable {s : Storage} {f : Fact} {id : Digest} {e : StoreError}

theorem kind_of_check (h : s.check = .error e) : e.kind = .unavailable := by
  rw [check] at h
  split at h
  · cases h
  · cases h
    rfl

theorem kind_of_checkPut (h : s.checkPut = .error e) : e.kind = .storage := by
  cases s with
  | memory m => cases h
  | journal j => cases h
  | table t =>
    rw [checkPut, Table.checkPut] at h
    split at h
    · cases h
    · cases h
      rfl

theorem kind_of_checkErase (h : s.checkErase id = .error e) : e.kind = .storage := by
  cases s with
  | memory m => cases h
  | journal j => cases h
  | table t =>
    rw [checkErase, Table.checkErase] at h
    split at h
    · cases h
    · split at h
      · cases h
        rfl
      · cases h

theorem kind_of_get (h : s.get id = .error e) :
    e.kind = .unavailable ∨ e.kind = .serialization := by
  rcases bind_eq_error.1 h with h | ⟨_, -, h⟩
  · exact .inl (kind_of_check h)
  · split at h
    · cases h
    · next bytes _ =>
      rw [Encoding.decode] at h
      cases hd : Encoding.decode? bytes with
      | ok f =>
        rw [hd] at h
        cases h
      | error fault =>
        rw [hd] at h
        cases h
        exact .inr rfl

theorem kind_of_put (hf : f.WithinLimit) (h : s.put id f = .error e) :
    e.kind = .unavailable ∨ e.kind = .storage := by
  rcases bind_eq_error.1 h with h | ⟨_, -, h⟩
  · rw [Encoding.encode_eq_ok.2 ⟨hf, rfl⟩] at h
    cases h
  rcases bind_eq_error.1 h with h | ⟨_, -, h⟩
  · exact .inl (kind_of_check h)
  rcases bind_eq_error.1 h with h | ⟨_, -, h⟩
  · exact .inr (kind_of_checkPut h)
  · cases h

theorem kind_of_erase (h : s.erase id = .error e) :
    e.kind = .unavailable ∨ e.kind = .storage := by
  rcases bind_eq_error.1 h with h | ⟨_, -, h⟩
  · exact .inl (kind_of_check h)
  rcases bind_eq_error.1 h with h | ⟨_, -, h⟩
  · exact .inr (kind_of_checkErase h)
  · cases h

end Storage

namespace Store

variable {s : Store} {f : Fact} {id : Digest} {e : StoreError}

/-- A fact is refused as invalid exactly if something is wrong with it. -/
theorem kind_of_insert (h : s.insert f = .error e) : e.kind = .invalidFact ↔ f.Malformed := by
  rw [Fact.malformed_iff]
  by_cases hf : Storable f
  · simp only [hf, not_true_eq_false, iff_false]
    rcases bind_eq_error.1 h with h | ⟨_, -, h⟩
    · rw [checkStorable_eq_ok.2 hf] at h
      cases h
    rcases bind_eq_error.1 h with h | ⟨id, -, h⟩
    · rw [hf.withinLimit.id] at h
      cases h
    split at h
    · cases h
    rcases bind_eq_error.1 h with h | ⟨_, -, h⟩
    · rcases Storage.kind_of_put hf.withinLimit h with hkind | hkind <;> simp [hkind]
    · cases h
  · obtain ⟨e', he', hkind⟩ := exists_insert_error hf (s := s)
    rw [h] at he'
    cases he'
    simp [hf, hkind]

theorem exists_insert_invalid :
    (∃ e, s.insert f = .error e ∧ e.kind = .invalidFact) ↔ f.Malformed := by
  constructor
  · rintro ⟨e, he, hkind⟩
    exact (kind_of_insert he).1 hkind
  · exact fun hf => exists_insert_error (Fact.malformed_iff.1 hf)

theorem exists_insertNew_invalid :
    (∃ e, s.insertNew f = .error e ∧ e.kind = .invalidFact) ↔ f.Malformed := by
  rw [← exists_insert_invalid (s := s), Represents.insertNew_eq]
  constructor
  · rintro ⟨e, he, hkind⟩
    rcases bind_eq_error.1 he with he | ⟨⟨s', id, new⟩, -, he⟩
    · exact ⟨e, he, hkind⟩
    · cases new <;> cases he
      cases hkind
  · rintro ⟨e, he, hkind⟩
    exact ⟨e, bind_eq_error.2 (.inl he), hkind⟩

theorem kind_of_remove (h : s.remove id = .error e) : e.kind ≠ .invalidFact := by
  rw [StoreWork.remove_eq] at h
  rcases bind_eq_error.1 h with h | ⟨_, -, h⟩
  · rw [StoreWork.lookUp] at h
    split at h
    · cases h
    · next e' hget =>
      split at h
      · cases h
      · cases h
        rcases Storage.kind_of_get hget with hkind | hkind <;> simp [hkind]
  rcases bind_eq_error.1 h with h | ⟨_, -, h⟩
  · rcases Storage.kind_of_erase h with hkind | hkind <;> simp [hkind]
  · cases h

end Store

/-! ## Writes -/

/-- What can be written to a store. -/
inductive Write where
  /-- A fact. -/
  | insert (f : Fact)
  /-- A fact that must not be stored yet. -/
  | insertNew (f : Fact)
  /-- Facts, one by one. -/
  | insertAll (facts : List Fact)
  /-- That the fact with a digest is gone. -/
  | remove (id : Digest)

namespace Write

/-- A write as a request. -/
def request : Write → Request
  | insert f => .insert f
  | insertNew f => .insertNew f
  | insertAll facts => .insertAll facts
  | remove id => .remove id

/-- The work of a write, step by step. -/
def work : Write → StoreWork Answer
  | insert f => do
    let (id, new) ← StoreWork.insert f
    return .stored id new
  | insertNew f => do return .stored (← StoreWork.insertNew f) true
  | insertAll facts => do return .storedAll (← StoreWork.insertAll facts)
  | remove id => do return .flag (← StoreWork.remove id)

/-- What a failed write leaves: the store as it was. Of several facts, those in front of one that
fails are stored. -/
def Leaves (s : Store) (e : StoreError) (s' : Store) : Write → Prop
  | insertAll facts => ∃ before f after each, facts = before ++ f :: after ∧
      (insertAll before).work.on s = (s', .ok (.storedAll each)) ∧
        (insert f).work.on s' = (s', .error e)
  | _ => s' = s

/-- Whether a write meets a fact with which something is wrong. -/
def Malformed (s : Store) : Write → Prop
  | insert f | insertNew f => f.Malformed
  | insertAll facts => ∃ before f after s' each, facts = before ++ f :: after ∧
      (insertAll before).work.on s = (s', .ok (.storedAll each)) ∧ f.Malformed
  | remove _ => False

variable {s : Store}

theorem on_settled {α : Type} {work : StoreWork α} {outcome : Except StoreError (Store × α)}
    (h : work.Commits s outcome) (answer : α → Answer) :
    StoreWork.on (work >>= fun a => pure (answer a)) s = s.settle outcome answer := by
  unfold StoreWork.Commits at h
  rw [StoreWork.on_bind, h]
  cases outcome <;> rfl

/-- Step by step, a write does what it does at a stroke. -/
theorem on_work (w : Write) (s : Store) : w.work.on s = s.perform w.request := by
  cases w with
  | insert f => exact on_settled StoreWork.insert_commits _
  | insertNew f => exact on_settled StoreWork.insertNew_commits _
  | insertAll facts =>
    rw [work, StoreWork.on_bind, StoreWork.on_insertAll, request, Store.perform]
    rcases s.insertAll facts with ⟨s', _ | each⟩ <;> rfl
  | remove id => exact on_settled StoreWork.remove_commits _

theorem settle_eq_error {α : Type} {outcome : Except StoreError (Store × α)} {answer : α → Answer}
    {s' : Store} {e : StoreError} :
    s.settle outcome answer = (s', .error e) ↔ s' = s ∧ outcome = .error e := by
  cases outcome <;> simp [Store.settle, eq_comm]

theorem exists_settle_invalid {α : Type} {outcome : Except StoreError (Store × α)}
    {answer : α → Answer} :
    (∃ s' e, s.settle outcome answer = (s', .error e) ∧ e.kind = .invalidFact) ↔
      ∃ e, outcome = .error e ∧ e.kind = .invalidFact := by
  simp only [settle_eq_error]
  constructor
  · rintro ⟨s', e, ⟨-, he⟩, hkind⟩
    exact ⟨e, he, hkind⟩
  · rintro ⟨e, he, hkind⟩
    exact ⟨s, e, ⟨rfl, he⟩, hkind⟩

theorem on_insertAll_eq_ok {facts : List Fact} {s' : Store} {each : List (Digest × Bool)} :
    (insertAll facts).work.on s = (s', .ok (.storedAll each)) ↔
      s.insertAll facts = (s', .ok each) := by
  rw [on_work, request, Store.perform]
  rcases s.insertAll facts with ⟨s₁, _ | others⟩ <;> simp [Except.map]

theorem on_insertAll_eq_error {facts : List Fact} {s' : Store} {e : StoreError} :
    (insertAll facts).work.on s = (s', .error e) ↔ s.insertAll facts = (s', .error e) := by
  rw [on_work, request, Store.perform]
  rcases s.insertAll facts with ⟨s₁, _ | others⟩ <;> simp [Except.map]

theorem leaves_of_fails (w : Write) {s' : Store} {e : StoreError}
    (h : w.work.on s = (s', .error e)) : w.Leaves s e s' := by
  cases w with
  | insertAll facts =>
    obtain ⟨before, f, after, each, hfacts, hbefore, hf⟩ :=
      StoreWork.insertAll_eq_error.1 (on_insertAll_eq_error.1 h)
    refine ⟨before, f, after, each, hfacts, on_insertAll_eq_ok.2 hbefore, ?_⟩
    rw [on_work]
    exact settle_eq_error.2 ⟨rfl, hf⟩
  | _ =>
    rw [on_work] at h
    exact (settle_eq_error.1 h).1

theorem invalid_iff_malformed (w : Write) (s : Store) :
    (∃ s' e, w.work.on s = (s', .error e) ∧ e.kind = .invalidFact) ↔ w.Malformed s := by
  cases w with
  | insert f =>
    simp only [on_work]
    exact exists_settle_invalid.trans Store.exists_insert_invalid
  | insertNew f =>
    simp only [on_work]
    exact exists_settle_invalid.trans Store.exists_insertNew_invalid
  | insertAll facts =>
    simp only [on_insertAll_eq_error, StoreWork.insertAll_eq_error, Malformed, on_insertAll_eq_ok]
    constructor
    · rintro ⟨s', e, ⟨before, f, after, each, hfacts, hbefore, hf⟩, hkind⟩
      exact ⟨before, f, after, s', each, hfacts, hbefore, (Store.kind_of_insert hf).1 hkind⟩
    · rintro ⟨before, f, after, s', each, hfacts, hbefore, hf⟩
      obtain ⟨e, he, hkind⟩ := Store.exists_insert_invalid.2 hf
      exact ⟨s', e, ⟨before, f, after, each, hfacts, hbefore, he⟩, hkind⟩
  | remove id =>
    simp only [on_work]
    refine exists_settle_invalid.trans (iff_false_intro ?_)
    rintro ⟨e, he, hkind⟩
    exact Store.kind_of_remove he hkind

/-- On any store, whether open or closed, a write that fails at any of its steps leaves the storage
and the index as they were, and of facts that are stored together it leaves those in front of the
failure stored, as if only they had been asked for. So a write is what it would be if it were done
at a stroke. It is refused as invalid exactly if it meets a fact with an empty name or with a field
over the limit. -/
theorem fails_whole (w : Write) (s : Store) :
    w.work.on s = s.perform w.request ∧
    (∀ s' e, w.work.on s = (s', .error e) → w.Leaves s e s') ∧
    ((∃ s' e, w.work.on s = (s', .error e) ∧ e.kind = .invalidFact) ↔ w.Malformed s) :=
  ⟨on_work w s, fun _ _ => leaves_of_fails w, invalid_iff_malformed w s⟩

/-- A fact over the limit is refused, a closed store refuses any fact, and of three facts only the
one in front of the nameless one is stored. -/
theorem fails_whole_memory :
    let s : Store := { storage := .memory {} }
    let long : Fact := ⟨.named "a", "note", .string (List.replicate (fieldLimit + 1) 0x61)⟩
    let nameless : Fact := ⟨.named "", "knows", .named "b"⟩
    let first : Fact := ⟨.named "a", "knows", .named "b"⟩
    let last : Fact := ⟨.named "a", "knows", .named "c"⟩
    (∃ e, (insert long).work.on s = (s, .error e) ∧ e.kind = .invalidFact) ∧
    (insert first).work.on s.close = (s.close, .error (.closed "memory backend is closed")) ∧
    ∃ s' each, (insertAll [first]).work.on s = (s', .ok (.storedAll each)) ∧ s'.count = 1 ∧
      (insertAll [first, nameless, last]).work.on s = (s', .error (.emptySubject nameless)) := by
  intro s long nameless first last
  refine ⟨?_, ?_, ?_⟩
  · have hlong : (insert long).Malformed s := by
      refine .inl ⟨List.replicate (fieldLimit + 1) 0x61, ?_, ?_⟩
      · exact List.mem_append_right _ (List.mem_cons_of_mem _ (List.mem_singleton_self _))
      · rw [List.length_replicate]
        exact Nat.lt_succ_self _
    obtain ⟨s', e, he, hkind⟩ := (fails_whole (insert long) s).2.2.2 hlong
    obtain rfl := (fails_whole (insert long) s).2.1 s' e he
    exact ⟨e, he, hkind⟩
  · rw [(fails_whole (insert first) s.close).1]
    rfl
  · have hempty : s.Represents ∅ := Store.represents_empty ⟨rfl, rfl, rfl⟩ rfl
    obtain ⟨s', hfirst, hs'⟩ := hempty.insert (f := first) (by simp) (by decide)
    have hall : s.insertAll [first] = (s', .ok [(first.digest, true)]) :=
      StoreWork.insertAll_cons_eq_ok.2 ⟨s', _, [], hfirst, rfl, rfl⟩
    refine ⟨s', _, on_insertAll_eq_ok.2 hall, by rw [hs'.count_eq]; rfl, ?_⟩
    exact on_insertAll_eq_error.2
      (StoreWork.insertAll_eq_error.2 ⟨[first], nameless, [last], _, rfl, hall, rfl⟩)

end Write
end FactGraph
