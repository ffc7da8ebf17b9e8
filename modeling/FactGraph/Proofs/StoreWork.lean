import FactGraph.Proofs.Refinement

/-!
# Work on stores

A write to a store checks a fact, lays out its bytes, changes the storage and then changes the index
in several steps. Each of these can fail, and what was changed before stays changed. The work is
told here step by step, and all the same it is done at a stroke or not at all (`Commits`): behind
the first change nothing fails, because all that could has been asked for before.
-/

namespace FactGraph

/-- What was laid out is within the limit. -/
theorem Storage.withinLimit_of_get {s : Storage} {f : Fact} {id : Digest}
    (h : s.get id = .ok (some f)) : f.WithinLimit := by
  obtain ⟨_, -, h⟩ := bind_eq_ok.1 h
  split at h
  · cases h
  · obtain ⟨g, hg, hsome⟩ := map_eq_ok.1 h
    cases hsome
    exact Encoding.withinLimit_of_decode hg

/-! ## Work on stores -/

/-- Work on a store that may fail. What was changed before a failure stays changed. -/
abbrev StoreWork := ExceptT StoreError (StateM Store)

namespace StoreWork

variable {α β : Type}

/-- Does work on a store, and answers with the store that it leaves and with what came of it. -/
def on (work : StoreWork α) (s : Store) : Store × Except StoreError α :=
  let (r, s) := (ExceptT.run work).run s
  (s, r)

/-- Asks something that may fail. -/
def ask (question : Store → Except StoreError α) : StoreWork α := do
  MonadExcept.ofExcept (question (← get))

/-- Changes the storage. -/
def changeStorage (change : Storage → Storage) : StoreWork Unit :=
  modify fun s => { s with storage := change s.storage }

/-- Changes the index. -/
def changeIndex (change : Index → Index) : StoreWork Unit :=
  modify fun s => { s with index := change s.index }

/-! ## Writing step by step -/

/-- Gives a fact to a digest. -/
def put (id : Digest) (f : Fact) : StoreWork Unit := do
  let bytes ← ask fun _ => Encoding.encode f
  ask fun s => s.storage.check
  ask fun s => s.storage.checkPut
  changeStorage fun storage => storage.putBytes id bytes

/-- Takes away the cell of a digest, and tells whether it had one. -/
def erase (id : Digest) : StoreWork Bool := do
  ask fun s => s.storage.check
  ask fun s => s.storage.checkErase id
  let existed := (← get).storage.cells.has id
  changeStorage fun storage => storage.eraseBytes id
  return existed

/-- Adds the digest of a fact to the index, unless it is there: to all digests, and then to the
buckets of the subject, the predicate and the object, whose keys are made when they are needed. -/
def addToIndex (id : Digest) (f : Fact) : StoreWork Unit := do
  if (← get).index.contains id then return ()
  changeIndex fun x => { x with ids := id :: x.ids }
  let subject ← ask fun _ => Encoding.nodeKey f.subject
  changeIndex fun x => { x with bySubject := x.bySubject.insert subject id }
  changeIndex fun x => { x with byPredicate := x.byPredicate.insert f.predicate id }
  let object ← ask fun _ => Encoding.valueKey f.object
  changeIndex fun x => { x with byObject := x.byObject.insert object id }

/-- Takes the digest of a fact from the index, in the same order. -/
def removeFromIndex (id : Digest) (f : Fact) : StoreWork Unit := do
  if !(← get).index.contains id then return ()
  changeIndex fun x => { x with ids := x.ids.filter (· != id) }
  let subject ← ask fun _ => Encoding.nodeKey f.subject
  changeIndex fun x => { x with bySubject := x.bySubject.erase subject id }
  changeIndex fun x => { x with byPredicate := x.byPredicate.erase f.predicate id }
  let object ← ask fun _ => Encoding.valueKey f.object
  changeIndex fun x => { x with byObject := x.byObject.erase object id }

/-- Stores a fact; answers with its digest and whether it was new. -/
def insert (f : Fact) : StoreWork (Digest × Bool) := do
  ask fun _ => Store.checkStorable f
  let id ← ask fun _ => f.id
  if (← get).index.contains id then return (id, false)
  put id f
  addToIndex id f
  return (id, true)

/-- Stores a fact that must not be stored yet. -/
def insertNew (f : Fact) : StoreWork Digest := do
  let (id, new) ← insert f
  if new then return id else throw (.alreadyStored f id)

/-- Stores facts one by one. -/
def insertAll : List Fact → StoreWork (List (Digest × Bool))
  | [] => return []
  | f :: rest => do
    let first ← insert f
    return first :: (← insertAll rest)

/-- The fact of a digest that is to be taken out. Bytes that are no fact are as good as none. -/
def known? (id : Digest) : StoreWork (Option Fact) :=
  tryCatch (ask fun s => s.storage.get id) fun e =>
    if e.kind == .serialization then return none else throw e

/-- Takes a digest from the index, with the help of its fact if that is known. -/
def dropFromIndex (id : Digest) : Option Fact → StoreWork Unit
  | some f => removeFromIndex id f
  | none => changeIndex fun x => x.forget id

/-- Takes a fact out of the store by its digest, and tells whether it was stored. -/
def remove (id : Digest) : StoreWork Bool := do
  let known ← known? id
  let existed ← erase id
  dropFromIndex id known
  return existed

/-! ## Doing work -/

variable {s : Store} {f : Fact} {id : Digest}

@[simp] theorem on_pure (a : α) : (pure a : StoreWork α).on s = (s, .ok a) := rfl

@[simp] theorem on_get : (get : StoreWork Store).on s = (s, .ok s) := rfl

@[simp] theorem on_changeStorage (change : Storage → Storage) :
    (changeStorage change).on s = ({ s with storage := change s.storage }, .ok ()) := rfl

@[simp] theorem on_changeIndex (change : Index → Index) :
    (changeIndex change).on s = ({ s with index := change s.index }, .ok ()) := rfl

/-- What follows is done on the store that was left, unless there was a failure. -/
@[simp] theorem on_bind (work : StoreWork α) (next : α → StoreWork β) : (work >>= next).on s =
    match work.on s with
    | (s', .ok a) => (next a).on s'
    | (s', .error e) => (s', .error e) := by
  rw [on, run_bind, on]
  rcases StateT.run work.run s with ⟨_ | _, _⟩ <;> rfl

@[simp] theorem on_ask (question : Store → Except StoreError α) :
    (ask question).on s = (s, question s) := by
  rw [ask, on_bind, on_get]
  dsimp only
  cases question s <;> rfl

@[simp] theorem on_tryCatch (work : StoreWork α) (handle : StoreError → StoreWork α) :
    (tryCatch work handle).on s =
    match work.on s with
    | (s', .ok a) => (s', .ok a)
    | (s', .error e) => (handle e).on s' := by
  simp only [on, tryCatch, tryCatchThe, MonadExceptOf.tryCatch, ExceptT.tryCatch, ExceptT.mk,
    ExceptT.run, StateT.run, bind, StateT.bind]
  rcases work s with ⟨_ | _, _⟩ <;> rfl

/-! ## Changes of the index and of the storage -/

/-- Within the limit, the keys of a fact are there when they are needed. -/
theorem keys_of_withinLimit (h : f.WithinLimit) :
    Encoding.nodeKey f.subject = .ok (Encoding.nodeBytes f.subject) ∧
      Encoding.valueKey f.object = .ok (Encoding.valueBytes f.object) := by
  have hvalues := Fact.withinLimit_iff.1 h
  exact ⟨Encoding.nodeKey_eq_ok.2 ⟨hvalues _ (by simp [Fact.values]), rfl⟩,
    Encoding.valueKey_eq_ok.2 ⟨hvalues _ (by simp [Fact.values]), rfl⟩⟩

theorem on_addToIndex (h : f.WithinLimit) :
    (addToIndex id f).on s = ({ s with index := s.index.add id f }, .ok ()) := by
  obtain ⟨hsubject, hobject⟩ := keys_of_withinLimit h
  rw [addToIndex, Index.add]
  cases hc : s.index.contains id <;> simp [hc, hsubject, hobject]

theorem on_removeFromIndex (h : f.WithinLimit) :
    (removeFromIndex id f).on s = ({ s with index := s.index.remove id f }, .ok ()) := by
  obtain ⟨hsubject, hobject⟩ := keys_of_withinLimit h
  rw [removeFromIndex, Index.remove]
  cases hc : s.index.contains id <;> simp [hc, hsubject, hobject]

/-! ## Work at a stroke -/

/-- Whether work does at a stroke what it does: it ends in the outcome of a change, or else it
leaves everything as it was. -/
def Commits (work : StoreWork α) (s : Store) (outcome : Except StoreError (Store × α)) : Prop :=
  work.on s = match outcome with
    | .ok (s', a) => (s', .ok a)
    | .error e => (s, .error e)

/-- As long as nothing is changed, a failure changes nothing. -/
theorem commits_bind_of_kept {work : StoreWork α} {next : α → StoreWork β}
    {r : Except StoreError α} {outcome : α → Except StoreError (Store × β)}
    (hwork : work.on s = (s, r))
    (h : ∀ a, r = .ok a → (next a).Commits s (outcome a)) :
    (work >>= next).Commits s (r >>= outcome) := by
  unfold Commits
  rw [on_bind, hwork]
  cases r with
  | error e => rfl
  | ok a => exact h a rfl

theorem commits_ask_bind {question : Store → Except StoreError α} {next : α → StoreWork β}
    {outcome : α → Except StoreError (Store × β)}
    (h : ∀ a, question s = .ok a → (next a).Commits s (outcome a)) :
    (ask question >>= next).Commits s (question s >>= outcome) :=
  commits_bind_of_kept (on_ask question) h

theorem commits_get_bind {next : Store → StoreWork α} {outcome : Except StoreError (Store × α)}
    (h : (next s).Commits s outcome) : (get >>= next).Commits s outcome := by
  unfold Commits
  rw [on_bind, on_get]
  exact h

/-- Behind a change nothing may fail. -/
theorem Commits.bind {work : StoreWork α} {next : α → StoreWork β}
    {first : Except StoreError (Store × α)} {done : Store × α → Store × β}
    (h : work.Commits s first)
    (hnext : ∀ r, first = .ok r → (next r.2).on r.1 = ((done r).1, .ok (done r).2)) :
    (work >>= next).Commits s (first >>= fun r => .ok (done r)) := by
  unfold Commits at h ⊢
  rw [on_bind, h]
  cases hf : first with
  | error e => rfl
  | ok r => exact hnext r hf

theorem put_commits : (put id f).Commits s
    (s.storage.put id f >>= fun storage => .ok ({ s with storage }, ())) := by
  have h : (put id f).Commits s (Encoding.encode f >>= fun bytes => s.storage.check >>= fun _ =>
      s.storage.checkPut >>= fun _ =>
        .ok ({ s with storage := s.storage.putBytes id bytes }, ())) :=
    commits_ask_bind fun bytes _ => commits_ask_bind fun _ _ => commits_ask_bind fun _ _ => rfl
  simpa [Storage.put] using h

theorem erase_commits : (erase id).Commits s
    (s.storage.erase id >>= fun r => .ok ({ s with storage := r.1 }, r.2)) := by
  have h : (erase id).Commits s (s.storage.check >>= fun _ => s.storage.checkErase id >>= fun _ =>
      .ok ({ s with storage := s.storage.eraseBytes id }, s.storage.cells.has id)) :=
    commits_ask_bind fun _ _ => commits_ask_bind fun _ _ => commits_get_bind rfl
  simpa [Storage.erase] using h

theorem insert_commits : (insert f).Commits s (s.insert f) := by
  refine commits_ask_bind fun _ hstorable => commits_ask_bind fun id hid => commits_get_bind ?_
  obtain ⟨hlimit, rfl⟩ := Fact.id_eq_ok.1 hid
  cases hc : s.index.contains f.digest with
  | true => exact rfl
  | false =>
    let indexed (r : Store × Unit) : Store × Digest × Bool :=
      ({ r.1 with index := r.1.index.add f.digest f }, f.digest, true)
    -- The index is changed last, and the fact has its keys because it has a digest.
    have h : (put f.digest f >>= fun _ => addToIndex f.digest f >>= fun _ =>
        pure (f.digest, true)).Commits s (_ >>= fun r => .ok (indexed r)) :=
      put_commits.bind fun r _ => by rw [on_bind, on_addToIndex hlimit]; rfl
    rw [bind_assoc] at h
    exact h

theorem insertNew_commits : (insertNew f).Commits s (s.insertNew f) := by
  have h := insert_commits (s := s) (f := f)
  unfold Commits at h ⊢
  rw [insertNew, on_bind, h, Store.Represents.insertNew_eq]
  cases hi : s.insert f with
  | error e => rfl
  | ok r =>
    obtain ⟨s', id, new⟩ := r
    cases new with
    | true => rfl
    | false =>
      -- The fact that was stored already was passed over.
      obtain rfl := (Store.insert_eq_ok hi).2.2.2.1 rfl
      rfl

/-- What is asked for before a digest is taken out: its fact, if there is one. -/
def lookUp (s : Store) (id : Digest) : Except StoreError (Option Fact) :=
  match s.storage.get id with
  | .ok known => .ok known
  | .error e => if e.kind == .serialization then .ok none else .error e

theorem on_known? : (known? id).on s = (s, lookUp s id) := by
  rw [known?, on_tryCatch, on_ask, lookUp]
  cases s.storage.get id with
  | ok known => rfl
  | error e => dsimp only; split <;> rfl

theorem get_of_lookUp (h : lookUp s id = .ok (some f)) : s.storage.get id = .ok (some f) := by
  rw [lookUp] at h
  split at h
  · next hget => rw [hget, h]
  · split at h <;> cases h

/-- The index of a store without a digest. -/
def dropped (s : Store) (id : Digest) : Option Fact → Index
  | some f => s.index.remove id f
  | none => s.index.forget id

theorem on_dropFromIndex {known : Option Fact} (h : ∀ f, known = some f → f.WithinLimit) :
    (dropFromIndex id known).on s = ({ s with index := dropped s id known }, .ok ()) := by
  cases known with
  | none => rfl
  | some f => exact on_removeFromIndex (h f rfl)

theorem remove_eq : s.remove id = (do
    let known ← lookUp s id
    let (storage, existed) ← s.storage.erase id
    return ({ storage, index := dropped s id known }, existed)) := by
  rw [Store.remove, lookUp]
  cases s.storage.get id with
  | ok known => cases known <;> rfl
  | error e => dsimp only; split <;> rfl

theorem remove_commits : (remove id).Commits s (s.remove id) := by
  rw [remove_eq]
  refine commits_bind_of_kept on_known? fun known hknown => ?_
  let without (r : Store × Bool) : Store × Bool :=
    ({ r.1 with index := dropped r.1 id known }, r.2)
  -- What was looked up could be read, so that its keys are there when the cell is gone.
  have h : (erase id >>= fun existed => dropFromIndex id known >>= fun _ => pure existed).Commits s
      (_ >>= fun r => .ok (without r)) :=
    erase_commits.bind fun r _ => by
      rw [on_bind, on_dropFromIndex]
      · rfl
      · rintro f rfl
        exact Storage.withinLimit_of_get (get_of_lookUp hknown)
  rw [bind_assoc] at h
  exact h

end StoreWork
end FactGraph
