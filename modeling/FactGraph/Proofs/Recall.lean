import FactGraph.Proofs.Staleness

/-!
# Storing with a stale index

Whether a fact is new is read off the index of a store, not off its storage. So storing brings in
the facts that the index does not have (`Store.Stores`), and a fact that was taken away behind the
back of the store is not stored again, although the request succeeds
(`Store.recalls_stored_facts`). As long as a digest is not taken away in this way, there is a fact
for it in the storage if it is in the index (`Store.Backs`), and then what is stored can be
recalled.
-/

namespace FactGraph

/-- The digests of stored facts that an answer tells. -/
def Answer.ids : Answer → List Digest
  | stored id _ => [id]
  | storedAll each => each.map Prod.fst
  | _ => []

namespace Store

variable {s s' s'' : Store} {storage : Storage} {f g : Fact} {id : Digest} {V : Set Fact}
  {r : Request} {a : Answer} {st : Step} {steps : List Step} {facts : List Fact}
  {noted noted' : List (Digest × Bool)}

/-- Whether a fact is given back for its digest and known to be stored. -/
def Recalls (s : Store) (f : Fact) : Prop :=
  s.get f.digest = .ok (some f) ∧ s.contains f = .ok true

theorem recalls_iff (hs : s.storage.Addressed) :
    s.Recalls f ↔ s.storage.isOpen = true ∧ f ∈ s.content := by
  constructor
  · rintro ⟨hget, -⟩
    obtain ⟨_, hopen, -⟩ := bind_eq_ok.1 hget
    exact ⟨Storage.check_eq_ok.1 hopen, ((hs.of_get hget).1 rfl).1⟩
  · rintro ⟨ho, hf⟩
    exact ⟨hs.get_of_mem ho hf, (knows_view hs ho).contains f hf⟩

/-- What storing facts does to a store: those come in of which the digests are not in the index, and
then they are. -/
structure Stores (s : Store) (facts : List Fact) (s' : Store) : Prop where
  /-- The facts come in that are not in the index. -/
  content : ∀ f, f ∈ s'.content ↔ f ∈ s.content ∨ f ∈ facts ∧ f.digest ∉ s.index.ids
  /-- All of them are in the index then. -/
  ids : ∀ id, id ∈ s'.index.ids ↔ id ∈ s.index.ids ∨ ∃ f ∈ facts, f.digest = id
  /-- The storage is neither opened nor closed. -/
  isOpen : s'.storage.isOpen = s.storage.isOpen
  /-- It is used for the facts that come in. -/
  isOpen_of_new : ∀ f ∈ facts, f.digest ∉ s.index.ids → s.storage.isOpen = true

theorem Stores.refl (s : Store) : s.Stores [] s := ⟨by simp, by simp, rfl, by simp⟩

theorem Stores.trans {first rest : List Fact} (h : s.Stores first s') (h' : s'.Stores rest s'')
    (inj : ∀ f ∈ first, ∀ g ∈ rest, f.digest = g.digest → f = g) :
    s.Stores (first ++ rest) s'' where
  content := by
    intro f
    rw [h'.content, h.content, h.ids, List.mem_append]
    by_cases hf : ∃ g ∈ first, g.digest = f.digest
    · have hfirst : f ∈ rest → f ∈ first := by
        intro hrest
        obtain ⟨g, hg, heq⟩ := hf
        exact inj g hg f hrest heq ▸ hg
      tauto
    · simp only [hf, or_false]
      tauto
  ids := by
    intro id
    rw [h'.ids, h.ids]
    simp only [List.mem_append, or_and_right, exists_or, or_assoc]
  isOpen := h'.isOpen.trans h.isOpen
  isOpen_of_new := by
    intro f hf hid
    rcases List.mem_append.1 hf with hf | hf
    · exact h.isOpen_of_new f hf hid
    · by_cases hfirst : ∃ g ∈ first, g.digest = f.digest
      · obtain ⟨g, hg, heq⟩ := hfirst
        exact h.isOpen_of_new g hg (heq ▸ hid)
      · rw [← h.isOpen]
        refine h'.isOpen_of_new f hf fun hid' => ?_
        rcases (h.ids _).1 hid' with hid' | hid'
        · exact hid hid'
        · exact hfirst hid'

theorem Tracks.stores_insert (h : s.Tracks V) (inj : Set.InjOn Fact.digest V) (hf : f ∈ V)
    {new : Bool} (hi : s.insert f = .ok (s', id, new)) : s.Stores [f] s' := by
  rcases insert_cases hi with ⟨hid, rfl⟩ | ⟨hid, storage, hstorage, rfl⟩
  · refine ⟨fun g => ?_, fun id => ?_, rfl, by simp [hid]⟩
    · simp only [List.mem_singleton]
      refine ⟨.inl, fun hg => hg.resolve_right ?_⟩
      rintro ⟨rfl, hnot⟩
      exact hnot hid
    · simp only [List.mem_singleton, exists_eq_left]
      exact ⟨.inl, fun hid' => hid'.elim (fun hid' => hid') fun heq => heq ▸ hid⟩
  · obtain ⟨-, ho, -, hbytes⟩ := Storage.put_eq_ok.1 hstorage
    refine ⟨fun g => ?_, fun id => ?_, ?_, fun _ _ _ => ho⟩
    · rw [h.addressed.mem_content_put hstorage, List.mem_singleton]
      constructor
      · rintro (rfl | hg)
        · exact .inr ⟨rfl, hid⟩
        · exact .inl hg.1
      · rintro (hg | ⟨rfl, -⟩)
        · -- Nothing else with the digest can have been put behind the back of the store.
          by_cases heq : g.digest = f.digest
          · exact .inl (inj (h.content hg) hf heq)
          · exact .inr ⟨hg, heq⟩
        · exact .inl rfl
    · rw [Index.mem_ids_add, or_comm, eq_comm (a := id)]
      simp
    · rw [hbytes, Storage.isOpen_putBytes]

/-! ## Requests that do not fail -/

/-- A change that is answered succeeds. -/
theorem of_settle {α : Type} {change : Except StoreError (Store × α)} {answer : α → Answer}
    {a : Answer} (h : (s.settle change answer).2 = .ok a) :
    ∃ x, change = .ok ((s.settle change answer).1, x) ∧ a = answer x := by
  cases change with
  | error e => cases h
  | ok r =>
    cases h
    exact ⟨r.2, rfl, rfl⟩

theorem insert_of_insertNew (h : s.insertNew f = .ok (s', id)) :
    s.insert f = .ok (s', id, true) := by
  rw [Represents.insertNew_eq] at h
  obtain ⟨⟨s₁, id₁, new⟩, hi, h⟩ := bind_eq_ok.1 h
  cases new with
  | false => cases h
  | true =>
    cases h
    exact hi

/-- Noting a list of facts without a failure is storing the first fact and noting the others. -/
theorem of_forEach_insertNoting_cons
    (h : Attempt.forEach insertNoting (s, noted) (f :: facts) = ((s', noted'), none)) :
    ∃ s₁ new, s.insert f = .ok (s₁, f.digest, new) ∧
      Attempt.forEach insertNoting (s₁, (f.digest, new) :: noted) facts = ((s', noted'), none) := by
  cases hi : s.insert f with
  | error e => simp [Attempt.forEach, insertNoting, hi] at h
  | ok r =>
    obtain ⟨s₁, id, new⟩ := r
    obtain rfl := (insert_eq_ok hi).2.1
    exact ⟨s₁, new, rfl, by simpa [Attempt.forEach, insertNoting, hi] using h⟩

theorem of_insertAll {each : List (Digest × Bool)} (h : (s.insertAll facts).2 = .ok each) :
    ∃ noted, Attempt.forEach insertNoting (s, []) facts = (((s.insertAll facts).1, noted), none) ∧
      each = noted.reverse := by
  rw [insertAll] at h ⊢
  split at h
  · next heach =>
    cases h
    exact ⟨_, by rw [heach], rfl⟩
  · cases h

/-- What is noted of facts is their digests, the last one in front. -/
theorem map_noted (h : Attempt.forEach insertNoting (s, noted) facts = ((s', noted'), none)) :
    noted'.map Prod.fst = (facts.map Fact.digest).reverse ++ noted.map Prod.fst := by
  induction facts generalizing s noted with
  | nil =>
    cases h
    simp
  | cons f rest ih =>
    obtain ⟨s₁, new, -, hrest⟩ := of_forEach_insertNoting_cons h
    rw [ih hrest]
    simp

theorem Tracks.stores_forEach (h : s.Tracks V) (inj : Set.InjOn Fact.digest V)
    (hfacts : ∀ f ∈ facts, f ∈ V)
    (heach : Attempt.forEach insertNoting (s, noted) facts = ((s', noted'), none)) :
    s.Stores facts s' := by
  induction facts generalizing s noted with
  | nil =>
    cases heach
    exact .refl _
  | cons f rest ih =>
    rw [List.forall_mem_cons] at hfacts
    obtain ⟨s₁, new, hi, hrest⟩ := of_forEach_insertNoting_cons heach
    have hs₁ := h.stores_insert inj hfacts.1 hi
    refine hs₁.trans (ih (h.insert hfacts.1 hi) hfacts.2 hrest) fun g hg g' hg' heq => ?_
    rw [List.mem_singleton.1 hg] at heq ⊢
    exact inj hfacts.1 (hfacts.2 g' hg') heq

theorem Tracks.stores_perform (h : s.Tracks V) (inj : Set.InjOn Fact.digest V)
    (hr : ∀ f ∈ r.facts, f ∈ V) (hsome : r.candidates ≠ []) (ha : (s.perform r).2 = .ok a) :
    s.Stores r.candidates (s.perform r).1 := by
  cases r with
  | insert f =>
    obtain ⟨⟨id, new⟩, hi, -⟩ := of_settle ha
    exact h.stores_insert inj (hr f (List.mem_singleton_self f)) hi
  | insertNew f =>
    obtain ⟨id, hi, -⟩ := of_settle ha
    exact h.stores_insert inj (hr f (List.mem_singleton_self f)) (insert_of_insertNew hi)
  | insertAll facts =>
    obtain ⟨each, hall, -⟩ := map_eq_ok.1 ha
    obtain ⟨noted, heach, -⟩ := of_insertAll hall
    exact h.stores_forEach inj hr heach
  | _ => exact absurd rfl hsome

/-- Who stores facts is told their digests. -/
theorem ids_of_perform (ha : (s.perform r).2 = .ok a) : a.ids = r.candidates.map Fact.digest := by
  cases r with
  | insert f =>
    obtain ⟨⟨id, new⟩, hi, rfl⟩ := of_settle ha
    exact congrArg (fun id => [id]) (insert_eq_ok hi).2.1
  | insertNew f =>
    obtain ⟨id, hi, rfl⟩ := of_settle ha
    exact congrArg (fun id => [id]) (insert_eq_ok (insert_of_insertNew hi)).2.1
  | insertAll facts =>
    obtain ⟨each, hall, rfl⟩ := map_eq_ok.1 ha
    obtain ⟨noted, heach, rfl⟩ := of_insertAll hall
    simp [Answer.ids, Request.candidates, map_noted heach]
  | remove id =>
    obtain ⟨_, -, rfl⟩ := of_settle ha
    rfl
  | rebuild =>
    obtain ⟨_, -, rfl⟩ := of_settle ha
    rfl
  | count =>
    cases ha
    rfl
  | _ =>
    obtain ⟨_, -, rfl⟩ := map_eq_ok.1 ha
    rfl

/-! ## What is stored for a digest in the index -/

/-- Whether a store keeps facts under their own digests, and has a fact with a given digest if its
index has the digest. -/
structure Backs (s : Store) (id : Digest) : Prop where
  /-- Facts are kept under their own digests. -/
  addressed : s.storage.Addressed
  /-- A fact with the digest is stored, if the digest is in the index. -/
  stored : id ∈ s.index.ids → ∃ g ∈ s.content, g.digest = id

theorem Coherent.backs (h : s.Coherent) (id : Digest) : s.Backs id :=
  ⟨h.addressed, (h.index.ids id).1⟩

namespace Backs

theorem insert (h : s.Backs id) {other : Digest} {new : Bool}
    (hi : s.insert f = .ok (s', other, new)) : s'.Backs id := by
  rcases insert_cases hi with ⟨-, rfl⟩ | ⟨-, storage, hstorage, rfl⟩
  · exact h
  · refine ⟨h.addressed.put hstorage, fun hid => ?_⟩
    by_cases heq : id = f.digest
    · exact ⟨f, (h.addressed.mem_content_put hstorage).2 (.inl rfl), heq.symm⟩
    · obtain ⟨g, hg, rfl⟩ := h.stored ((Index.mem_ids_add.1 hid).resolve_left heq)
      exact ⟨g, (h.addressed.mem_content_put hstorage).2 (.inr ⟨hg, heq⟩), rfl⟩

theorem remove (h : s.Backs id) {other : Digest} {existed : Bool}
    (hr : s.remove other = .ok (s', existed)) : s'.Backs id := by
  obtain ⟨herase, hindex⟩ := remove_eq_ok hr
  refine ⟨h.addressed.erase herase, fun hid => ?_⟩
  have hleft : id ∈ s.index.ids ∧ id ≠ other := by
    rcases hindex with ⟨f, -, hindex⟩ | hindex
    · exact Index.mem_ids_remove.1 (hindex ▸ hid)
    · exact Index.mem_ids_forget.1 (hindex ▸ hid)
  obtain ⟨g, hg, rfl⟩ := h.stored hleft.1
  exact ⟨g, (h.addressed.mem_content_erase herase).2 ⟨hg, hleft.2⟩, rfl⟩

theorem perform (h : s.Backs id) (r : Request) : (s.perform r).1.Backs id := by
  refine perform_induction (P := (Backs · id)) r ?_ ?_ ?_ h
  · intro s s' f other new _ hs hi
    exact hs.insert hi
  · intro s s' other existed hs hr
    exact hs.remove hr
  · intro s s' count hs hr
    exact (coherent_of_rebuild hs.addressed hr).1.backs id

theorem step (h : s.Backs id) (hown : ∀ c, st = .change c → c.Own)
    (herase : st ≠ .change (.erase id)) (hclose : st ≠ .close) : (s.step st).Backs id := by
  cases st with
  | request r => exact h.perform r
  | change c =>
    refine ⟨h.addressed.perform (hown c rfl), fun hid => ?_⟩
    exact h.addressed.exists_mem_content_perform (hown c rfl) (fun hc => herase (hc ▸ rfl))
      (h.stored hid)
  | wait time =>
    refine ⟨h.addressed.setTime time, ?_⟩
    rw [Store.content, Store.step, Storage.content_setTime]
    exact h.stored
  | close => exact absurd rfl hclose

theorem after (h : s.Backs id) (hown : ∀ c, .change c ∈ steps → c.Own)
    (herase : .change (.erase id) ∉ steps) (hclose : .close ∉ steps) :
    (s.after steps).Backs id := by
  refine List.foldlRecOn (motive := (Backs · id)) steps Store.step h fun s hs st hst => ?_
  refine hs.step (fun c hc => hown c (hc ▸ hst)) ?_ ?_
  · exact fun heq => herase (heq ▸ hst)
  · exact fun heq => hclose (heq ▸ hst)

end Backs

/-- A store is opened over a storage of any kind that is open and keeps facts under their own
digests. However it is used then, and whatever facts are put under their own digests or taken away
behind its back: a request that stores facts and does not fail tells their digests, and such a fact
is given back and known to be stored afterwards if and only if its digest was not in the index, or
else the fact was given back before. So it is given back if it was not taken away behind the back
of the store. -/
theorem recalls_stored_facts (ho : storage.isOpen = true) (hstorage : storage.Addressed) :
    ∃ s, opened (some storage) = .ok s ∧ ∀ steps r a, (∀ c, .change c ∈ steps → c.Own) →
      Set.InjOn Fact.digest (occurring storage (steps ++ [.request r])) →
      ((s.after steps).perform r).2 = .ok a →
      a.ids = r.candidates.map Fact.digest ∧ ∀ f ∈ r.candidates,
        (((s.after steps).perform r).1.Recalls f ↔
          (f.digest ∈ (s.after steps).index.ids → (s.after steps).Recalls f)) ∧
        (.close ∉ steps → .change (.erase f.digest) ∉ steps →
          ((s.after steps).perform r).1.Recalls f) := by
  obtain ⟨s, hopened, hs, hkept, hcontent⟩ := exists_opened ho hstorage
  refine ⟨s, hopened, fun steps r a hown inj ha => ⟨ids_of_perform ha, fun f hf => ?_⟩⟩
  have hr : ∀ g ∈ r.facts, g ∈ occurring storage (steps ++ [.request r]) :=
    fun g hg => .inr ⟨.request r, by simp, hg⟩
  have htracks := hs.tracks_after hcontent hown inj
  have hstores := htracks.stores_perform inj hr (List.ne_nil_of_mem hf) ha
  have hiff : ((s.after steps).perform r).1.Recalls f ↔
      (f.digest ∈ (s.after steps).index.ids → (s.after steps).Recalls f) := by
    rw [recalls_iff (htracks.perform inj hr).addressed, recalls_iff htracks.addressed,
      hstores.isOpen, hstores.content]
    by_cases hid : f.digest ∈ (s.after steps).index.ids
    · simp [hid]
    · simp [hid, hf, hstores.isOpen_of_new f hf hid]
  refine ⟨hiff, fun hclose herase => hiff.2 fun hid => ?_⟩
  obtain ⟨g, hg, heq⟩ := ((hs.backs f.digest).after hown herase hclose).stored hid
  rw [recalls_iff htracks.addressed]
  refine ⟨(hkept.after hown hclose).isOpen, ?_⟩
  exact inj (htracks.content hg) (hr f (mem_facts_of_candidates hf)) heq ▸ hg

/-- Of two facts that are stored together, one is not stored again because it was taken away behind
the back of the store. -/
theorem recalls_stored_facts_lost :
    let f : Fact := ⟨.named "a", "p", .named "b"⟩
    let g : Fact := ⟨.named "a", "p", .integer 1⟩
    let steps : List Step := [.request (.insert f), .change (.erase f.digest)]
    ∃ s a, opened (some (.memory {})) = .ok s ∧
      ((s.after steps).perform (.insertAll [f, g])).2 = .ok a ∧ a.ids = [f.digest, g.digest] ∧
      ¬ ((s.after steps).perform (.insertAll [f, g])).1.Recalls f ∧
      ((s.after steps).perform (.insertAll [f, g])).1.Recalls g := by
  intro f g steps
  obtain ⟨s, hopened, hrecalls⟩ := @recalls_stored_facts (.memory {}) rfl
    (coherent_of_items_eq_nil rfl).1.addressed
  have hs : opened (some (.memory {})) = .ok { storage := .memory {} } := rfl
  cases hs.symm.trans hopened
  have hown : ∀ c, .change c ∈ steps → c.Own := by simp [steps, Journal.Change.Own]
  have hdigests : ([f, g].map Fact.digest).Nodup := by decide +kernel
  have inj : Set.InjOn Fact.digest
      (occurring (.memory {}) (steps ++ [.request (.insertAll [f, g])])) :=
    injOn_occurring_of_nodup rfl (by decide) hdigests
  have hids : f.digest ∈ (after { storage := .memory {} } steps).index.ids := by decide +kernel
  have hgone : (after { storage := .memory {} } steps).get f.digest = .ok none := by decide +kernel
  have hnoted : ((after { storage := .memory {} } steps).insertAll [f, g]).2 =
      .ok [(f.digest, false), (g.digest, true)] := by
    decide +kernel
  have ha : ((after { storage := .memory {} } steps).perform (.insertAll [f, g])).2 =
      .ok (.storedAll [(f.digest, false), (g.digest, true)]) :=
    congrArg (Except.map Answer.storedAll) hnoted
  obtain ⟨ids, hrecalled⟩ := hrecalls steps (.insertAll [f, g]) _ hown inj ha
  refine ⟨_, _, hopened, ha, ids, fun hf => ?_, ?_⟩
  · have hget := ((hrecalled f (by simp [Request.candidates])).1.1 hf hids).1
    rw [hgone] at hget
    cases hget
  · have hne : g.digest ≠ f.digest := by decide +kernel
    exact (hrecalled g (by simp [Request.candidates])).2 (by simp [steps]) (by simp [steps, hne])

end Store
end FactGraph
