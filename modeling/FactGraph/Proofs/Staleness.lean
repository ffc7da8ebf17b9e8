import FactGraph.Proofs.Statistics

/-!
# Stores with a stale index

Facts can be put into a storage and taken away from it behind the back of the store over it. The
index notices neither: it then has digests of facts that are gone, and misses facts that are there.
It still describes facts that were met with at some time (`Store.Tracks`), and as every candidate is
looked up in the storage, what is found is right nevertheless, and only what the index misses is not
found (`Store.find_with_stale_index`).
-/

namespace FactGraph

/-! ## Changes behind the back of a store -/

/-- The facts that a change puts. -/
def Journal.Change.facts : Journal.Change → List Fact
  | put _ f => [f]
  | erase _ => []

namespace Storage

variable {s : Storage} {c : Journal.Change} {f : Fact}

theorem mem_items_close {e : Digest × Text} (h : e ∈ s.close.cells.items) : e ∈ s.cells.items := by
  cases s with
  | memory m => cases h
  | journal j => cases h
  | table t => exact h

theorem Addressed.close (hs : s.Addressed) : s.close.Addressed :=
  fun e he => hs e (mem_items_close he)

theorem content_close_subset : s.close.content ⊆ s.content :=
  fun _ ⟨e, he, hf⟩ => ⟨e, mem_items_close he, hf⟩

/-- A change is refused, or it puts a fact, or it takes one away. -/
theorem perform_cases (c : Journal.Change) (s : Storage) : c.perform s = s ∨
    (∃ id f, c = .put id f ∧ s.put id f = .ok (c.perform s)) ∨
      ∃ id existed, c = .erase id ∧ s.erase id = .ok (c.perform s, existed) := by
  cases c with
  | put id f =>
    cases hput : s.put id f with
    | error e => simp [Journal.Change.perform, hput, Except.toOption]
    | ok s' =>
      refine .inr (.inl ⟨id, f, rfl, ?_⟩)
      simp [Journal.Change.perform, hput, Except.toOption]
  | erase id =>
    cases herase : s.erase id with
    | error e => simp [Journal.Change.perform, herase, Except.toOption, Except.map]
    | ok r =>
      refine .inr (.inr ⟨id, r.2, rfl, ?_⟩)
      simp [Journal.Change.perform, herase, Except.toOption, Except.map]

/-- A change puts nothing but its facts. -/
theorem Addressed.of_mem_content_perform (hs : s.Addressed) (hown : c.Own)
    (hf : f ∈ (c.perform s).content) : f ∈ s.content ∨ f ∈ c.facts := by
  rcases perform_cases c s with heq | ⟨id, g, rfl, hput⟩ | ⟨id, existed, rfl, herase⟩
  · exact .inl (heq ▸ hf)
  · obtain rfl : id = g.digest := hown
    rcases (hs.mem_content_put hput).1 hf with rfl | hf
    · exact .inr (List.mem_singleton_self f)
    · exact .inl hf.1
  · exact .inl ((hs.mem_content_erase herase).1 hf).1

/-- A digest stays stored unless a change takes it away. -/
theorem Addressed.exists_mem_content_perform (hs : s.Addressed) (hown : c.Own) {id : Digest}
    (hc : c ≠ .erase id) (h : ∃ g ∈ s.content, g.digest = id) :
    ∃ g ∈ (c.perform s).content, g.digest = id := by
  obtain ⟨g, hg, rfl⟩ := h
  rcases perform_cases c s with heq | ⟨id, f, rfl, hput⟩ | ⟨id, existed, rfl, herase⟩
  · exact ⟨g, heq.symm ▸ hg, rfl⟩
  · obtain rfl : id = f.digest := hown
    by_cases heq : g.digest = f.digest
    · exact ⟨f, (hs.mem_content_put hput).2 (.inl rfl), heq.symm⟩
    · exact ⟨g, (hs.mem_content_put hput).2 (.inr ⟨hg, heq⟩), rfl⟩
  · refine ⟨g, (hs.mem_content_erase herase).2 ⟨hg, fun heq => hc ?_⟩, rfl⟩
    rw [heq]

end Storage

namespace Store

variable {s s' : Store} {storage : Storage} {f g : Fact} {id : Digest} {q : Query} {V : Set Fact}
  {r : Request} {st : Step} {steps : List Step}

/-- The facts that a step mentions. -/
def Step.facts : Step → List Fact
  | request r => r.facts
  | change c => c.facts
  | _ => []

/-- The facts that a storage holds or that steps mention. -/
def occurring (storage : Storage) (steps : List Step) : Set Fact :=
  {f | f ∈ storage.content ∨ ∃ st ∈ steps, f ∈ st.facts}

/-- Where few facts occur, it can be computed whether digests tell them apart. -/
theorem injOn_occurring_of_nodup {facts : List Fact} (hempty : storage.cells.items = [])
    (hsteps : ∀ st ∈ steps, ∀ f ∈ st.facts, f ∈ facts) (nodup : (facts.map Fact.digest).Nodup) :
    Set.InjOn Fact.digest (occurring storage steps) := by
  have hmem : ∀ f ∈ occurring storage steps, f ∈ facts := by
    rintro f (⟨e, he, -⟩ | ⟨st, hst, hf⟩)
    · rw [hempty] at he
      cases he
    · exact hsteps st hst f hf
  exact fun f hf g hg => List.inj_on_of_nodup_map nodup (hmem f hf) (hmem g hg)

theorem mem_facts_of_candidates (h : f ∈ r.candidates) : f ∈ r.facts := by
  cases r with
  | insert _ => exact h
  | insertNew _ => exact h
  | insertAll _ => exact h
  | _ => cases h

/-! ## What the index describes -/

/-- Whether a store keeps facts under their own digests, with an index that describes some facts,
the stored facts and the described ones being among given facts. -/
structure Tracks (s : Store) (V : Set Fact) : Prop where
  /-- Facts are kept under their own digests. -/
  addressed : s.storage.Addressed
  /-- The stored facts are among the given ones. -/
  content : s.content ⊆ V
  /-- The index describes some of the given facts, stored or not. -/
  index : ∃ B ⊆ V, s.index.Describes B

theorem Coherent.tracks (h : s.Coherent) (hV : s.content ⊆ V) : s.Tracks V :=
  ⟨h.addressed, hV, s.content, hV, h.index⟩

namespace Tracks

theorem insert (h : s.Tracks V) (hf : f ∈ V) {new : Bool} (hi : s.insert f = .ok (s', id, new)) :
    s'.Tracks V := by
  rcases insert_cases hi with ⟨-, rfl⟩ | ⟨hfresh, storage, hstorage, rfl⟩
  · exact h
  · obtain ⟨B, hBV, hB⟩ := h.index
    have hnew : ∀ g ∈ B, g.digest ≠ f.digest := fun g hg heq => hfresh ((hB.ids _).2 ⟨g, hg, heq⟩)
    refine ⟨h.addressed.put hstorage, fun g hg => ?_, _, Set.insert_subset hf hBV, hB.add hnew⟩
    rcases (h.addressed.mem_content_put hstorage).1 hg with rfl | hg
    · exact hf
    · exact h.content hg.1

theorem remove (h : s.Tracks V) (inj : Set.InjOn Fact.digest V) {existed : Bool}
    (hr : s.remove id = .ok (s', existed)) : s'.Tracks V := by
  obtain ⟨herase, hindex⟩ := remove_eq_ok hr
  obtain ⟨B, hBV, hB⟩ := h.index
  have hsubset : {g ∈ B | g.digest ≠ id} ⊆ V := fun g hg => hBV hg.1
  refine ⟨h.addressed.erase herase,
    fun g hg => h.content ((h.addressed.mem_content_erase herase).1 hg).1, _, hsubset, ?_⟩
  rcases hindex with ⟨f, hget, hindex⟩ | hindex
  · obtain ⟨hf, rfl⟩ := (h.addressed.of_get hget).1 rfl
    rw [hindex]
    -- If the digest is in the index, it was put there for this very fact.
    by_cases hid : s.index.contains f.digest = true
    · obtain ⟨g, hg, heq⟩ := hB.contains_iff.1 hid
      obtain rfl := inj (hBV hg) (h.content hf) heq
      exact hB.remove (inj.mono hBV) hg
    · rw [Index.remove, if_neg hid]
      refine hB.congr fun g => ⟨fun hg => ⟨hg, fun heq => hid ?_⟩, fun hg => hg.1⟩
      exact hB.contains_iff.2 ⟨g, hg, heq⟩
  · exact hindex ▸ hB.forget id

theorem rebuild (h : s.Tracks V) {count : Nat} (hr : s.rebuild = .ok (s', count)) :
    s'.Tracks V := by
  obtain ⟨hs', hstorage⟩ := coherent_of_rebuild h.addressed hr
  exact hs'.tracks (by rw [Store.content, hstorage]; exact h.content)

theorem perform (h : s.Tracks V) (inj : Set.InjOn Fact.digest V) (hr : ∀ f ∈ r.facts, f ∈ V) :
    (s.perform r).1.Tracks V := by
  refine perform_induction (P := (Tracks · V)) r ?_ ?_ ?_ h
  · intro s s' f id new hf hs hi
    exact hs.insert (hr f (mem_facts_of_candidates hf)) hi
  · intro s s' id existed hs hremove
    exact hs.remove inj hremove
  · intro s s' count hs hrebuild
    exact hs.rebuild hrebuild

theorem step (h : s.Tracks V) (inj : Set.InjOn Fact.digest V) (hown : ∀ c, st = .change c → c.Own)
    (hst : ∀ f ∈ st.facts, f ∈ V) : (s.step st).Tracks V := by
  cases st with
  | request r => exact h.perform inj hst
  | change c =>
    refine ⟨h.addressed.perform (hown c rfl), fun f hf => ?_, h.index⟩
    exact (h.addressed.of_mem_content_perform (hown c rfl) hf).elim (h.content ·) (hst f)
  | wait time =>
    refine ⟨h.addressed.setTime time, ?_, h.index⟩
    rw [Store.content, Store.step, Storage.content_setTime]
    exact h.content
  | close =>
    exact ⟨h.addressed.close, Storage.content_close_subset.trans h.content, h.index⟩

theorem after (h : s.Tracks V) (inj : Set.InjOn Fact.digest V)
    (hown : ∀ c, .change c ∈ steps → c.Own) (hsteps : ∀ st ∈ steps, ∀ f ∈ st.facts, f ∈ V) :
    (s.after steps).Tracks V := by
  refine List.foldlRecOn (motive := (Tracks · V)) steps Store.step h fun s hs st hst => ?_
  exact hs.step inj (fun c hc => hown c (hc ▸ hst)) (hsteps st hst)

/-- A stored fact that a query accepts is found, unless it is looked for in the index, which misses
it; nothing else is found. -/
theorem mem_find_iff (h : s.Tracks V) (inj : Set.InjOn Fact.digest V)
    (hq : ∀ f, q.fact? = some f → f ∈ V) {l : List Fact} (hl : s.find q = .ok l) :
    f ∈ l ↔ s.storage.get f.digest = .ok (some f) ∧ q.accepts f = true ∧
      (q.Partial → f.digest ∈ s.index.ids) := by
  obtain ⟨B, hBV, hB⟩ := h.index
  constructor
  · intro hf
    obtain ⟨hcontent, haccepts⟩ := of_mem_find h.addressed
      (fun g hg g' hg' heq => inj (h.content hg') (hq g hg) heq) hl hf
    have ho := isOpen_of_mem_find hl hf
    refine ⟨h.addressed.get_of_mem ho hcontent, haccepts, fun hpartial => ?_⟩
    rcases find_cases hl with ⟨hany, -⟩ | ⟨g, -, hg, -⟩ | ⟨-, ids, hids, hselect⟩
    · rw [hpartial.1] at hany
      cases hany
    · rw [hpartial.2] at hg
      cases hg
    · obtain ⟨-, id, hid, hget⟩ := (mem_select hselect).1 hf
      rw [((h.addressed.of_get hget).1 rfl).2]
      exact (hB.of_mem_candidates hids hid).1
  · rintro ⟨hget, haccepts, hindex⟩
    have hcontent := ((h.addressed.of_get hget).1 rfl).1
    refine mem_find_of_describes h.addressed hB hl hcontent haccepts fun hpartial => ?_
    obtain ⟨g, hg, heq⟩ := (hB.ids _).1 (hindex hpartial)
    exact inj (hBV hg) (h.content hcontent) heq ▸ hg

end Tracks

theorem exists_opened (ho : storage.isOpen = true) (hstorage : storage.Addressed) :
    ∃ s, opened (some storage) = .ok s ∧ s.Coherent ∧ s.Kept ∧ s.content = storage.content := by
  have hbare : Kept { storage } := ⟨hstorage, ho, Index.filled_empty⟩
  obtain ⟨s, hr, -⟩ := exists_rebuild hbare.isOpen
  obtain ⟨hs, hsame⟩ := coherent_of_rebuild hstorage hr
  have hkept : s.Kept := by
    have h := hbare.perform .rebuild
    rwa [perform, hr] at h
  have hopened : opened (some storage) = .ok s := by
    rw [opened, hr]
    rfl
  exact ⟨s, hopened, hs, hkept, congrArg Storage.content hsame⟩

theorem Coherent.tracks_after {later : List Step} (hs : s.Coherent)
    (hcontent : s.content = storage.content) (hown : ∀ c, .change c ∈ steps → c.Own)
    (inj : Set.InjOn Fact.digest (occurring storage (steps ++ later))) :
    (s.after steps).Tracks (occurring storage (steps ++ later)) := by
  refine (hs.tracks fun f hf => .inl (hcontent ▸ hf)).after inj hown fun st hst f hf => ?_
  exact .inr ⟨st, List.mem_append_left later hst, hf⟩

/-! ## Finding -/

/-- A store is opened over a storage of any kind that is open and keeps facts under their own
digests. However it is used then, and whatever facts are put under their own digests or taken away
behind its back, a query finds what is stored and accepted, each fact once, except that a query
which leaves some fields open and some not misses the facts that are not in the index. Until the
store is closed, every query within the limit is answered. -/
theorem find_with_stale_index (ho : storage.isOpen = true) (hstorage : storage.Addressed) :
    ∃ s, opened (some storage) = .ok s ∧ ∀ steps q, (∀ c, .change c ∈ steps → c.Own) →
      Set.InjOn Fact.digest (occurring storage (steps ++ [.request (.find q)])) →
      (∀ l, (s.after steps).find q = .ok l → l.Nodup ∧ ∀ f, f ∈ l ↔
        (s.after steps).storage.get f.digest = .ok (some f) ∧ q.accepts f = true ∧
          (q.Partial → f.digest ∈ (s.after steps).index.ids)) ∧
      (.close ∉ steps → (Request.find q).WithinLimit → ∃ l, (s.after steps).find q = .ok l) := by
  obtain ⟨s, hopened, hs, hkept, hcontent⟩ := exists_opened ho hstorage
  refine ⟨s, hopened, fun steps q hown inj => ?_⟩
  have htracks := hs.tracks_after hcontent hown inj
  refine ⟨fun l hl => ⟨?_, fun f => ?_⟩, fun hclose hq => ?_⟩
  · obtain ⟨B, -, hB⟩ := htracks.index
    exact nodup_find_of_describes htracks.addressed hB hl
  · refine htracks.mem_find_iff inj (fun g hg => .inr ⟨.request (.find q), by simp, ?_⟩) hl
    simp [Step.facts, Request.facts, hg]
  · have hkept' := hkept.after hown hclose
    exact exists_find hkept'.addressed hkept'.isOpen hq

/-- Of three facts one is stored and found, one is not found because it was put behind the back of
the store, and one is gone although it is in the index. -/
theorem find_with_stale_index_drifted :
    let f : Fact := ⟨.named "a", "p", .named "b"⟩
    let g : Fact := ⟨.named "a", "q", .named "b"⟩
    let h : Fact := ⟨.named "a", "p", .integer 1⟩
    let steps : List Step := [.request (.insert f), .change (.put g.digest g),
      .change (.erase f.digest), .request (.insert h)]
    ∃ s l, opened (some (.memory {})) = .ok s ∧
      (s.after steps).find (.leaving (.named "a") none) = .ok l ∧ h ∈ l ∧ g ∉ l ∧ f ∉ l ∧
      (s.after steps).get g.digest = .ok (some g) ∧ f.digest ∈ (s.after steps).index.ids := by
  intro f g h steps
  obtain ⟨s, hopened, hfind⟩ := @find_with_stale_index (.memory {}) rfl
    (coherent_of_items_eq_nil rfl).1.addressed
  have hs : opened (some (.memory {})) = .ok { storage := .memory {} } := rfl
  cases hs.symm.trans hopened
  have hown : ∀ c, .change c ∈ steps → c.Own := by simp [steps, Journal.Change.Own]
  have hdigests : ([f, g, h].map Fact.digest).Nodup := by decide +kernel
  have inj : Set.InjOn Fact.digest (occurring (.memory {})
      (steps ++ [.request (.find (.leaving (.named "a") none))])) :=
    injOn_occurring_of_nodup rfl (by decide) hdigests
  obtain ⟨hfound, hanswers⟩ := hfind steps (.leaving (.named "a") none) hown inj
  have hlimit : (Request.find (.leaving (.named "a") none)).WithinLimit := by
    simp [Request.WithinLimit, Query.leaving, Value.WithinLimit, Value.fields, Node.fields]
    decide
  obtain ⟨l, hl⟩ := hanswers (by simp [steps]) hlimit
  have hmem := (hfound l hl).2
  have hstored : (after { storage := .memory {} } steps).storage.get h.digest = .ok (some h) ∧
      (after { storage := .memory {} } steps).storage.get f.digest = .ok none ∧
      (after { storage := .memory {} } steps).storage.get g.digest = .ok (some g) := by
    decide +kernel
  have hids : f.digest ∈ (after { storage := .memory {} } steps).index.ids ∧
      g.digest ∉ (after { storage := .memory {} } steps).index.ids ∧
      h.digest ∈ (after { storage := .memory {} } steps).index.ids := by
    decide +kernel
  refine ⟨_, l, hopened, hl, ?_, ?_, ?_, hstored.2.2, hids.1⟩
  · exact (hmem h).2 ⟨hstored.1, by decide, fun _ => hids.2.2⟩
  · exact fun hg => hids.2.1 (((hmem g).1 hg).2.2 ⟨rfl, rfl⟩)
  · intro hf
    rw [hmem, hstored.2.1] at hf
    cases hf.1

end Store
end FactGraph
