import FactGraph.Proofs.Canonical
import FactGraph.Proofs.Interchange

/-!
# Numbers about stores

The numbers about a store are lengths of its index, so they are right if the index sorts the stored
facts into buckets, one for every part that a fact has, and no bucket is empty (`Index.Sorts`). A
bucket goes with its last digest, whatever is asked of a store (`Store.Kept`). The index describes the
stored facts unless the storage was changed behind its back, and it does so again when it is made
anew.

A closed store keeps its index, but it can no longer tell the numbers.
-/

namespace FactGraph

/-! ## Buckets that are not empty -/

namespace Buckets

variable {b : Buckets} {key : Text} {id : Digest}

/-- Whether no bucket is empty. -/
def Filled (b : Buckets) : Prop := ∀ e ∈ b.entries, e.2.items ≠ []

theorem filled_empty : Filled {} := by simp [Filled]

theorem insertId_ne_nil (ids : Grouping Digest) (id : Digest) : (insertId ids id).items ≠ [] :=
  List.ne_nil_of_mem (mem_insertId.2 (.inl rfl))

theorem Filled.insert (h : b.Filled) (key : Text) (id : Digest) : (b.insert key id).Filled := by
  obtain ⟨entries⟩ := b
  rw [Filled, Buckets.insert]
  rw [Filled] at h
  induction entries with
  | nil => simpa [insertEntry] using insertId_ne_nil {} id
  | cons e rest ih =>
    rw [List.forall_mem_cons] at h
    rw [insertEntry]
    split
    · exact List.forall_mem_cons.2 ⟨insertId_ne_nil e.2 id, h.2⟩
    · exact List.forall_mem_cons.2 ⟨h.1, ih h.2⟩

theorem without_ne_nil {e e' : Text × Grouping Digest} (h : without id e = some e') :
    e'.2.items ≠ [] := by
  simp only [without] at h
  split at h
  · cases h
  · next hne =>
    rw [← Option.some.inj h]
    exact fun hnil => hne (List.isEmpty_iff.2 hnil)

theorem Filled.erase (h : b.Filled) (key : Text) (id : Digest) : (b.erase key id).Filled := by
  intro e' he'
  obtain ⟨e, he, hchange⟩ := List.mem_filterMap.1 he'
  split at hchange
  · exact without_ne_nil hchange
  · exact Option.some.inj hchange ▸ h e he

theorem filled_forget (b : Buckets) (id : Digest) : (b.forget id).Filled := by
  intro e' he'
  obtain ⟨e, -, hchange⟩ := List.mem_filterMap.1 he'
  exact without_ne_nil hchange

end Buckets

/-! ## Facts in buckets -/

namespace Buckets

variable {α : Type} [DecidableEq α] {b : Buckets} {A : Finset Fact} {keyOf : α → Text}
  {part : Fact → α}

/-- Whether buckets sort facts by a part of theirs: every bucket is that of a part which a fact has,
and holds the digests of the facts which have it. -/
structure Sorts (b : Buckets) (A : Finset Fact) (keyOf : α → Text) (part : Fact → α) : Prop where
  /-- There are as many buckets as parts. -/
  size : b.size = (A.image part).card
  /-- No bucket is empty. -/
  filled : b.Filled
  /-- Every part has a bucket with the digests of the facts that have it, each once. -/
  bucket : ∀ f ∈ A, ∃ ids, b.get? (keyOf (part f)) = some ids ∧ ids.Nodup ∧
    ∀ id, id ∈ ids ↔ ∃ g ∈ A, part g = part f ∧ g.digest = id
  /-- There are no other buckets. -/
  part : ∀ e ∈ b.entries, ∃ f ∈ A, e.1 = keyOf (part f)

/-- Buckets that hold which fact has which key sort the facts, if none is empty and keys tell parts
apart. -/
theorem Holds.sorts (h : b.Holds (Keyed A fun f => keyOf (part f))) (hfilled : b.Filled)
    (inj : Set.InjOn keyOf (part '' A)) : b.Sorts A keyOf part := by
  have hpart : ∀ e ∈ b.entries, ∃ f ∈ A, e.1 = keyOf (part f) := by
    intro e he
    obtain ⟨id, hid⟩ := List.exists_mem_of_ne_nil _ (hfilled e he)
    obtain ⟨f, hf, hkey, -⟩ := (h.iff e.1 id).1 ⟨e, he, rfl, hid⟩
    exact ⟨f, hf, hkey.symm⟩
  refine ⟨?_, hfilled, fun f hf => ?_, hpart⟩
  · have hkeys : (b.entries.map Prod.fst).toFinset = (A.image part).image keyOf := by
      ext key
      simp only [List.mem_toFinset, List.mem_map, Finset.mem_image, exists_exists_and_eq_and]
      constructor
      · rintro ⟨e, he, rfl⟩
        obtain ⟨f, hf, hkey⟩ := hpart e he
        exact ⟨f, hf, hkey.symm⟩
      · rintro ⟨f, hf, rfl⟩
        obtain ⟨e, he, hkey, -⟩ := (h.iff (keyOf (part f)) f.digest).2 ⟨f, hf, rfl, rfl⟩
        exact ⟨e, he, hkey⟩
    have hinj : Set.InjOn keyOf (A.image part : Finset α) := by rwa [Finset.coe_image]
    rw [Buckets.size, ← List.length_map (f := Prod.fst),
      ← List.toFinset_card_of_nodup h.nodup_keys, hkeys, Finset.card_image_of_injOn hinj]
  · have hkeyed : Keyed A (fun f => keyOf (part f)) (keyOf (part f)) f.digest := ⟨f, hf, rfl, rfl⟩
    cases hids : b.get? (keyOf (part f)) with
    | none => exact absurd hkeyed (h.of_get?_eq_none hids)
    | some ids =>
      obtain ⟨nodup, hmem⟩ := h.of_get? hids
      refine ⟨ids, rfl, nodup, fun id => ?_⟩
      rw [hmem]
      constructor
      · rintro ⟨g, hg, hkey, rfl⟩
        exact ⟨g, hg, inj ⟨g, hg, rfl⟩ ⟨f, hf, rfl⟩ hkey, rfl⟩
      · rintro ⟨g, hg, hpart, rfl⟩
        exact ⟨g, hg, congrArg keyOf hpart, rfl⟩

end Buckets

namespace Index

variable {x : Index} {A : Finset Fact} {f : Fact} {id : Digest}

/-- Whether no bucket of an index is empty. -/
structure Filled (x : Index) : Prop where
  /-- Every subject has a digest. -/
  subjects : x.bySubject.Filled
  /-- Every predicate has a digest. -/
  predicates : x.byPredicate.Filled
  /-- Every object has a digest. -/
  objects : x.byObject.Filled

theorem filled_empty : Filled {} :=
  ⟨Buckets.filled_empty, Buckets.filled_empty, Buckets.filled_empty⟩

theorem Filled.add (h : x.Filled) (id : Digest) (f : Fact) : (x.add id f).Filled := by
  rw [Index.add]
  split
  · exact h
  · exact ⟨h.subjects.insert _ id, h.predicates.insert _ id, h.objects.insert _ id⟩

theorem Filled.remove (h : x.Filled) (id : Digest) (f : Fact) : (x.remove id f).Filled := by
  rw [Index.remove]
  split
  · exact ⟨h.subjects.erase _ id, h.predicates.erase _ id, h.objects.erase _ id⟩
  · exact h

theorem Filled.forget (h : x.Filled) (id : Digest) : (x.forget id).Filled := by
  rw [Index.forget]
  split
  · exact ⟨Buckets.filled_forget _ id, Buckets.filled_forget _ id, Buckets.filled_forget _ id⟩
  · exact h

theorem filled_ofFacts (facts : List Fact) : (ofFacts facts).Filled :=
  List.foldlRecOn facts _ filled_empty fun _ h f _ => h.add f.digest f

/-- Whether an index has the digests of finitely many facts, each once, and sorts them by subject, by
predicate and by object. -/
structure Sorts (x : Index) (A : Finset Fact) : Prop where
  /-- No digest occurs twice. -/
  nodup : x.ids.Nodup
  /-- The digests are those of the facts. -/
  ids : ∀ id, id ∈ x.ids ↔ ∃ f ∈ A, f.digest = id
  /-- The buckets by subject. -/
  subjects : x.bySubject.Sorts A Encoding.nodeBytes Fact.subject
  /-- The buckets by predicate. -/
  predicates : x.byPredicate.Sorts A (fun p => p) Fact.predicate
  /-- The buckets by object. -/
  objects : x.byObject.Sorts A Encoding.valueBytes Fact.object

theorem injOn_nodeBytes : Set.InjOn Encoding.nodeBytes {n | (Value.node n).WithinLimit} := by
  intro m hm n hn h
  rw [← Encoding.prefixFree_nodeKey.encode_inj hm hn, Encoding.nodeKey_eq_ok.2 ⟨hm, rfl⟩,
    Encoding.nodeKey_eq_ok.2 ⟨hn, rfl⟩, h]

theorem injOn_valueBytes : Set.InjOn Encoding.valueBytes {v | v.WithinLimit} := by
  intro v hv w hw h
  rw [← Encoding.prefixFree_valueKey.encode_inj hv hw, Encoding.valueKey_eq_ok.2 ⟨hv, rfl⟩,
    Encoding.valueKey_eq_ok.2 ⟨hw, rfl⟩, h]

/-- An index that describes facts within the limit sorts them, if no bucket is empty. -/
theorem Describes.sorts (h : x.Describes A) (hfilled : x.Filled) (hA : ∀ f ∈ A, f.WithinLimit) :
    x.Sorts A where
  nodup := h.nodup
  ids := h.ids
  subjects := h.subjects.sorts hfilled.subjects <| injOn_nodeBytes.mono <| by
    rintro - ⟨f, hf, rfl⟩
    exact Fact.withinLimit_iff.1 (hA f hf) _ (by simp [Fact.values])
  predicates := @Buckets.Holds.sorts Text _ _ A (fun p => p) Fact.predicate h.predicates
    hfilled.predicates Function.injective_id.injOn
  objects := h.objects.sorts hfilled.objects <| injOn_valueBytes.mono <| by
    rintro - ⟨f, hf, rfl⟩
    exact Fact.withinLimit_iff.1 (hA f hf) _ (by simp [Fact.values])

end Index

/-! ## Steps -/

/-- Whether a change puts a fact under its own digest, if it puts one. -/
def Journal.Change.Own : Journal.Change → Prop
  | put id f => id = f.digest
  | erase _ => True

namespace Storage

variable {s : Storage}

@[simp] theorem isOpen_putBytes (s : Storage) (id : Digest) (bytes : Text) :
    (s.putBytes id bytes).isOpen = s.isOpen := by
  cases s <;> rfl

@[simp] theorem isOpen_eraseBytes (s : Storage) (id : Digest) :
    (s.eraseBytes id).isOpen = s.isOpen := by
  cases s with
  | memory m => rfl
  | journal j =>
    rw [eraseBytes, Journal.erase]
    split <;> rfl
  | table t =>
    rw [eraseBytes, Table.erase]
    split <;> rfl

theorem isOpen_perform (c : Journal.Change) (s : Storage) : (c.perform s).isOpen = s.isOpen := by
  cases c with
  | put id f =>
    cases h : s.put id f with
    | error e => simp [Journal.Change.perform, h, Except.toOption]
    | ok s' =>
      obtain ⟨-, -, -, rfl⟩ := put_eq_ok.1 h
      simp [Journal.Change.perform, h, Except.toOption]
  | erase id =>
    cases h : s.erase id with
    | error e => simp [Journal.Change.perform, h, Except.toOption, Except.map]
    | ok r =>
      obtain ⟨-, -, hr, -⟩ := erase_eq_ok.1 h
      simp [Journal.Change.perform, h, Except.toOption, Except.map, hr]

theorem Addressed.perform (h : s.Addressed) {c : Journal.Change} (hown : c.Own) :
    (c.perform s).Addressed := by
  cases c with
  | put id f =>
    obtain rfl : id = f.digest := hown
    cases hput : s.put f.digest f with
    | error e => simpa [Journal.Change.perform, hput, Except.toOption] using h
    | ok s' => simpa [Journal.Change.perform, hput, Except.toOption] using h.put hput
  | erase id =>
    cases herase : s.erase id with
    | error e => simpa [Journal.Change.perform, herase, Except.toOption, Except.map] using h
    | ok r => simpa [Journal.Change.perform, herase, Except.toOption, Except.map] using h.erase herase

theorem exists_size (ho : s.isOpen = true) : ∃ n, s.size = .ok n :=
  ⟨_, bind_eq_ok.2 ⟨_, check_eq_ok.2 ho, rfl⟩⟩

theorem Addressed.setTime (h : s.Addressed) (time : UInt64) :
    (Journal.setTime time s).Addressed := by
  rwa [Addressed, cells_setTime]

theorem content_setTime (time : UInt64) (s : Storage) :
    (Journal.setTime time s).content = s.content := by
  rw [content, content, cells_setTime]

end Storage

namespace Store

/-- What can happen to a store and to the storage under it. -/
inductive Step where
  /-- A request to the store. -/
  | request (r : Request)
  /-- A change of the storage behind the back of the store. -/
  | change (c : Journal.Change)
  /-- The passing of time. -/
  | wait (time : UInt64)
  /-- The end of the use of the storage. -/
  | close

/-- The store after a step. -/
def step (s : Store) : Step → Store
  | .request r => (s.perform r).1
  | .change c => { s with storage := c.perform s.storage }
  | .wait time => { s with storage := Journal.setTime time s.storage }
  | .close => s.close

/-- The store after steps. -/
def after (s : Store) (steps : List Step) : Store := steps.foldl step s

/-- Whether every change behind the back of the store is followed, at some time, by making the index
anew. -/
def Settled (steps : List Step) : Prop :=
  ∀ before c later, steps = before ++ .change c :: later → .request .rebuild ∈ later

variable {s s' : Store} {storage : Storage} {id : Digest} {f : Fact} {steps : List Step}

theorem after_append (s : Store) (steps later : List Step) :
    s.after (steps ++ later) = (s.after steps).after later :=
  List.foldl_append

theorem Settled.of_concat {st : Step} (h : Settled (steps ++ [st])) (hst : st ≠ .request .rebuild) :
    Settled steps := by
  rintro before c later rfl
  have hmem := h before c (later ++ [st]) (by simp)
  rw [List.mem_append, List.mem_singleton] at hmem
  exact hmem.resolve_right fun heq => hst heq.symm

theorem not_settled_concat_change (steps : List Step) (c : Journal.Change) :
    ¬ Settled (steps ++ [.change c]) :=
  fun h => List.not_mem_nil (h steps c [] rfl)

/-- Making the index anew settles all changes before it. -/
theorem settled_append_rebuild (steps : List Step) {later : List Step}
    (h : ∀ c, .change c ∉ later) : Settled (steps ++ .request .rebuild :: later) := by
  intro before c rest heq
  rcases List.append_eq_append_iff.1 heq with ⟨between, -, hlater⟩ | ⟨between, -, hrest⟩
  · cases between with
    | nil => cases hlater
    | cons st between =>
      obtain ⟨-, rfl⟩ := List.cons.inj hlater
      exact absurd (by simp) (h c)
  · cases between with
    | nil => cases hrest
    | cons st between =>
      obtain ⟨-, rfl⟩ := List.cons.inj hrest
      simp

/-! ## What steps keep -/

/-- Whether a store can be used, keeps facts under their own digests, and has no empty bucket. -/
structure Kept (s : Store) : Prop where
  /-- Facts are kept under their own digests. -/
  addressed : s.storage.Addressed
  /-- The storage is open. -/
  isOpen : s.storage.isOpen = true
  /-- No bucket is empty. -/
  filled : s.index.Filled

theorem Kept.perform (h : s.Kept) (r : Request) : (s.perform r).1.Kept := by
  refine perform_induction r ?_ ?_ ?_ h
  · intro s s' f id new _ hs hi
    obtain ⟨-, -, -, hold, hput⟩ := insert_eq_ok hi
    cases new with
    | false => exact hold rfl ▸ hs
    | true =>
      obtain ⟨storage, hstorage, rfl⟩ := hput rfl
      refine ⟨hs.addressed.put hstorage, ?_, hs.filled.add _ f⟩
      obtain ⟨-, ho, -, rfl⟩ := Storage.put_eq_ok.1 hstorage
      rwa [Storage.isOpen_putBytes]
  · intro s s' id existed hs hr
    obtain ⟨herase, hindex⟩ := remove_eq_ok hr
    refine ⟨hs.addressed.erase herase, ?_, ?_⟩
    · obtain ⟨ho, -, hstorage, -⟩ := Storage.erase_eq_ok.1 herase
      rwa [hstorage, Storage.isOpen_eraseBytes]
    · rcases hindex with ⟨f, -, hindex⟩ | hindex
      · exact hindex ▸ hs.filled.remove id f
      · exact hindex ▸ hs.filled.forget id
  · intro s s' count hs hr
    obtain ⟨facts, -, rfl⟩ := rebuild_eq_ok hr
    exact ⟨hs.addressed, hs.isOpen, Index.filled_ofFacts facts⟩

theorem Kept.step (h : s.Kept) {st : Step} (hown : ∀ c, st = .change c → c.Own)
    (hclose : st ≠ .close) : (s.step st).Kept := by
  cases st with
  | request r => exact h.perform r
  | change c =>
    exact ⟨h.addressed.perform (hown c rfl), (Storage.isOpen_perform c s.storage).trans h.isOpen,
      h.filled⟩
  | wait time =>
    exact ⟨h.addressed.setTime time, (Storage.isOpen_setTime time s.storage).trans h.isOpen,
      h.filled⟩
  | close => exact absurd rfl hclose

theorem Kept.after (h : s.Kept) (hown : ∀ c, .change c ∈ steps → c.Own)
    (hclose : .close ∉ steps) : (s.after steps).Kept := by
  induction steps using List.reverseRecOn with
  | nil => exact h
  | append_singleton steps st ih =>
    rw [after_append]
    simp only [List.mem_append, List.mem_singleton, not_or] at hown hclose
    exact (ih (fun c hc => hown c (.inl hc)) hclose.1).step (fun c hc => hown c (.inr hc.symm))
      fun heq => hclose.2 heq.symm

theorem Kept.coherent_rebuild (h : s.Kept) : (s.step (.request .rebuild)).Coherent := by
  obtain ⟨s', hr, -⟩ := exists_rebuild h.isOpen
  rw [Store.step, Store.perform, hr]
  exact (coherent_of_rebuild h.addressed hr).1

theorem Coherent.step (h : s.Coherent) {st : Step} (hchange : ∀ c, st ≠ .change c)
    (hclose : st ≠ .close) : (s.step st).Coherent := by
  cases st with
  | request r =>
    exact perform_induction r (fun _ _ _ _ _ _ hs hi => (hs.of_insert hi).1)
      (fun _ _ _ _ hs hr => (hs.of_remove hr).1)
      (fun _ _ _ hs hr => (coherent_of_rebuild hs.addressed hr).1) h
  | change c => exact absurd rfl (hchange c)
  | wait time =>
    refine ⟨h.addressed.setTime time, ?_⟩
    rw [content, Store.step, Storage.content_setTime]
    exact h.index
  | close => exact absurd rfl hclose

/-- A run of steps leaves the index describing what is stored, if it did so and the index is made anew
behind every change of the storage. -/
theorem Coherent.after (h : s.Coherent) (hkept : s.Kept) (hown : ∀ c, .change c ∈ steps → c.Own)
    (hclose : .close ∉ steps) (hsettled : Settled steps) : (s.after steps).Coherent := by
  induction steps using List.reverseRecOn with
  | nil => exact h
  | append_singleton steps st ih =>
    rw [after_append]
    simp only [List.mem_append, List.mem_singleton, not_or] at hown hclose
    by_cases hst : st = .request .rebuild
    · rw [hst]
      exact (hkept.after (fun c hc => hown c (.inl hc)) hclose.1).coherent_rebuild
    · refine (ih (fun c hc => hown c (.inl hc)) hclose.1 (hsettled.of_concat hst)).step ?_
        fun heq => hclose.2 heq.symm
      rintro c rfl
      exact not_settled_concat_change steps c hsettled

/-! ## Closed stores -/

/-- A closed store stays as it is, as far as its index is concerned. -/
theorem step_of_closed (h : s.storage.isOpen = false) (st : Step) :
    (s.step st).index = s.index ∧ (s.step st).storage.isOpen = false := by
  cases st with
  | request r =>
    refine @perform_induction s (fun s' => s'.index = s.index ∧ s'.storage.isOpen = false) r
      ?_ ?_ ?_ ⟨rfl, h⟩
    · rintro s₁ s' f id new - ⟨hindex, hs⟩ hi
      obtain ⟨-, -, -, hold, hput⟩ := insert_eq_ok hi
      cases new with
      | false => exact hold rfl ▸ ⟨hindex, hs⟩
      | true =>
        obtain ⟨storage, hstorage, -⟩ := hput rfl
        rw [(Storage.put_eq_ok.1 hstorage).2.1] at hs
        cases hs
    · rintro s₁ s' id existed ⟨-, hs⟩ hr
      rw [(Storage.erase_eq_ok.1 (remove_eq_ok hr).1).1] at hs
      cases hs
    · rintro s₁ s' count ⟨-, hs⟩ hr
      obtain ⟨facts, hfacts, -⟩ := rebuild_eq_ok hr
      obtain ⟨_, hcheck, -⟩ := bind_eq_ok.1 hfacts
      rw [Storage.check_eq_ok.1 hcheck] at hs
      cases hs
  | change c => exact ⟨rfl, (Storage.isOpen_perform c s.storage).trans h⟩
  | wait time => exact ⟨rfl, (Storage.isOpen_setTime time s.storage).trans h⟩
  | close => exact ⟨rfl, Storage.isOpen_close s.storage⟩

theorem after_of_closed (h : s.storage.isOpen = false) (steps : List Step) :
    (s.after steps).index = s.index ∧ (s.after steps).storage.isOpen = false := by
  induction steps generalizing s with
  | nil => exact ⟨rfl, h⟩
  | cons st steps ih =>
    obtain ⟨hindex, hopen⟩ := step_of_closed h st
    obtain ⟨hindex', hopen'⟩ := ih hopen
    exact ⟨hindex'.trans hindex, hopen'⟩

theorem statistics_of_closed (h : s.storage.isOpen = false) :
    s.statistics = .error (.closed s.storage.closedText) := by
  simp [statistics, Storage.size, Storage.check_of_closed h, bind, Except.bind]

/-! ## Numbers -/

theorem Coherent.mem_ids_iff (h : s.Coherent) : id ∈ s.index.ids ↔ s.storage.cells.has id = true := by
  rw [h.index.ids, ← h.addressed.mem_ids_iff, Cells.has_iff]

/-- A coherent store has as many digests in its index as cells. -/
theorem Coherent.size_cells (h : s.Coherent) : s.storage.cells.size = s.index.size := by
  have hperm : (s.storage.cells.items.map Prod.fst).Perm s.index.ids := by
    rw [List.perm_ext_iff_of_nodup s.storage.cells.nodup_ids h.index.nodup]
    intro id
    rw [h.mem_ids_iff, Cells.has_iff, List.mem_map]
  rw [Index.size, ← hperm.length_eq, List.length_map, Cells.size]

/-- The stored facts of a coherent store with no empty bucket are finitely many facts that its index
sorts, and the numbers about the store are those of these facts. -/
theorem Coherent.exists_sorts (h : s.Coherent) (hkept : s.Kept) : ∃ A : Finset Fact,
    (∀ f, f ∈ A ↔ f ∈ s.content) ∧ s.index.Sorts A ∧
      (∀ id, id ∈ s.index.ids ↔ s.has id = .ok true) ∧ s.storage.count = .ok A.card ∧
      ∃ bytes, s.storage.size = .ok bytes ∧ s.statistics = .ok {
        facts := A.card
        subjects := (A.image Fact.subject).card
        predicates := (A.image Fact.predicate).card
        objects := (A.image Fact.object).card
        bytes } := by
  obtain ⟨facts, hfacts⟩ := Storage.exists_facts hkept.isOpen
  have hcontent : ∀ f, f ∈ facts.toFinset ↔ f ∈ s.content := fun f => by
    rw [List.mem_toFinset, (hkept.addressed.of_facts hfacts).2]
  have hdescribes : s.index.Describes facts.toFinset := h.index.congr fun f => (hcontent f).symm
  have hsorts : s.index.Sorts facts.toFinset :=
    hdescribes.sorts hkept.filled fun f hf => Storage.withinLimit_of_mem ((hcontent f).1 hf)
  have hsize : s.index.size = facts.toFinset.card := hdescribes.size_eq fun f hf g hg heq =>
    hkept.addressed.injOn_digest ((hcontent f).1 hf) ((hcontent g).1 hg) heq
  have hcheck := Storage.check_eq_ok.2 hkept.isOpen
  obtain ⟨bytes, hbytes⟩ := Storage.exists_size hkept.isOpen
  refine ⟨facts.toFinset, hcontent, hsorts, fun id => ?_, ?_, bytes, hbytes, ?_⟩
  · rw [h.mem_ids_iff]
    simp [Store.has, Storage.has, hcheck, bind, Except.bind, pure, Except.pure]
  · rw [Storage.count, hcheck, h.size_cells, hsize]
    rfl
  · rw [statistics, hbytes, hsize, hsorts.subjects.size, hsorts.predicates.size,
      hsorts.objects.size]
    rfl

/-- A store is opened over a storage of any kind that is open and has no cells. However it is used
then, and whatever facts are put under their own digests or taken away behind its back, its index has
the digests that the storage has, sorts the stored facts by their parts and gives their numbers, as
soon as it is made anew behind the last such change. Once the store is closed, its index stays as it
was and the numbers are refused. -/
theorem numbers_stored_facts {storage : Storage} (ho : storage.isOpen = true)
    (hempty : storage.cells.items = []) : ∃ s, opened (some storage) = .ok s ∧
      (∀ steps, .close ∉ steps → (∀ c, .change c ∈ steps → c.Own) → Settled steps →
        ∃ A : Finset Fact, (∀ f, f ∈ A ↔ f ∈ (s.after steps).content) ∧
          (s.after steps).index.Sorts A ∧
          (∀ id, id ∈ (s.after steps).index.ids ↔ (s.after steps).has id = .ok true) ∧
          (s.after steps).storage.count = .ok A.card ∧
          ∃ bytes, (s.after steps).storage.size = .ok bytes ∧ (s.after steps).statistics = .ok {
            facts := A.card
            subjects := (A.image Fact.subject).card
            predicates := (A.image Fact.predicate).card
            objects := (A.image Fact.object).card
            bytes }) ∧
      ∀ steps later, (s.after (steps ++ .close :: later)).index = (s.after steps).index ∧
        ∃ e, (s.after (steps ++ .close :: later)).statistics = .error e ∧ e.kind = .unavailable := by
  have haddressed : storage.Addressed := (coherent_of_items_eq_nil hempty).1.addressed
  have hempty : Kept { storage } := ⟨haddressed, ho, Index.filled_empty⟩
  obtain ⟨s, hr, -⟩ := exists_rebuild hempty.isOpen
  have hcoherent := (coherent_of_rebuild haddressed hr).1
  have hkept : s.Kept := by
    have h := hempty.perform .rebuild
    rwa [perform, hr] at h
  refine ⟨s, ?_, ?_, ?_⟩
  · rw [opened, hr]
    rfl
  · intro steps hclose hown hsettled
    exact (hcoherent.after hkept hown hclose hsettled).exists_sorts (hkept.after hown hclose)
  · intro steps later
    rw [after_append]
    generalize after _ steps = s
    have hclose : s.close.storage.isOpen = false := Storage.isOpen_close s.storage
    obtain ⟨hindex, hclosed⟩ := after_of_closed hclose later
    exact ⟨hindex, _, statistics_of_closed hclosed, rfl⟩

/-- Over a storage in memory two facts are put behind the back of a store that has one, which is taken
away in the same way. -/
theorem numbers_stored_facts_rebuilt :
    let f : Fact := ⟨.named "a", "p", .named "b"⟩
    let g : Fact := ⟨.named "a", "q", .named "b"⟩
    let h : Fact := ⟨.named "b", "q", .named "b"⟩
    let steps : List Step := [.request (.insert f), .change (.put g.digest g),
      .change (.put h.digest h), .change (.erase f.digest), .request .rebuild]
    ∃ s A, opened (some (.memory {})) = .ok s ∧ (s.after steps).index.Sorts A ∧ A.card = 2 ∧
      (A.image Fact.subject).card = 2 ∧ (A.image Fact.predicate).card = 1 ∧
      (A.image Fact.object).card = 1 ∧
      ∃ e, (s.after (steps ++ [.close])).statistics = .error e ∧ e.kind = .unavailable := by
  intro f g h steps
  obtain ⟨s, hopened, hsteps, hclosed⟩ := @numbers_stored_facts (.memory {}) rfl rfl
  have hs : opened (some (.memory {})) = .ok { storage := .memory {} } := rfl
  cases hs.symm.trans hopened
  have hown : ∀ c, .change c ∈ steps → c.Own := by
    intro c hc
    simp only [steps, List.mem_cons, List.not_mem_nil, reduceCtorEq, Step.change.injEq, false_or,
      or_false] at hc
    rcases hc with rfl | rfl | rfl
    · exact rfl
    · exact rfl
    · trivial
  have hsettled : Settled steps :=
    settled_append_rebuild [.request (.insert f), .change (.put g.digest g),
      .change (.put h.digest h), .change (.erase f.digest)] (by simp)
  obtain ⟨A, -, hsorts, -, hcount, -⟩ := hsteps steps (by simp [steps]) hown hsettled
  refine ⟨_, A, hopened, hsorts, ?_, ?_, ?_, ?_, (hclosed steps []).2⟩
  · have htwo : (after { storage := .memory {} } steps).storage.count.toOption = some 2 := by
      decide +kernel
    rw [hcount] at htwo
    exact Option.some.inj htwo
  · rw [← hsorts.subjects.size]
    decide +kernel
  · rw [← hsorts.predicates.size]
    decide +kernel
  · rw [← hsorts.objects.size]
    decide +kernel

/-- In memory, a closed store has a digest in its index of which the storage knows nothing, and tells no
numbers. -/
theorem index_of_closed_store :
    let f : Fact := ⟨.named "a", "p", .named "b"⟩
    let steps : List Step := [.request (.insert f), .close]
    ∃ s, opened (some (.memory {})) = .ok s ∧ (s.after steps).index.ids = [f.digest] ∧
      (s.after steps).storage.cells.items = [] ∧ (s.after steps).statistics.toOption = none := by
  intro f steps
  exact ⟨{ storage := .memory {} }, rfl, by decide +kernel, by decide +kernel, by decide +kernel⟩

end Store

end FactGraph
