import Mathlib.Data.Set.Finite.Basic
import Mathlib.Data.Set.Function
import FactGraph.Proofs.Encoding
import FactGraph.Proofs.Lookup
import FactGraph.Storage

/-!
# What storages hold

All kinds of storage change their cells in the same way: a text that is put takes the place of the
text of its digest, and a digest that is erased has no cell any more (`Storage.mem_putBytes`,
`Storage.mem_eraseBytes`). Where every cell holds a fact under its own digest (`Storage.Addressed`),
a storage is a set of facts, from which looking up and listing read and which changes enlarge and
diminish by one fact.
-/

namespace FactGraph

/-! ## Cells -/

namespace Cells

variable {c : Cells} {id : Digest} {t : Text} {e : Digest × Text}

theorem get?_eq_some : c.get? id = some t ↔ (id, t) ∈ c.items := lookup_eq_some_iff_mem c.nodup_ids

theorem has_iff : c.has id = true ↔ ∃ e ∈ c.items, e.1 = id := by
  rw [has, Option.isSome_iff_exists]
  constructor
  · rintro ⟨t, ht⟩
    exact ⟨_, get?_eq_some.1 ht, rfl⟩
  · rintro ⟨e, he, rfl⟩
    exact ⟨e.2, get?_eq_some.2 he⟩

theorem mem_erase : e ∈ (c.erase id).items ↔ e ∈ c.items ∧ e.1 ≠ id := by
  simp [erase, Grouping.filter]

theorem mem_renew : e ∈ (c.renew id t).items ↔ e = (id, t) ∨ e ∈ c.items ∧ e.1 ≠ id := by
  rw [renew, List.mem_cons, mem_erase]

theorem mem_map_replaceItem (h : c.has id = true) :
    e ∈ c.items.map (replaceItem id t) ↔ e = (id, t) ∨ e ∈ c.items ∧ e.1 ≠ id := by
  rw [List.mem_map]
  constructor
  · rintro ⟨e', he', rfl⟩
    rw [replaceItem]
    split
    · exact Or.inl rfl
    · next hne => exact Or.inr ⟨he', fun heq => hne (beq_iff_eq.2 heq)⟩
  · rintro (rfl | ⟨he, hne⟩)
    · obtain ⟨e', he', rfl⟩ := has_iff.1 h
      exact ⟨e', he', by simp [replaceItem]⟩
    · exact ⟨e, he, by simp [replaceItem, hne]⟩

theorem mem_put : e ∈ (c.put id t).items ↔ e = (id, t) ∨ e ∈ c.items ∧ e.1 ≠ id := by
  rw [put]
  split
  · next h => exact mem_map_replaceItem h
  · next h =>
    rw [(Grouping.insert_perm ..).mem_iff, List.mem_cons]
    refine or_congr_right ⟨fun he => ⟨he, fun heq => h ?_⟩, fun he => he.1⟩
    exact has_iff.2 ⟨e, he, heq⟩

/-- Where one digest has a given text, or none, and the others are as they were, the texts by digest
are changed at that digest only. -/
theorem get?_eq_update {c' : Cells} {o : Option Text}
    (h : ∀ e, e ∈ c'.items ↔ (e.1 = id ∧ o = some e.2) ∨ e ∈ c.items ∧ e.1 ≠ id) :
    c'.get? = Function.update c.get? id o := by
  funext other
  apply Option.ext
  intro u
  rw [get?_eq_some, h]
  by_cases hother : other = id
  · simp [hother]
  · simp [hother, get?_eq_some]

end Cells

/-! ## Changes of cells -/

namespace Storage

variable {s s' : Storage} {id : Digest} {bytes : Text} {e : Digest × Text}

theorem mem_putBytes : e ∈ (s.putBytes id bytes).cells.items ↔
    e = (id, bytes) ∨ e ∈ s.cells.items ∧ e.1 ≠ id := by
  cases s with
  | memory m => exact Cells.mem_put
  | journal j => exact Cells.mem_put
  | table t => exact Cells.mem_renew

/-- Where nothing is erased because there is no cell, no cell has the digest. -/
theorem mem_iff_of_not_has {c : Cells} (h : ¬ c.has id = true) :
    e ∈ c.items ↔ e ∈ c.items ∧ e.1 ≠ id :=
  ⟨fun he => ⟨he, fun heq => h (Cells.has_iff.2 ⟨e, he, heq⟩)⟩, fun he => he.1⟩

theorem mem_eraseBytes : e ∈ (s.eraseBytes id).cells.items ↔ e ∈ s.cells.items ∧ e.1 ≠ id := by
  cases s with
  | memory m => exact Cells.mem_erase
  | journal j =>
    simp only [eraseBytes, Journal.erase]
    split
    · exact Cells.mem_erase
    · next h => exact mem_iff_of_not_has h
  | table t =>
    simp only [eraseBytes, Table.erase]
    split
    · exact Cells.mem_erase
    · next h => exact mem_iff_of_not_has h

/-! ## The facts of a storage -/

/-- The facts in the cells of a storage. -/
def content (s : Storage) : Set Fact := {f | ∃ e ∈ s.cells.items, Encoding.decode e.2 = .ok f}

/-- Whether every cell holds a fact under its own digest. -/
def Addressed (s : Storage) : Prop :=
  ∀ e ∈ s.cells.items, ∃ f, Encoding.decode e.2 = .ok f ∧ f.digest = e.1

variable {f g : Fact}

theorem withinLimit_of_mem (h : f ∈ s.content) : f.WithinLimit := by
  obtain ⟨e, -, he⟩ := h
  exact Encoding.withinLimit_of_decode he

theorem finite_content (s : Storage) : s.content.Finite := by
  refine (s.cells.items.filterMap fun e => (Encoding.decode e.2).toOption).finite_toSet.subset ?_
  rintro f ⟨e, he, hf⟩
  exact List.mem_filterMap.2 ⟨e, he, by rw [hf]; rfl⟩

theorem Addressed.mem_content (hs : s.Addressed) :
    f ∈ s.content ↔ ∃ t, (f.digest, t) ∈ s.cells.items ∧ Encoding.decode t = .ok f := by
  constructor
  · rintro ⟨e, he, hf⟩
    obtain ⟨g, hg, hid⟩ := hs e he
    rw [hf, Except.ok.injEq] at hg
    rw [← hg] at hid
    exact ⟨e.2, by rw [hid]; exact he, hf⟩
  · rintro ⟨t, ht, hf⟩
    exact ⟨_, ht, hf⟩

/-- Digests tell stored facts apart. -/
theorem Addressed.injOn_digest (hs : s.Addressed) : Set.InjOn Fact.digest s.content := by
  intro f hf g hg heq
  obtain ⟨t, ht, hf⟩ := hs.mem_content.1 hf
  obtain ⟨u, hu, hg⟩ := hs.mem_content.1 hg
  rw [← heq] at hu
  have htu : t = u :=
    Option.some.inj ((Cells.get?_eq_some.2 ht).symm.trans (Cells.get?_eq_some.2 hu))
  rw [htu, hg] at hf
  exact (Except.ok.inj hf).symm

theorem Addressed.mem_ids_iff (hs : s.Addressed) :
    (∃ e ∈ s.cells.items, e.1 = id) ↔ ∃ f ∈ s.content, f.digest = id := by
  constructor
  · rintro ⟨e, he, rfl⟩
    obtain ⟨f, hf, hid⟩ := hs e he
    exact ⟨f, ⟨e, he, hf⟩, hid⟩
  · rintro ⟨f, hf, rfl⟩
    obtain ⟨t, ht, -⟩ := hs.mem_content.1 hf
    exact ⟨_, ht, rfl⟩

/-! ## Reading -/

theorem check_eq_ok : s.check = .ok () ↔ s.isOpen = true := by
  rw [check]
  split <;> simp [*]

/-- A digest leads to the fact of which it is the digest. -/
theorem Addressed.of_get (hs : s.Addressed) {o : Option Fact} (h : s.get id = .ok o) :
    o = some f ↔ f ∈ s.content ∧ f.digest = id := by
  obtain ⟨_, -, h⟩ := bind_eq_ok.1 h
  cases hc : s.cells.get? id with
  | none =>
    simp only [hc, pure_eq_ok] at h
    subst h
    simp only [reduceCtorEq, false_iff, not_and]
    rintro hf rfl
    obtain ⟨t, ht, -⟩ := hs.mem_content.1 hf
    rw [Cells.get?_eq_some.2 ht] at hc
    cases hc
  | some t =>
    simp only [hc, map_eq_ok] at h
    obtain ⟨g, hg, rfl⟩ := h
    have hmem := Cells.get?_eq_some.1 hc
    obtain ⟨g', hg', hid⟩ := hs _ hmem
    rw [hg, Except.ok.injEq] at hg'
    rw [← hg'] at hid
    constructor
    · rintro h
      cases h
      exact ⟨⟨_, hmem, hg⟩, hid⟩
    · rintro ⟨hf, hfid⟩
      rw [hs.injOn_digest hf ⟨_, hmem, hg⟩ (hfid.trans hid.symm)]

theorem Addressed.exists_get (hs : s.Addressed) (ho : s.isOpen = true) (id : Digest) :
    ∃ o, s.get id = .ok o := by
  simp only [get, check_eq_ok.2 ho, bind, Except.bind]
  split
  · exact ⟨_, rfl⟩
  · next t ht =>
    obtain ⟨f, hf, -⟩ := hs _ (Cells.get?_eq_some.1 ht)
    exact ⟨some f, map_eq_ok.2 ⟨f, hf, rfl⟩⟩

theorem Addressed.get_of_mem (hs : s.Addressed) (ho : s.isOpen = true) (hf : f ∈ s.content) :
    s.get f.digest = .ok (some f) := by
  obtain ⟨o, h⟩ := hs.exists_get ho f.digest
  rw [h, (hs.of_get h).2 ⟨hf, rfl⟩]

theorem Addressed.of_has (hs : s.Addressed) {b : Bool} (h : s.has id = .ok b) :
    b = true ↔ ∃ f ∈ s.content, f.digest = id := by
  obtain ⟨_, -, h⟩ := bind_eq_ok.1 h
  rw [← pure_eq_ok.1 h, Cells.has_iff, hs.mem_ids_iff]

theorem exists_has (ho : s.isOpen = true) (id : Digest) : ∃ b, s.has id = .ok b :=
  ⟨_, bind_eq_ok.2 ⟨_, check_eq_ok.2 ho, rfl⟩⟩

theorem texts_perm (s : Storage) : s.texts.Perm (s.cells.items.map Prod.snd) := by
  cases s with
  | table t => exact List.reverse_perm _
  | memory m => exact .refl _
  | journal j => exact .refl _

/-- Every stored fact is listed once. -/
theorem Addressed.of_facts (hs : s.Addressed) {l : List Fact} (h : s.facts = .ok l) :
    (l.map Fact.digest).Nodup ∧ ∀ f, f ∈ l ↔ f ∈ s.content := by
  obtain ⟨_, -, h⟩ := bind_eq_ok.1 h
  have hl := pure_eq_ok.1 h
  constructor
  · have hids : ∀ items : List (Digest × Text),
        (∀ e ∈ items, ∃ f, Encoding.decode e.2 = .ok f ∧ f.digest = e.1) →
        ((items.map Prod.snd).filterMap fun t => (Encoding.decode t).toOption).map Fact.digest =
          items.map Prod.fst := by
      intro items hitems
      induction items with
      | nil => rfl
      | cons e items ih =>
        rw [List.forall_mem_cons] at hitems
        obtain ⟨f, hf, hid⟩ := hitems.1
        simp only [List.map_cons, List.filterMap_cons, hf, Except.toOption, hid]
        rw [← ih hitems.2]
        rfl
    have hperm := ((texts_perm s).filterMap fun t => (Encoding.decode t).toOption).map Fact.digest
    rw [hl, hids _ hs] at hperm
    exact hperm.nodup_iff.2 s.cells.nodup_ids
  · intro f
    rw [← hl, List.mem_filterMap]
    constructor
    · rintro ⟨t, ht, hf⟩
      obtain ⟨e, he, rfl⟩ := List.mem_map.1 ((texts_perm s).mem_iff.1 ht)
      refine ⟨e, he, ?_⟩
      cases hd : Encoding.decode e.2 with
      | error => simp [hd, Except.toOption] at hf
      | ok g => simpa [hd, Except.toOption] using hf
    · rintro ⟨e, he, hf⟩
      refine ⟨e.2, (texts_perm s).mem_iff.2 (List.mem_map_of_mem he), ?_⟩
      rw [hf]
      rfl

theorem exists_facts (ho : s.isOpen = true) : ∃ l, s.facts = .ok l :=
  ⟨_, bind_eq_ok.2 ⟨_, check_eq_ok.2 ho, rfl⟩⟩

/-! ## Changes -/

theorem put_eq_ok : s.put id f = .ok s' ↔
    f.WithinLimit ∧ s.isOpen = true ∧ s.checkPut = .ok () ∧
      s' = s.putBytes id (Encoding.factBytes f) := by
  simp only [Storage.put, bind_eq_ok, pure_eq_ok, Encoding.encode_eq_ok]
  constructor
  · rintro ⟨_, ⟨hf, rfl⟩, _, ho, _, hp, rfl⟩
    exact ⟨hf, check_eq_ok.1 ho, hp, rfl⟩
  · rintro ⟨hf, ho, hp, rfl⟩
    exact ⟨_, ⟨hf, rfl⟩, _, check_eq_ok.2 ho, _, hp, rfl⟩

theorem erase_eq_ok {existed : Bool} : s.erase id = .ok (s', existed) ↔
    s.isOpen = true ∧ s.checkErase id = .ok () ∧ s' = s.eraseBytes id ∧
      existed = s.cells.has id := by
  simp only [Storage.erase, bind_eq_ok, pure_eq_ok, Prod.mk.injEq]
  constructor
  · rintro ⟨_, ho, _, hp, rfl, rfl⟩
    exact ⟨check_eq_ok.1 ho, hp, rfl, rfl⟩
  · rintro ⟨ho, hp, rfl, rfl⟩
    exact ⟨_, check_eq_ok.2 ho, _, hp, rfl, rfl⟩

/-- A fact that is stored under its digest takes the place of a fact with the same digest. -/
theorem Addressed.put (hs : s.Addressed) (h : s.put f.digest f = .ok s') : s'.Addressed := by
  obtain ⟨hf, -, -, rfl⟩ := put_eq_ok.1 h
  intro e he
  rcases mem_putBytes.1 he with rfl | ⟨he, -⟩
  · exact ⟨f, Encoding.decode_factBytes hf, rfl⟩
  · exact hs e he

theorem Addressed.mem_content_put (hs : s.Addressed) (h : s.put f.digest f = .ok s') :
    g ∈ s'.content ↔ g = f ∨ g ∈ s.content ∧ g.digest ≠ f.digest := by
  have hs' := hs.put h
  obtain ⟨hf, -, -, rfl⟩ := put_eq_ok.1 h
  rw [hs'.mem_content, hs.mem_content]
  simp only [mem_putBytes, Prod.mk.injEq]
  constructor
  · rintro ⟨t, ⟨-, rfl⟩ | ⟨ht, hne⟩, hg⟩
    · rw [Encoding.decode_factBytes hf, Except.ok.injEq] at hg
      exact Or.inl hg.symm
    · exact Or.inr ⟨⟨t, ht, hg⟩, hne⟩
  · rintro (rfl | ⟨⟨t, ht, hg⟩, hne⟩)
    · exact ⟨_, Or.inl ⟨rfl, rfl⟩, Encoding.decode_factBytes hf⟩
    · exact ⟨t, Or.inr ⟨ht, hne⟩, hg⟩

theorem Addressed.erase (hs : s.Addressed) {existed : Bool} (h : s.erase id = .ok (s', existed)) :
    s'.Addressed := by
  obtain ⟨-, -, rfl, -⟩ := erase_eq_ok.1 h
  exact fun e he => hs e (mem_eraseBytes.1 he).1

theorem Addressed.mem_content_erase (hs : s.Addressed) {existed : Bool}
    (h : s.erase id = .ok (s', existed)) : g ∈ s'.content ↔ g ∈ s.content ∧ g.digest ≠ id := by
  have hs' := hs.erase h
  obtain ⟨-, -, rfl, -⟩ := erase_eq_ok.1 h
  rw [hs'.mem_content, hs.mem_content]
  simp only [mem_eraseBytes]
  constructor
  · rintro ⟨t, ⟨ht, hne⟩, hg⟩
    exact ⟨⟨t, ht, hg⟩, hne⟩
  · rintro ⟨⟨t, ht, hg⟩, hne⟩
    exact ⟨t, ⟨ht, hne⟩, hg⟩

theorem Addressed.existed_iff (hs : s.Addressed) {existed : Bool}
    (h : s.erase id = .ok (s', existed)) : existed = true ↔ ∃ f ∈ s.content, f.digest = id := by
  obtain ⟨-, -, -, rfl⟩ := erase_eq_ok.1 h
  rw [Cells.has_iff, hs.mem_ids_iff]

/-! ## Storages that accept changes -/

/-- Whether a storage is open and no kind of change is refused. -/
structure Writable (s : Storage) : Prop where
  /-- The storage is open. -/
  isOpen : s.isOpen = true
  /-- Cells can be changed. -/
  checkPut : s.checkPut = .ok ()
  /-- There is nothing that could not be kept. -/
  flush : s.flush = .ok ()

namespace Writable

theorem checkErase (hs : s.Writable) (id : Digest) : s.checkErase id = .ok () := by
  cases s with
  | memory m => rfl
  | journal j => rfl
  | table t =>
    have h : t.checkPut = .ok () := hs.checkPut
    rw [Table.checkPut] at h
    split at h
    · next hfault => simp [Storage.checkErase, Table.checkErase, hfault]
    · cases h

theorem putBytes (hs : s.Writable) (id : Digest) (bytes : Text) :
    (s.putBytes id bytes).Writable := by
  cases s <;> exact ⟨hs.isOpen, hs.checkPut, hs.flush⟩

theorem eraseBytes (hs : s.Writable) (id : Digest) : (s.eraseBytes id).Writable := by
  cases s with
  | memory m => exact ⟨hs.isOpen, hs.checkPut, hs.flush⟩
  | journal j =>
    rw [Storage.eraseBytes, Journal.erase]
    split <;> exact ⟨hs.isOpen, hs.checkPut, hs.flush⟩
  | table t =>
    rw [Storage.eraseBytes, Table.erase]
    split <;> exact ⟨hs.isOpen, hs.checkPut, hs.flush⟩

end Writable

end Storage
end FactGraph
