import FactGraph.Proofs.Index
import FactGraph.Proofs.Storage
import FactGraph.Proofs.View
import FactGraph.Store

/-!
# Stores as sets of facts

A store is coherent if every cell of its storage holds a fact under its own digest and its index
describes the stored facts. Changes keep a store coherent and do to the stored facts what they say
(`Coherent.of_insert`, `Coherent.of_remove`), and a query finds every stored fact that it accepts
exactly once (`Coherent.mem_find`, `Coherent.nodup_find`). An index that misses facts loses some of
what could be found, but what is found is stored and accepted all the same (`faithful_view`).

Digests are all that a store compares, so some of this needs digests to tell the facts apart that a
change or a query is about.
-/

namespace FactGraph

/-! ## Queries -/

namespace Query

variable {q : Query} {f g : Fact}

theorem accepts_of_isAny (h : q.isAny = true) (f : Fact) : q.accepts f = true := by
  obtain ⟨subject, predicate, object⟩ := q
  cases subject <;> cases predicate <;> cases object <;> first | rfl | cases h

/-- Whether a query leaves some of its fields open, but not all of them. -/
def Partial (q : Query) : Prop := q.isAny = false ∧ q.fact? = none

theorem isAny_of_fact? (h : q.fact? = some f) : q.isAny = false := by
  obtain ⟨subject, predicate, object⟩ := q
  simp only [fact?, bind, Option.bind_eq_some_iff] at h
  obtain ⟨n, rfl, -⟩ := h
  cases predicate <;> cases object <;> rfl

/-- A query without open fields accepts one fact. -/
theorem accepts_iff_of_fact? (h : q.fact? = some f) : q.accepts g = true ↔ g = f := by
  obtain ⟨subject, predicate, object⟩ := q
  simp only [fact?, bind, Option.bind_eq_some_iff, pure, Option.some.injEq] at h
  obtain ⟨n, rfl, p, rfl, o, rfl, rfl⟩ := h
  obtain ⟨n', p', o'⟩ := g
  simp only [accepts, agrees, Bool.and_eq_true, beq_iff_eq, Fact.mk.injEq, and_assoc,
    eq_comm (a := n), eq_comm (a := p), eq_comm (a := o)]

end Query

namespace Store

variable {s s' : Store} {f g : Fact} {q : Query} {id : Digest}

/-- The stored facts. -/
abbrev content (s : Store) : Set Fact := s.storage.content

/-- Whether a store keeps facts under their own digests, with an index that describes them. -/
structure Coherent (s : Store) : Prop where
  /-- Facts are kept under their own digests. -/
  addressed : s.storage.Addressed
  /-- The index describes the stored facts. -/
  index : s.index.Describes s.content

/-- A store over a storage without cells holds nothing. -/
theorem coherent_of_items_eq_nil {storage : Storage} (hempty : storage.cells.items = []) :
    Coherent { storage } ∧ ∀ f, ¬ f ∈ storage.content := by
  have hcontent : ∀ f, ¬ f ∈ storage.content := by
    rintro f ⟨e, he, -⟩
    rw [hempty] at he
    cases he
  refine ⟨⟨fun e he => ?_, Index.Describes.empty.congr fun f => ?_⟩, hcontent⟩
  · rw [show storage.cells.items = [] from hempty] at he
    cases he
  · simpa using hcontent f

/-! ## Storable facts -/

theorem checkPart_eq_ok {part : FactPart} {t : Text} {u : Unit} :
    checkPart f part t = .ok u ↔ t.length ≤ fieldLimit := by
  rw [checkPart]
  split
  · next h => simpa using h
  · next h => simpa using h

/-- Whether a fact can be stored: its texts are within the limit, and none of its names is empty. -/
structure Storable (f : Fact) : Prop where
  /-- The texts are within the limit. -/
  withinLimit : f.WithinLimit
  /-- The predicate is not empty. -/
  predicate : f.predicate ≠ []
  /-- The subject is not the node of the empty name. -/
  subject : f.subject ≠ .named []
  /-- Nor is the object. -/
  object : f.object ≠ .named []

theorem storable_iff : Storable f ↔ (∀ x ∈ f.values, x.WithinLimit) ∧ f.predicate ≠ [] ∧
    f.subject ≠ .named [] ∧ f.object ≠ .named [] := by
  rw [← Fact.withinLimit_iff]
  exact ⟨fun h => ⟨h.1, h.2, h.3, h.4⟩, fun h => ⟨h.1, h.2.1, h.2.2.1, h.2.2.2⟩⟩

theorem checkStorable_eq_ok : checkStorable f = .ok () ↔ Storable f := by
  rw [storable_iff]
  obtain ⟨subject, predicate, object⟩ := f
  rcases subject with name | ⟨high, low⟩ <;> rcases object with (_ | _) | _ | _ | _ | _ <;>
    simp [checkStorable, bind_eq_ok, checkPart_eq_ok, Fact.values, Value.WithinLimit, Value.fields,
      Node.fields, Node.isNameless, Value.node?, and_assoc]

theorem kind_of_checkPart {part : FactPart} {t : Text} {e : StoreError}
    (h : checkPart f part t = .error e) : e.kind = .invalidFact := by
  rw [checkPart] at h
  split at h
  · cases h
    rfl
  · cases h

/-- A fact that cannot be stored is refused as invalid, whatever is wrong with it. -/
theorem kind_of_checkStorable {e : StoreError} (h : checkStorable f = .error e) :
    e.kind = .invalidFact := by
  obtain ⟨subject, predicate, object⟩ := f
  rcases subject with name | ⟨high, low⟩ <;> rcases object with (_ | _) | _ | _ | _ | _ <;>
    simp [checkStorable, bind_eq_error, pure, Except.pure] at h <;>
    grind [kind_of_checkPart, StoreError.kind]

/-! ## Changes -/

/-- A fact is new if its digest is not in the index. -/
theorem insert_eq_ok {new : Bool} (h : s.insert f = .ok (s', id, new)) :
    Storable f ∧ id = f.digest ∧ new = !s.index.contains f.digest ∧
      (new = false → s' = s) ∧ (new = true → ∃ storage, s.storage.put f.digest f = .ok storage ∧
        s' = { storage, index := s.index.add f.digest f }) := by
  obtain ⟨_, hf, h⟩ := bind_eq_ok.1 h
  obtain ⟨_, hid, h⟩ := bind_eq_ok.1 h
  obtain ⟨-, rfl⟩ := Fact.id_eq_ok.1 hid
  refine ⟨checkStorable_eq_ok.1 hf, ?_⟩
  split at h
  · next hc =>
    cases pure_eq_ok.1 h
    simp [hc]
  · next hc =>
    obtain ⟨storage, hs, h⟩ := bind_eq_ok.1 h
    cases pure_eq_ok.1 h
    simp [hc, hs]

/-- A fact whose digest is in the index is passed over, and any other one is put into the storage and
added to the index. -/
theorem insert_cases {new : Bool} (h : s.insert f = .ok (s', id, new)) :
    (f.digest ∈ s.index.ids ∧ s' = s) ∨
      (f.digest ∉ s.index.ids ∧ ∃ storage, s.storage.put f.digest f = .ok storage ∧
        s' = { storage, index := s.index.add f.digest f }) := by
  obtain ⟨-, -, hnew, hold, hput⟩ := insert_eq_ok h
  cases new with
  | false => exact .inl ⟨by simpa [Index.contains] using hnew, hold rfl⟩
  | true => exact .inr ⟨by simpa [Index.contains] using hnew, hput rfl⟩

/-- What is taken out of the index is known by its fact, or not at all. -/
theorem remove_eq_ok {existed : Bool} (h : s.remove id = .ok (s', existed)) :
    s.storage.erase id = .ok (s'.storage, existed) ∧
      ((∃ f, s.storage.get id = .ok (some f) ∧ s'.index = s.index.remove id f) ∨
        s'.index = s.index.forget id) := by
  rw [Store.remove] at h
  split at h
  · next known hknown =>
    obtain ⟨_, ⟨⟩, h⟩ := bind_eq_ok.1 h
    obtain ⟨⟨storage, existed'⟩, herase, h⟩ := bind_eq_ok.1 h
    cases pure_eq_ok.1 h
    cases known with
    | none => exact ⟨herase, .inr rfl⟩
    | some f => exact ⟨herase, .inl ⟨f, hknown, rfl⟩⟩
  · split at h
    · obtain ⟨_, ⟨⟩, h⟩ := bind_eq_ok.1 h
      obtain ⟨⟨storage, existed'⟩, herase, h⟩ := bind_eq_ok.1 h
      cases pure_eq_ok.1 h
      exact ⟨herase, .inr rfl⟩
    · cases h

theorem rebuild_eq_ok {count : Nat} (h : s.rebuild = .ok (s', count)) :
    ∃ facts, s.storage.facts = .ok facts ∧ s' = { s with index := Index.ofFacts facts } := by
  obtain ⟨facts, hfacts, h⟩ := bind_eq_ok.1 h
  cases pure_eq_ok.1 h
  exact ⟨facts, hfacts, rfl⟩

theorem exists_rebuild (ho : s.storage.isOpen = true) :
    ∃ s', s.rebuild = .ok (s', s'.count) ∧ s'.storage = s.storage := by
  obtain ⟨facts, hfacts⟩ := Storage.exists_facts ho
  exact ⟨_, bind_eq_ok.2 ⟨facts, hfacts, rfl⟩, rfl⟩

namespace Coherent

theorem contains_iff (hs : s.Coherent) :
    s.index.contains f.digest = true ↔ ∃ g ∈ s.content, g.digest = f.digest :=
  hs.index.contains_iff

/-- Storing a fact keeps a store coherent and adds the fact, unless there is a fact with the same
digest. -/
theorem of_insert (hs : s.Coherent) {new : Bool} (h : s.insert f = .ok (s', id, new)) :
    s'.Coherent ∧ (new = false ↔ ∃ g ∈ s.content, g.digest = f.digest) ∧
      ∀ g, g ∈ s'.content ↔ g ∈ s.content ∨ new = true ∧ g = f := by
  obtain ⟨hf, -, hnew, hold, hput⟩ := insert_eq_ok h
  cases new with
  | false =>
    rw [hold rfl]
    simp only [Bool.false_eq, Bool.not_eq_false', hs.contains_iff] at hnew
    exact ⟨hs, by simpa using hnew, by simp⟩
  | true =>
    obtain ⟨storage, hstorage, rfl⟩ := hput rfl
    simp only [Bool.true_eq, Bool.not_eq_true', ← Bool.not_eq_true, hs.contains_iff] at hnew
    have hne : ∀ g ∈ s.content, g.digest ≠ f.digest := fun g hg heq => hnew ⟨g, hg, heq⟩
    have hcontent : ∀ g, g ∈ storage.content ↔ g ∈ s.content ∨ g = f := by
      intro g
      rw [hs.addressed.mem_content_put hstorage, or_comm]
      exact or_congr_left ⟨fun hg => hg.1, fun hg => ⟨hg, hne g hg⟩⟩
    refine ⟨⟨hs.addressed.put hstorage, ?_⟩, by simpa using hne, by simpa using hcontent⟩
    refine (hs.index.add hne).congr fun g => ?_
    rw [Set.mem_insert_iff, or_comm]
    exact (hcontent g).symm

/-- Where digests tell a fact from the stored ones, the fact is stored afterwards, and it is new if
it was not stored before. -/
theorem mem_content_insert (hs : s.Coherent) (inj : ∀ g ∈ s.content, g.digest = f.digest → g = f)
    {new : Bool} (h : s.insert f = .ok (s', id, new)) :
    (new = true ↔ f ∉ s.content) ∧ ∀ g, g ∈ s'.content ↔ g = f ∨ g ∈ s.content := by
  obtain ⟨-, hnew, hcontent⟩ := hs.of_insert h
  have hold : new = false ↔ f ∈ s.content := by
    rw [hnew]
    constructor
    · rintro ⟨g, hg, heq⟩
      exact inj g hg heq ▸ hg
    · exact fun hf => ⟨f, hf, rfl⟩
  refine ⟨by rw [← hold, Bool.not_eq_false], fun g => ?_⟩
  rw [hcontent, or_comm]
  cases new with
  | true => simp
  | false =>
    simp only [Bool.false_eq_true, false_and, false_or]
    exact ⟨Or.inr, fun hg => hg.elim (fun heq => heq ▸ hold.1 rfl) fun hg => hg⟩

/-- Taking out a digest keeps a store coherent and takes away the fact with the digest. -/
theorem of_remove (hs : s.Coherent) {existed : Bool} (h : s.remove id = .ok (s', existed)) :
    s'.Coherent ∧ (existed = true ↔ ∃ g ∈ s.content, g.digest = id) ∧
      ∀ g, g ∈ s'.content ↔ g ∈ s.content ∧ g.digest ≠ id := by
  obtain ⟨herase, hindex⟩ := remove_eq_ok h
  have hcontent : ∀ g, g ∈ s'.content ↔ g ∈ s.content ∧ g.digest ≠ id :=
    fun g => hs.addressed.mem_content_erase herase
  refine ⟨⟨hs.addressed.erase herase, ?_⟩, hs.addressed.existed_iff herase, hcontent⟩
  rcases hindex with ⟨f, hget, hindex⟩ | hindex
  · obtain ⟨hf, rfl⟩ := (hs.addressed.of_get hget).1 rfl
    rw [hindex]
    exact (hs.index.remove hs.addressed.injOn_digest hf).congr fun g => (hcontent g).symm
  · rw [hindex]
    exact (hs.index.forget id).congr fun g => (hcontent g).symm

end Coherent

/-- What is tested on a store that holds one fact only, kept in memory. -/
theorem exists_of_insert (f : Fact) (test : Store → Bool)
    (h : (insert { storage := .memory {} } f).toOption.any (fun r => test r.1) = true) :
    ∃ s : Store, s.Coherent ∧ s.content = {f} ∧ test s = true := by
  obtain ⟨hempty, hnone⟩ := coherent_of_items_eq_nil
    (show (Storage.memory {}).cells.items = [] from rfl)
  obtain ⟨⟨s, id, new⟩, hr, htest⟩ := (Option.any_eq_true _ _).1 h
  cases hi : insert { storage := .memory {} } f with
  | error e => simp [hi, Except.toOption] at hr
  | ok r =>
    rw [hi] at hr
    cases hr
    obtain ⟨-, hcontent⟩ := hempty.mem_content_insert (fun g hg => absurd hg (hnone g)) hi
    exact ⟨s, (hempty.of_insert hi).1, Set.ext fun g => by simp [hcontent, hnone], htest⟩

/-- Making the index anew leaves the storage alone and gives a coherent store. -/
theorem coherent_of_rebuild (hs : s.storage.Addressed) {count : Nat}
    (h : s.rebuild = .ok (s', count)) : s'.Coherent ∧ s'.storage = s.storage := by
  obtain ⟨facts, hfacts, rfl⟩ := rebuild_eq_ok h
  obtain ⟨nodup, hmem⟩ := hs.of_facts hfacts
  exact ⟨⟨hs, (Index.describes_ofFacts nodup).congr hmem⟩, rfl⟩

/-! ## Reading -/

/-- The selected facts are those of the digests that the query accepts. -/
theorem mem_select {ids : List Digest} {l : List Fact} (h : s.select q ids = .ok l) :
    f ∈ l ↔ q.accepts f = true ∧ ∃ id ∈ ids, s.storage.get id = .ok (some f) := by
  obtain ⟨found, hfound, h⟩ := bind_eq_ok.1 h
  rw [← pure_eq_ok.1 h, List.mem_filterMap]
  constructor
  · rintro ⟨o, ho, hf⟩
    obtain ⟨rfl, hq⟩ := Option.filter_eq_some_iff.1 hf
    exact ⟨hq, (mem_of_mapM hfound).1 ho⟩
  · rintro ⟨hq, hid⟩
    exact ⟨some f, (mem_of_mapM hfound).2 hid, Option.filter_eq_some_iff.2 ⟨rfl, hq⟩⟩

/-- The digests of the selected facts are some of those from which they are selected. -/
theorem sublist_select (hs : s.storage.Addressed) {ids : List Digest} {l : List Fact}
    (h : s.select q ids = .ok l) : (l.map Fact.digest).Sublist ids := by
  rw [select, bind_eq_ok] at h
  obtain ⟨found, hfound, h⟩ := h
  rw [← pure_eq_ok.1 h]
  have hall := forall₂_of_mapM hfound
  clear h hfound
  induction hall with
  | nil => exact .slnil
  | cons ho _ ih =>
    rw [List.filterMap_cons]
    split
    · exact ih.cons _
    · next f hf =>
      obtain ⟨rfl, -⟩ := Option.filter_eq_some_iff.1 hf
      rw [List.map_cons, ((hs.of_get ho).1 rfl).2]
      exact ih.cons_cons _

theorem of_contains (hs : s.storage.Addressed) {b : Bool} (h : s.contains f = .ok b) :
    b = true ↔ ∃ g ∈ s.content, g.digest = f.digest := by
  obtain ⟨_, hid, h⟩ := bind_eq_ok.1 h
  obtain ⟨-, rfl⟩ := Fact.id_eq_ok.1 hid
  exact hs.of_has h

/-- How a query is answered: by listing all facts, by looking up the one fact that it asks for, or
by selecting from candidates. -/
theorem find_cases {l : List Fact} (h : s.find q = .ok l) :
    (q.isAny = true ∧ s.storage.facts = .ok l) ∨
      (∃ f b, q.fact? = some f ∧ s.contains f = .ok b ∧ l = if b then [f] else []) ∨
        q.Partial ∧ ∃ ids, s.index.candidates q = .ok ids ∧ s.select q ids = .ok l := by
  rw [find] at h
  split at h
  · next hany => exact Or.inl ⟨hany, h⟩
  · next hany =>
    split at h
    · next f hf =>
      obtain ⟨b, hb, h⟩ := bind_eq_ok.1 h
      exact Or.inr (Or.inl ⟨f, b, hf, hb, (pure_eq_ok.1 h).symm⟩)
    · next hfact =>
      exact Or.inr (Or.inr ⟨⟨Bool.eq_false_iff.2 hany, hfact⟩, bind_eq_ok.1 h⟩)

/-- Only an open storage has facts to be found. -/
theorem isOpen_of_mem_find {l : List Fact} (h : s.find q = .ok l) (hf : f ∈ l) :
    s.storage.isOpen = true := by
  rw [← Storage.check_eq_ok]
  rcases find_cases h with ⟨-, hl⟩ | ⟨g, b, -, hb, rfl⟩ | ⟨-, ids, -, hl⟩
  · obtain ⟨_, hopen, -⟩ := bind_eq_ok.1 hl
    exact hopen
  · obtain ⟨id, -, hhas⟩ := bind_eq_ok.1 hb
    obtain ⟨_, hopen, -⟩ := bind_eq_ok.1 hhas
    exact hopen
  · obtain ⟨-, id, -, hid⟩ := (mem_select hl).1 hf
    obtain ⟨_, hopen, -⟩ := bind_eq_ok.1 hid
    exact hopen

/-- What is found is stored, and the query accepts it. -/
theorem of_mem_find (hs : s.storage.Addressed)
    (hasked : ∀ f, q.fact? = some f → ∀ g ∈ s.content, g.digest = f.digest → g = f) {l : List Fact}
    (h : s.find q = .ok l) (hf : f ∈ l) : f ∈ s.content ∧ q.accepts f = true := by
  rcases find_cases h with ⟨hany, hl⟩ | ⟨g, b, hg, hb, rfl⟩ | ⟨-, ids, -, hl⟩
  · exact ⟨((hs.of_facts hl).2 f).1 hf, Query.accepts_of_isAny hany f⟩
  · split at hf
    · next hb' =>
      obtain ⟨g', hg', heq⟩ := (of_contains hs hb).1 hb'
      rw [List.mem_singleton.1 hf]
      exact ⟨hasked g hg g' hg' heq ▸ hg', (Query.accepts_iff_of_fact? hg).2 rfl⟩
    · cases hf
  · obtain ⟨hq, id, -, hid⟩ := (mem_select hl).1 hf
    exact ⟨((hs.of_get hid).1 rfl).1, hq⟩

/-- A stored fact that a query accepts is found, unless it would have to be known from the index and
is not among the facts that the index describes. -/
theorem mem_find_of_describes {B : Set Fact} (hs : s.storage.Addressed)
    (hx : s.index.Describes B) {l : List Fact} (h : s.find q = .ok l) (hf : f ∈ s.content)
    (hq : q.accepts f = true) (hB : q.Partial → f ∈ B) : f ∈ l := by
  rcases find_cases h with ⟨-, hl⟩ | ⟨g, b, hg, hb, rfl⟩ | ⟨hpartial, ids, hids, hl⟩
  · exact ((hs.of_facts hl).2 f).2 hf
  · have hfg := (Query.accepts_iff_of_fact? hg).1 hq
    rw [if_pos ((of_contains hs hb).2 ⟨f, hf, by rw [hfg]⟩), hfg]
    exact List.mem_singleton_self g
  · have hid := hx.mem_candidates hids (hB hpartial) hq
    obtain ⟨found, hfound, -⟩ := bind_eq_ok.1 hl
    obtain ⟨o, ho⟩ := exists_of_mapM hfound hid
    rw [(hs.of_get ho).2 ⟨hf, rfl⟩] at ho
    exact (mem_select hl).2 ⟨hq, f.digest, hid, ho⟩

/-- No two facts that are found have one digest, if nothing occurs twice in the index. -/
theorem nodup_digests_find (hs : s.storage.Addressed) (hx : s.index.Distinct) {l : List Fact}
    (h : s.find q = .ok l) : (l.map Fact.digest).Nodup := by
  rcases find_cases h with ⟨-, hl⟩ | ⟨g, b, -, -, rfl⟩ | ⟨-, ids, hids, hl⟩
  · exact (hs.of_facts hl).1
  · split <;> simp
  · exact (hx.nodup_candidates hids).sublist (sublist_select hs hl)

/-- Nothing is found twice, whatever facts the index describes. -/
theorem nodup_find_of_describes {B : Set Fact} (hs : s.storage.Addressed)
    (hx : s.index.Describes B) {l : List Fact} (h : s.find q = .ok l) : l.Nodup :=
  (nodup_digests_find hs hx.distinct h).of_map

namespace Coherent

/-- Every stored fact that a query accepts is found. -/
theorem mem_find (hs : s.Coherent) {l : List Fact} (h : s.find q = .ok l) (hf : f ∈ s.content)
    (hq : q.accepts f = true) : f ∈ l :=
  mem_find_of_describes hs.addressed hs.index h hf hq fun _ => hf

/-- What is found are the stored facts that the query accepts. -/
theorem mem_find_iff (hs : s.Coherent)
    (hasked : ∀ f, q.fact? = some f → ∀ g ∈ s.content, g.digest = f.digest → g = f) {l : List Fact}
    (h : s.find q = .ok l) : f ∈ l ↔ f ∈ s.content ∧ q.accepts f = true :=
  ⟨of_mem_find hs.addressed hasked h, fun hf => hs.mem_find h hf.1 hf.2⟩

theorem nodup_find (hs : s.Coherent) {l : List Fact} (h : s.find q = .ok l) : l.Nodup :=
  nodup_find_of_describes hs.addressed hs.index h

end Coherent

/-! ## Views -/

/-- Where digests tell the stored facts and those that are asked for apart, a store is a faithful
view of what it holds, even if its index misses some of it. -/
theorem faithful_view {asked : Set Fact} (hs : s.storage.Addressed)
    (inj : Set.InjOn Fact.digest asked) (hcontent : s.content ⊆ asked) :
    s.view.Faithful s.content asked where
  find := fun _ _ hl hasked _ hf => of_mem_find hs
    (fun g hg _ hg' heq => inj (hcontent hg') (hasked g hg) heq) hl hf

theorem Coherent.exhaustive_view (hs : s.Coherent) : s.view.Exhaustive s.content where
  mem_find := fun _ _ hl _ hf hq => hs.mem_find hl hf hq

/-- A coherent store shows what it holds. -/
theorem Coherent.shows_view {asked : Set Fact} (hs : s.Coherent)
    (inj : Set.InjOn Fact.digest asked) (hcontent : s.content ⊆ asked) :
    s.view.Shows s.content asked where
  toFaithful := faithful_view hs.addressed inj hcontent
  toExhaustive := hs.exhaustive_view

theorem knows_view (hs : s.storage.Addressed) (ho : s.storage.isOpen = true) :
    s.view.Knows s.content where
  get := fun _ hf => hs.get_of_mem ho hf
  of_get := fun _ _ h => (hs.of_get h).1 rfl
  contains := fun f hf => by
    obtain ⟨b, hb⟩ := Storage.exists_has ho f.digest
    have hb' : s.view.contains f = .ok b :=
      bind_eq_ok.2 ⟨_, (Storage.withinLimit_of_mem hf).id, hb⟩
    rw [hb', (hs.of_has hb).2 ⟨f, hf, rfl⟩]

end Store
end FactGraph
