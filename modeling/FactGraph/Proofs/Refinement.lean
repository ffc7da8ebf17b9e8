import Mathlib.Data.Finset.Card
import Mathlib.Data.List.TakeWhile
import FactGraph.Proofs.Store

/-!
# Stores refine finite sets

A run of requests to a store, begun with a storage without cells, cannot be told from a run of the
same requests to a finite set of facts: every answer is the one that the set gives. Whatever its
storage is made of, the store represents the set after every request (`Represents.perform`). Facts
are told apart by their digests, so this is said of runs that mention no two facts with one digest.
-/

namespace FactGraph

/-! ## Requests and answers -/

/-- What can be asked of a store. -/
inductive Request where
  /-- To store a fact. -/
  | insert (f : Fact)
  /-- To store a fact that must not be stored yet. -/
  | insertNew (f : Fact)
  /-- To store facts up to the first that cannot be stored. -/
  | insertAll (facts : List Fact)
  /-- To take out the fact with a digest. -/
  | remove (id : Digest)
  /-- To make the index anew. -/
  | rebuild
  /-- To make sure that all changes are kept. -/
  | flush
  /-- To look up the fact with a digest. -/
  | get (id : Digest)
  /-- To tell whether a digest is stored. -/
  | has (id : Digest)
  /-- To tell whether a fact is stored. -/
  | contains (f : Fact)
  /-- To find the facts that a query accepts. -/
  | find (q : Query)
  /-- To count the facts. -/
  | count

/-- What a store answers. -/
inductive Answer where
  /-- That it is done. -/
  | done
  /-- The digest of a fact, and whether the fact was new. -/
  | stored (id : Digest) (new : Bool)
  /-- The same of several facts. -/
  | storedAll (each : List (Digest × Bool))
  /-- Yes or no. -/
  | flag (b : Bool)
  /-- A fact, if there is one. -/
  | fact (f : Option Fact)
  /-- Several facts. -/
  | facts (l : List Fact)
  /-- A number. -/
  | number (n : Nat)

/-- The store after a change with its answer. A change that fails leaves the store as it was. -/
def Store.settle {α : Type} (s : Store) (change : Except StoreError (Store × α))
    (answer : α → Answer) : Store × Except StoreError Answer :=
  match change with
  | .ok (s, a) => (s, .ok (answer a))
  | .error e => (s, .error e)

/-- What a store does on a request, and what it answers. -/
def Store.perform (s : Store) : Request → Store × Except StoreError Answer
  | .insert f => s.settle (s.insert f) fun (id, new) => .stored id new
  | .insertNew f => s.settle (s.insertNew f) fun id => .stored id true
  | .insertAll facts => ((s.insertAll facts).1, (s.insertAll facts).2.map .storedAll)
  | .remove id => s.settle (s.remove id) .flag
  | .rebuild => s.settle s.rebuild .number
  | .flush => (s, s.flush.map fun _ => .done)
  | .get id => (s, (s.get id).map .fact)
  | .has id => (s, (s.has id).map .flag)
  | .contains f => (s, (s.contains f).map .flag)
  | .find q => (s, (s.find q).map .facts)
  | .count => (s, .ok (.number s.count))

/-- What a store answers to requests, one after the other. -/
def Store.answers (s : Store) : List Request → List (Except StoreError Answer)
  | [] => []
  | r :: requests => (s.perform r).2 :: (s.perform r).1.answers requests

/-! ## The same of finite sets -/

instance : DecidablePred Store.Storable := fun _ =>
  have : DecidablePred Value.WithinLimit := fun x =>
    inferInstanceAs (Decidable (∀ t ∈ x.fields, t.length ≤ fieldLimit))
  decidable_of_iff _ Store.storable_iff.symm

namespace Request

/-- The facts that a request mentions. -/
def facts : Request → List Fact
  | insert f | insertNew f | contains f => [f]
  | insertAll facts => facts
  | find q => q.fact?.toList
  | _ => []

/-- The facts that a request would store. -/
def candidates : Request → List Fact
  | insert f | insertNew f => [f]
  | insertAll facts => facts
  | _ => []

/-- Whether the fields that are looked up are within the limit. -/
def WithinLimit : Request → Prop
  | contains f => f.WithinLimit
  | find q => (∀ n ∈ q.subject, (Value.node n).WithinLimit) ∧
      (∀ p ∈ q.predicate, (Value.named p).WithinLimit) ∧ ∀ v ∈ q.object, v.WithinLimit
  | _ => True

/-- The set after a request: facts that can be stored come in, and removed ones go out. -/
def next (S : Finset Fact) : Request → Finset Fact
  | insert f | insertNew f => if Store.Storable f then Insert.insert f S else S
  | insertAll facts => S ∪ (facts.takeWhile (decide <| Store.Storable ·)).toFinset
  | remove id => S.filter fun f => f.digest ≠ id
  | _ => S

/-- For each of several facts its digest, and whether it is new when its turn comes. -/
def noted : Finset Fact → List Fact → List (Digest × Bool)
  | _, [] => []
  | S, f :: rest => (f.digest, decide (f ∉ S)) :: noted (Insert.insert f S) rest

/-- Of facts that are stored one by one as many are new as are not in the set, each counted once. -/
theorem countP_noted (S : Finset Fact) (facts : List Fact) :
    (noted S facts).countP Prod.snd = (facts.toFinset \ S).card := by
  induction facts generalizing S with
  | nil => simp [noted]
  | cons f rest ih =>
    rw [noted, List.countP_cons, ih, List.toFinset_cons]
    by_cases hf : f ∈ S
    · rw [Finset.insert_eq_self.2 hf, Finset.insert_sdiff_of_mem _ hf]
      simp [hf]
    · have hsplit : Insert.insert f rest.toFinset \ S =
          Insert.insert f (rest.toFinset \ Insert.insert f S) := by
        ext g
        simp only [Finset.mem_sdiff, Finset.mem_insert]
        by_cases hg : g = f <;> simp [hg, hf]
      rw [hsplit, Finset.card_insert_of_notMem (by simp)]
      simp [hf]

/-- Whether an answer to a request is the one that a set gives. -/
def Expects (S : Finset Fact) : Request → Except StoreError Answer → Prop
  | insert f, a =>
    if Store.Storable f then a = .ok (.stored f.digest (decide (f ∉ S))) else ∃ e, a = .error e
  | insertNew f, a =>
    if Store.Storable f then
      a = if f ∈ S then .error (.alreadyStored f f.digest) else .ok (.stored f.digest true)
    else ∃ e, a = .error e
  | insertAll facts, a =>
    if ∀ f ∈ facts, Store.Storable f then a = .ok (.storedAll (noted S facts))
    else ∃ e, a = .error e
  | remove id, a => a = .ok (.flag (decide (∃ f ∈ S, f.digest = id)))
  | rebuild, a => a = .ok (.number S.card)
  | flush, a => a = .ok .done
  | get id, a => ∃ o, a = .ok (.fact o) ∧ ∀ f, o = some f ↔ f ∈ S ∧ f.digest = id
  | has id, a => a = .ok (.flag (decide (∃ f ∈ S, f.digest = id)))
  | contains f, a => a = .ok (.flag (decide (f ∈ S)))
  | find q, a => ∃ l, a = .ok (.facts l) ∧ l.Nodup ∧ ∀ f, f ∈ l ↔ f ∈ S ∧ q.accepts f = true
  | count, a => a = .ok (.number S.card)

end Request

/-- Whether answers to requests are those that a set gives, which changes with every request. -/
def Conforms : Finset Fact → List Request → List (Except StoreError Answer) → Prop
  | _, [], [] => True
  | S, r :: requests, a :: answers => r.Expects S a ∧ Conforms (r.next S) requests answers
  | _, _, _ => False

/-! ## Representation -/

/-- Where digests tell facts apart, an index that describes finitely many of them has as many
digests. -/
theorem Index.Describes.size_eq {x : Index} {A : Finset Fact} (h : x.Describes A)
    (inj : Set.InjOn Fact.digest (A : Set Fact)) : x.size = A.card := by
  have hids : x.ids.toFinset = A.image Fact.digest := by
    ext id
    simp only [List.mem_toFinset, h.ids, Finset.mem_image, Finset.mem_coe]
  rw [Index.size, ← List.toFinset_card_of_nodup h.nodup, hids, Finset.card_image_of_injOn inj]

namespace Store

/-- Whether a store can be changed and holds the facts of a set. -/
structure Represents (s : Store) (S : Finset Fact) : Prop where
  /-- The index describes what is stored. -/
  coherent : s.Coherent
  /-- The storage accepts changes. -/
  writable : s.storage.Writable
  /-- The stored facts are those of the set. -/
  content : ∀ f, f ∈ s.content ↔ f ∈ S

variable {s : Store} {S : Finset Fact} {V : Set Fact} {f : Fact}

theorem exists_insert_error (hf : ¬ Storable f) :
    ∃ e, s.insert f = .error e ∧ e.kind = .invalidFact := by
  rw [← checkStorable_eq_ok] at hf
  cases hc : checkStorable f with
  | ok => exact absurd hc hf
  | error e => exact ⟨e, by rw [insert, hc]; rfl, kind_of_checkStorable hc⟩

theorem exists_insert (hs : s.storage.Writable) (hf : Storable f) : ∃ r, s.insert f = .ok r := by
  simp only [insert, checkStorable_eq_ok.2 hf, hf.withinLimit.id, bind, Except.bind]
  split
  · exact ⟨_, rfl⟩
  · have hput : s.storage.put f.digest f = .ok _ :=
      Storage.put_eq_ok.2 ⟨hf.withinLimit, hs.isOpen, hs.checkPut, rfl⟩
    simp only [hput]
    exact ⟨_, rfl⟩

theorem writable_insert (hs : s.storage.Writable) {s' : Store} {id : Digest} {new : Bool}
    (h : s.insert f = .ok (s', id, new)) : s'.storage.Writable := by
  obtain ⟨-, -, -, hold, hput⟩ := insert_eq_ok h
  cases new with
  | false => exact hold rfl ▸ hs
  | true =>
    obtain ⟨storage, hstorage, rfl⟩ := hput rfl
    obtain ⟨-, -, -, rfl⟩ := Storage.put_eq_ok.1 hstorage
    exact hs.putBytes _ _

theorem exists_remove (hs : s.Coherent) (hw : s.storage.Writable) (id : Digest) :
    ∃ s' existed, s.remove id = .ok (s', existed) ∧ s'.storage = s.storage.eraseBytes id := by
  obtain ⟨known, hget⟩ := hs.addressed.exists_get hw.isOpen id
  have herase : s.storage.erase id = .ok (s.storage.eraseBytes id, s.storage.cells.has id) :=
    Storage.erase_eq_ok.2 ⟨hw.isOpen, hw.checkErase id, rfl, rfl⟩
  simp only [remove, hget, herase, bind, Except.bind]
  exact ⟨_, _, rfl, rfl⟩

/-- A query is answered if its subject and its object are within the limit, and where it asks for
one fact only, the fact is. -/
theorem exists_find_of_fields (hs : s.storage.Addressed) (ho : s.storage.isOpen = true) {q : Query}
    (hsubject : ∀ n ∈ q.subject, (Value.node n).WithinLimit)
    (hobject : ∀ v ∈ q.object, v.WithinLimit)
    (hfact : ∀ f, q.fact? = some f → f.WithinLimit) : ∃ l, s.find q = .ok l := by
  rw [find]
  split
  · exact Storage.exists_facts ho
  · split
    · next f hf =>
      -- The query asks for one fact, which is looked up by its digest.
      obtain ⟨b, hb⟩ := Storage.exists_has ho f.digest
      have hcontains : s.contains f = .ok b := bind_eq_ok.2 ⟨_, (hfact f hf).id, hb⟩
      exact ⟨_, bind_eq_ok.2 ⟨b, hcontains, rfl⟩⟩
    · obtain ⟨ids, hids⟩ := Index.exists_candidates hsubject hobject
      have hget : ∀ id ∈ ids, ∃ o, s.storage.get id = .ok o :=
        fun id _ => hs.exists_get ho id
      obtain ⟨found, hfound⟩ := mapM_of_forall_exists hget
      exact ⟨_, bind_eq_ok.2 ⟨ids, hids, bind_eq_ok.2 ⟨found, hfound, rfl⟩⟩⟩

/-- A query within the limit that asks for one fact only asks for a fact within the limit. -/
theorem withinLimit_of_fact? {q : Query} (hq : (Request.find q).WithinLimit)
    (hf : q.fact? = some f) : f.WithinLimit := by
  obtain ⟨hsubject, hpredicate, hobject⟩ := hq
  simp only [Query.fact?, bind, Option.bind_eq_some_iff, pure, Option.some.injEq] at hf
  obtain ⟨n, hn, p, hp, o, ho, rfl⟩ := hf
  rw [Fact.withinLimit_iff]
  simpa [Fact.values] using ⟨hsubject n hn, hpredicate p hp, hobject o ho⟩

theorem exists_find (hs : s.storage.Addressed) (ho : s.storage.isOpen = true) {q : Query}
    (hq : (Request.find q).WithinLimit) : ∃ l, s.find q = .ok l :=
  exists_find_of_fields hs ho hq.1 hq.2.2 fun _ hf => withinLimit_of_fact? hq hf

namespace Represents

theorem insert (h : s.Represents S) (inj : ∀ g ∈ S, g.digest = f.digest → g = f)
    (hf : Storable f) : ∃ s', s.insert f = .ok (s', f.digest, decide (f ∉ S)) ∧
      s'.Represents (Insert.insert f S) := by
  obtain ⟨⟨s', id, new⟩, hi⟩ := exists_insert h.writable hf
  obtain ⟨hs', -, -⟩ := h.coherent.of_insert hi
  obtain ⟨hnew, hcontent⟩ :=
    h.coherent.mem_content_insert (fun g hg => inj g ((h.content g).1 hg)) hi
  refine ⟨s', ?_, hs', writable_insert h.writable hi, fun g => ?_⟩
  · have hflag : new = decide (f ∉ S) := by
      rw [Bool.eq_iff_iff, hnew, h.content, decide_eq_true_eq]
    rw [hi, (insert_eq_ok hi).2.1, hflag]
  · rw [hcontent, h.content, Finset.mem_insert]

theorem insertNew_eq (s : Store) (f : Fact) : s.insertNew f = (do
    let (s', id, new) ← s.insert f
    if new then return (s', id) else throw (.alreadyStored f id)) := by
  rw [insertNew]
  congr
  funext ⟨s', id, new⟩
  cases new <;> rfl

/-- What storing several facts does to the set, given what was noted of the facts before them. -/
theorem forEach_insertNoting (h : s.Represents S) (hS : ∀ f ∈ S, f ∈ V)
    (inj : Set.InjOn Fact.digest V) (facts : List Fact) (hfacts : ∀ f ∈ facts, f ∈ V)
    (noted : List (Digest × Bool)) : ∃ s' noted' failed,
      Attempt.forEach insertNoting (s, noted) facts = ((s', noted'), failed) ∧
      s'.Represents ((Request.insertAll facts).next S) ∧
      if ∀ f ∈ facts, Storable f then
        failed = none ∧ noted' = (Request.noted S facts).reverse ++ noted
      else ∃ e, failed = some e := by
  induction facts generalizing s S noted with
  | nil => exact ⟨s, noted, none, rfl, by simpa [Request.next] using h, by simp [Request.noted]⟩
  | cons f rest ih =>
    rw [List.forall_mem_cons] at hfacts
    by_cases hf : Storable f
    · obtain ⟨s₁, h₁, hs₁⟩ := h.insert (fun g hg heq => inj (hS g hg) hfacts.1 heq) hf
      have hS₁ : ∀ g ∈ Insert.insert f S, g ∈ V := by
        intro g hg
        rcases Finset.mem_insert.1 hg with rfl | hg
        · exact hfacts.1
        · exact hS g hg
      obtain ⟨s', noted', failed, heq, hs', hnoted⟩ :=
        ih hs₁ hS₁ hfacts.2 ((f.digest, decide (f ∉ S)) :: noted)
      refine ⟨s', noted', failed, ?_, ?_, ?_⟩
      · rw [Attempt.forEach, insertNoting, h₁]
        exact heq
      · simp only [Request.next, List.takeWhile_cons, hf, decide_true, if_true,
          List.toFinset_cons, Finset.union_insert] at hs' ⊢
        rwa [Finset.insert_union] at hs'
      · simpa [hf, Request.noted] using hnoted
    · obtain ⟨e, he, -⟩ := exists_insert_error hf (s := s)
      refine ⟨s, noted, some e, ?_, ?_, ?_⟩
      · rw [Attempt.forEach, insertNoting, he]
      · simpa [Request.next, hf] using h
      · simp [hf]

/-- Facts that can be stored are all stored. -/
theorem exists_insertAll (h : s.Represents S) {facts : List Fact}
    (inj : Set.InjOn Fact.digest {f | f ∈ S ∨ f ∈ facts}) (hfacts : ∀ f ∈ facts, Storable f) :
    ∃ s', s.insertAll facts = (s', .ok (Request.noted S facts)) ∧
      s'.Represents (S ∪ facts.toFinset) := by
  obtain ⟨s', noted, failed, heach, hs', hnoted⟩ :=
    h.forEach_insertNoting (fun f hf => Or.inl hf) inj facts (fun f hf => Or.inr hf) []
  have hall : facts.takeWhile (decide <| Storable ·) = facts :=
    List.takeWhile_eq_self_iff.2 fun f hf => decide_eq_true (hfacts f hf)
  rw [Request.next, hall] at hs'
  rw [if_pos hfacts] at hnoted
  obtain ⟨rfl, rfl⟩ := hnoted
  exact ⟨s', by simp [insertAll, heach], hs'⟩

theorem exists_digest_iff (h : s.Represents S) {id : Digest} :
    (∃ f ∈ s.content, f.digest = id) ↔ ∃ f ∈ S, f.digest = id := by
  simp only [h.content]

theorem remove (h : s.Represents S) (id : Digest) :
    ∃ s', s.remove id = .ok (s', decide (∃ f ∈ S, f.digest = id)) ∧
      s'.Represents ((Request.remove id).next S) := by
  obtain ⟨s', existed, hr, hstorage⟩ := exists_remove h.coherent h.writable id
  obtain ⟨hs', hexisted, hcontent⟩ := h.coherent.of_remove hr
  refine ⟨s', ?_, hs', hstorage ▸ h.writable.eraseBytes id, fun g => ?_⟩
  · have hflag : existed = decide (∃ f ∈ S, f.digest = id) := by
      rw [Bool.eq_iff_iff, hexisted, h.exists_digest_iff, decide_eq_true_eq]
    rw [hr, hflag]
  · rw [hcontent, h.content, Request.next, Finset.mem_filter]

/-- The digests in the index are as many as the facts. -/
theorem count_eq (h : s.Represents S) : s.count = S.card :=
  (h.coherent.index.congr h.content).size_eq fun _ hf _ hg heq =>
    h.coherent.addressed.injOn_digest ((h.content _).2 hf) ((h.content _).2 hg) heq

theorem rebuild (h : s.Represents S) :
    ∃ s', s.rebuild = .ok (s', S.card) ∧ s'.Represents S := by
  obtain ⟨s', hr, hstorage⟩ := exists_rebuild h.writable.isOpen
  obtain ⟨hs', -⟩ := coherent_of_rebuild h.coherent.addressed hr
  have h' : s'.Represents S := by
    refine ⟨hs', ?_, fun f => ?_⟩
    · rw [hstorage]
      exact h.writable
    · rw [Store.content, hstorage, h.content]
  exact ⟨s', h'.count_eq ▸ hr, h'⟩

theorem expects_get (h : s.Represents S) (id : Digest) :
    (Request.get id).Expects S ((s.get id).map .fact) := by
  obtain ⟨o, ho⟩ := h.coherent.addressed.exists_get h.writable.isOpen id
  refine ⟨o, by rw [Store.get, ho]; rfl, fun f => ?_⟩
  rw [h.coherent.addressed.of_get ho, ← h.content]

theorem has_eq (h : s.Represents S) (id : Digest) :
    s.has id = .ok (decide (∃ f ∈ S, f.digest = id)) := by
  obtain ⟨b, hb⟩ := Storage.exists_has h.writable.isOpen id
  have hflag : b = decide (∃ f ∈ S, f.digest = id) := by
    rw [Bool.eq_iff_iff, h.coherent.addressed.of_has hb, decide_eq_true_eq]
    exact h.exists_digest_iff
  rw [Store.has, hb, hflag]

theorem contains_eq (h : s.Represents S) (inj : ∀ g ∈ S, g.digest = f.digest → g = f)
    (hf : f.WithinLimit) : s.contains f = .ok (decide (f ∈ S)) := by
  have hiff : (∃ g ∈ S, g.digest = f.digest) ↔ f ∈ S := by
    constructor
    · rintro ⟨g, hg, heq⟩
      exact inj g hg heq ▸ hg
    · exact fun hf => ⟨f, hf, rfl⟩
  have hh := h.has_eq f.digest
  simp only [hiff] at hh
  exact bind_eq_ok.2 ⟨_, hf.id, hh⟩

theorem expects_find (h : s.Represents S) {q : Query}
    (inj : ∀ f, q.fact? = some f → ∀ g ∈ S, g.digest = f.digest → g = f)
    (hq : (Request.find q).WithinLimit) :
    (Request.find q).Expects S ((s.find q).map .facts) := by
  obtain ⟨l, hl⟩ := exists_find h.coherent.addressed h.writable.isOpen hq
  refine ⟨l, by rw [hl]; rfl, h.coherent.nodup_find hl, fun f => ?_⟩
  rw [h.coherent.mem_find_iff (fun f hf g hg => inj f hf g ((h.content g).1 hg)) hl, h.content]

/-! ## Runs -/

/-- A store answers a request as the set that it represents does, and afterwards it represents the
next set. -/
theorem perform (h : s.Represents S) (hS : ∀ f ∈ S, f ∈ V) (inj : Set.InjOn Fact.digest V)
    (r : Request) (hlimit : r.WithinLimit) (hr : ∀ f ∈ r.facts, f ∈ V) :
    (s.perform r).1.Represents (r.next S) ∧ r.Expects S (s.perform r).2 := by
  have injS {f : Fact} (hf : f ∈ V) : ∀ g ∈ S, g.digest = f.digest → g = f :=
    fun g hg heq => inj (hS g hg) hf heq
  cases r with
  | insert f =>
    simp only [Store.perform, Request.next, Request.Expects]
    split
    · next hf =>
      obtain ⟨s', hi, hs'⟩ := h.insert (injS (hr f (by simp [Request.facts]))) hf
      simp only [hi, settle]
      exact ⟨hs', trivial⟩
    · next hf =>
      obtain ⟨e, he, -⟩ := exists_insert_error hf (s := s)
      simp only [he, settle]
      exact ⟨h, e, rfl⟩
  | insertNew f =>
    simp only [Store.perform, Request.next, Request.Expects, insertNew_eq]
    split
    · next hf =>
      obtain ⟨s', hi, hs'⟩ := h.insert (injS (hr f (by simp [Request.facts]))) hf
      by_cases hmem : f ∈ S
      · rw [Finset.insert_eq_self.2 hmem]
        simpa [hi, hmem, settle, bind, Except.bind, throw, throwThe, MonadExceptOf.throw] using h
      · simpa [hi, hmem, settle, bind, Except.bind, pure, Except.pure] using hs'
    · next hf =>
      obtain ⟨e, he, -⟩ := exists_insert_error hf (s := s)
      simp only [he, settle, bind, Except.bind]
      exact ⟨h, e, rfl⟩
  | insertAll facts =>
    obtain ⟨s', noted, failed, heq, hs', hnoted⟩ := h.forEach_insertNoting hS inj facts hr []
    simp only [Store.perform, Store.insertAll, heq, Request.Expects]
    split at hnoted
    · next hf =>
      obtain ⟨rfl, rfl⟩ := hnoted
      rw [if_pos hf]
      exact ⟨hs', by simp [Except.map]⟩
    · next hf =>
      obtain ⟨e, rfl⟩ := hnoted
      rw [if_neg hf]
      exact ⟨hs', e, rfl⟩
  | remove id =>
    obtain ⟨s', hremove, hs'⟩ := h.remove id
    simp only [Store.perform, hremove, settle]
    exact ⟨hs', rfl⟩
  | rebuild =>
    obtain ⟨s', hrebuild, hs'⟩ := h.rebuild
    simp only [Store.perform, hrebuild, settle]
    exact ⟨hs', rfl⟩
  | flush =>
    refine ⟨h, ?_⟩
    simp only [Store.perform, Store.flush, h.writable.flush]
    rfl
  | get id => exact ⟨h, h.expects_get id⟩
  | has id =>
    refine ⟨h, ?_⟩
    simp only [Store.perform, h.has_eq]
    rfl
  | contains f =>
    refine ⟨h, ?_⟩
    simp only [Store.perform, h.contains_eq (injS (hr f (by simp [Request.facts]))) hlimit]
    rfl
  | find q =>
    refine ⟨h, h.expects_find (fun f hf => injS (hr f ?_)) hlimit⟩
    simp [Request.facts, hf]
  | count =>
    refine ⟨h, ?_⟩
    simp only [Store.perform, h.count_eq]
    rfl

/-- No request brings facts into the set that it does not mention. -/
theorem mem_next {r : Request} (hS : ∀ f ∈ S, f ∈ V) (hr : ∀ f ∈ r.facts, f ∈ V) :
    ∀ f ∈ r.next S, f ∈ V := by
  intro g hg
  cases r with
  | insert f =>
    simp only [Request.next] at hg
    split at hg
    · exact (Finset.mem_insert.1 hg).elim (fun heq => hr g (by simp [Request.facts, heq])) (hS g)
    · exact hS g hg
  | insertNew f =>
    simp only [Request.next] at hg
    split at hg
    · exact (Finset.mem_insert.1 hg).elim (fun heq => hr g (by simp [Request.facts, heq])) (hS g)
    · exact hS g hg
  | insertAll facts =>
    rcases Finset.mem_union.1 hg with hg | hg
    · exact hS g hg
    · exact hr g (List.takeWhile_subset _ (List.mem_toFinset.1 hg))
  | remove id => exact hS g (Finset.mem_of_mem_filter g hg)
  | _ => exact hS g hg

/-- The answers of a store to requests are those that the set gives which it represents. -/
theorem conforms_answers (h : s.Represents S) (hS : ∀ f ∈ S, f ∈ V)
    (inj : Set.InjOn Fact.digest V) {requests : List Request}
    (hlimit : ∀ r ∈ requests, r.WithinLimit) (hr : ∀ r ∈ requests, ∀ f ∈ r.facts, f ∈ V) :
    Conforms S requests (s.answers requests) := by
  induction requests generalizing s S with
  | nil => trivial
  | cons r requests ih =>
    rw [List.forall_mem_cons] at hlimit hr
    obtain ⟨hnext, hexpects⟩ := h.perform hS inj r hlimit.1 hr.1
    exact ⟨hexpects, ih hnext (mem_next hS hr.1) hlimit.2 hr.2⟩

end Represents

/-- What every request keeps, if storing a fact, taking a fact out and making the index anew keep it. -/
theorem perform_induction {P : Store → Prop} (r : Request)
    (insert : ∀ s s' f id new, f ∈ r.candidates → P s → s.insert f = .ok (s', id, new) → P s')
    (remove : ∀ s s' id existed, P s → s.remove id = .ok (s', existed) → P s')
    (rebuild : ∀ s s' count, P s → s.rebuild = .ok (s', count) → P s') (h : P s) :
    P (s.perform r).1 := by
  cases r with
  | insert f =>
    cases hi : s.insert f with
    | error e => simpa [perform, settle, hi] using h
    | ok r => simpa [perform, settle, hi] using insert _ _ _ _ _ (List.mem_singleton_self f) h hi
  | insertNew f =>
    simp only [perform, Represents.insertNew_eq]
    cases hi : s.insert f with
    | error e => exact h
    | ok r =>
      obtain ⟨s', id, new⟩ := r
      cases new with
      | true => exact insert _ _ _ _ _ (List.mem_singleton_self f) h hi
      | false => exact h
  | insertAll facts =>
    have hall : P (Attempt.forEach insertNoting (s, []) facts).1.1 := by
      refine Attempt.forEach_induction (motive := fun r => P (Prod.fst r)) h fun s f hf hs => ?_
      rw [insertNoting]
      split
      · next hi => exact insert _ _ _ _ _ hf hs hi
      · exact hs
    rw [perform, insertAll]
    split <;> (rename_i heq; rwa [heq] at hall)
  | remove id =>
    cases hr : s.remove id with
    | error e => simpa [perform, settle, hr] using h
    | ok r => simpa [perform, settle, hr] using remove _ _ _ _ h hr
  | rebuild =>
    cases hr : s.rebuild with
    | error e => simpa [perform, settle, hr] using h
    | ok r => simpa [perform, settle, hr] using rebuild _ _ _ h hr
  | _ => exact h

theorem represents_empty {storage : Storage} (hw : storage.Writable)
    (hempty : storage.cells.items = []) : Represents { storage } ∅ := by
  obtain ⟨hs, hcontent⟩ := coherent_of_items_eq_nil hempty
  exact ⟨hs, hw, fun f => by simpa using hcontent f⟩

/-- Over a storage of any kind that accepts changes and has no cells, the facts that are stored
first are represented. -/
theorem represents_insertAll_over {storage : Storage} (hw : storage.Writable)
    (hempty : storage.cells.items = []) {facts : List Fact} (hfacts : ∀ f ∈ facts, Storable f)
    (inj : Set.InjOn Fact.digest {f | f ∈ facts}) :
    (insertAll { storage } facts).1.Represents facts.toFinset := by
  obtain ⟨s, hall, hs⟩ := (represents_empty hw hempty).exists_insertAll
    (inj.mono fun f hf => hf.resolve_left (Finset.notMem_empty f)) hfacts
  rw [Finset.empty_union] at hs
  rw [hall]
  exact hs

/-- A single fact is represented, as there is no other digest to be told from its own. -/
theorem represents_insertAll_singleton {storage : Storage} (hw : storage.Writable)
    (hempty : storage.cells.items = []) (hf : Storable f) :
    (insertAll { storage } [f]).1.Represents {f} := by
  have hfacts : ∀ x ∈ [f], Storable x := List.forall_mem_singleton.2 hf
  have inj : Set.InjOn Fact.digest {x | x ∈ [f]} := fun x hx y hy _ => by
    rw [List.mem_singleton.1 hx, List.mem_singleton.1 hy]
  simpa using represents_insertAll_over hw hempty hfacts inj

theorem represents_insertAll {facts : List Fact} (hfacts : ∀ f ∈ facts, Storable f)
    (inj : Set.InjOn Fact.digest {f | f ∈ facts}) :
    (insertAll { storage := .memory {} } facts).1.Represents facts.toFinset :=
  represents_insertAll_over ⟨rfl, rfl, rfl⟩ rfl hfacts inj

/-- Over a storage of any kind that accepts changes and has no cells, a store answers every run of
requests as a finite set does that begins empty. -/
theorem conforms_opened {storage : Storage} (hw : storage.Writable)
    (hempty : storage.cells.items = []) {requests : List Request}
    (hlimit : ∀ r ∈ requests, r.WithinLimit)
    (inj : Set.InjOn Fact.digest {f | ∃ r ∈ requests, f ∈ r.facts}) :
    ∃ s, opened (some storage) = .ok s ∧ Conforms ∅ requests (s.answers requests) := by
  obtain ⟨s, hrebuild, hs⟩ := (represents_empty hw hempty).rebuild
  refine ⟨s, ?_, hs.conforms_answers (by simp) inj hlimit fun r hr f hf => ⟨r, hr, hf⟩⟩
  simp only [opened, hrebuild, bind, Except.bind]
  rfl

/-- A run over a storage in memory, in which one of two facts is stored twice and taken out. -/
theorem conforms_opened_memory :
    let f : Fact := ⟨.named "a", "p", .named "b"⟩
    let g : Fact := ⟨.named "a", "p", .integer 1⟩
    let requests : List Request :=
      [.insert f, .insertAll [f, g], .remove f.digest, .contains f,
        .find (.leaving (.named "a") none)]
    ∃ s, opened (some (.memory {})) = .ok s ∧ Conforms ∅ requests (s.answers requests) := by
  intro f g requests
  have hne : f.digest ≠ g.digest := by decide +kernel
  have hfacts : ∀ x, (∃ r ∈ requests, x ∈ r.facts) → x = f ∨ x = g := by
    rintro x ⟨r, hr, hx⟩
    simp only [requests, List.mem_cons, List.not_mem_nil, or_false] at hr
    rcases hr with rfl | rfl | rfl | rfl | rfl <;>
      simp [Request.facts, Query.leaving, Query.fact?] at hx <;> simp [hx]
  refine conforms_opened ⟨rfl, rfl, rfl⟩ rfl ?_ fun x hx y hy heq => ?_
  · simp [requests, Request.WithinLimit, f, Query.leaving, Fact.withinLimit_iff, Fact.values,
      Value.WithinLimit, Value.fields, Node.fields]
    decide
  · rcases hfacts x hx with rfl | rfl <;> rcases hfacts y hy with rfl | rfl
    · rfl
    · exact absurd heq hne
    · exact absurd heq.symm hne
    · rfl

end Store
end FactGraph
