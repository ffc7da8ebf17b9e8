import FactGraph.Proofs.Statistics
import FactGraph.Store.Page

/-!
# Closed stores

A closed storage refuses whatever is asked of it, but not everything that is asked of a store comes
to its storage. A fact whose digest is in the index passes for stored, and a query whose fields
have no bucket in common finds nothing, whether the storage is open or not (`Index.answer?`).
Everything else is refused once a store is closed, and nothing changes its index
(`Store.use_after_close`).
-/

namespace FactGraph

/-- Whether the facts that a request would store can be stored, and what it looks up is within the
limit. -/
structure Request.Admissible (r : Request) : Prop where
  /-- The facts can be stored. -/
  storable : ∀ f ∈ r.candidates, Store.Storable f
  /-- What is looked up is within the limit. -/
  withinLimit : r.WithinLimit

/-- Whether a request comes to the storage if the index describes given facts. -/
def Request.Reaches (A : Set Fact) : Request → Prop
  | insert f | insertNew f => f ∉ A
  | insertAll facts => ∃ f ∈ facts, f ∉ A
  | find q => q.Partial → ∃ f ∈ A, q.accepts f = true
  | count => False
  | _ => True

namespace Index

variable {x : Index} {A V : Set Fact} {f : Fact} {q : Query} {id : Digest}

/-- What the index answers to a request for which the storage is not asked. -/
def answer? (x : Index) : Request → Option (Except StoreError Answer)
  | .insert f => if x.contains f.digest then some (.ok (.stored f.digest false)) else none
  | .insertNew f => if x.contains f.digest then some (.error (.alreadyStored f f.digest)) else none
  | .insertAll facts =>
    if facts.all fun f => x.contains f.digest then
      some (.ok (.storedAll (facts.map fun f => (f.digest, false))))
    else none
  | .find q =>
    if q.isAny || q.fact?.isSome then none
    else match x.candidates q with
      | .ok [] => some (.ok (.facts []))
      | _ => none
  | .count => some (.ok (.number x.size))
  | _ => none

/-! ## Which requests the index answers -/

/-- Where digests tell facts apart, the candidates of a query are the digests of the described facts
that it accepts. -/
theorem Describes.mem_candidates_iff (h : x.Describes A) (inj : Set.InjOn Fact.digest A)
    (hA : ∀ f ∈ A, f.WithinLimit) (hq : (Request.find q).WithinLimit) {ids : List Digest}
    (hids : x.candidates q = .ok ids) :
    id ∈ ids ↔ ∃ f ∈ A, q.accepts f = true ∧ f.digest = id := by
  constructor
  · intro hid
    obtain ⟨hmem, hsubject, hpredicate, hobject⟩ := h.of_mem_candidates hids hid
    obtain ⟨f, hf, rfl⟩ := (h.ids id).1 hmem
    refine ⟨f, hf, ?_, rfl⟩
    have hvalues := Fact.withinLimit_iff.1 (hA f hf)
    obtain ⟨subject, predicate, object⟩ := q
    simp only [Query.accepts, Bool.and_eq_true]
    refine ⟨⟨?_, ?_⟩, ?_⟩
    · cases subject with
      | none => rfl
      | some n =>
        obtain ⟨g, hg, hkey, heq⟩ := hsubject n rfl
        rw [inj hg hf heq] at hkey
        exact beq_iff_eq.2
          (injOn_nodeBytes (hvalues _ (by simp [Fact.values])) (hq.1 n rfl) hkey).symm
    · cases predicate with
      | none => rfl
      | some p =>
        obtain ⟨g, hg, hkey, heq⟩ := hpredicate p rfl
        rw [inj hg hf heq] at hkey
        exact beq_iff_eq.2 hkey.symm
    · cases object with
      | none => rfl
      | some v =>
        obtain ⟨g, hg, hkey, heq⟩ := hobject v rfl
        rw [inj hg hf heq] at hkey
        exact beq_iff_eq.2
          (injOn_valueBytes (hvalues _ (by simp [Fact.values])) (hq.2.2 v rfl) hkey).symm
  · rintro ⟨f, hf, haccepts, rfl⟩
    exact h.mem_candidates hids hf haccepts

theorem answer?_find_of_partial (hq : q.Partial) {ids : List Digest}
    (hids : x.candidates q = .ok ids) :
    x.answer? (.find q) = if ids = [] then some (.ok (.facts [])) else none := by
  rw [answer?, hq.1, hq.2, hids]
  cases ids <;> rfl

theorem answer?_find_of_not_partial (hq : ¬ q.Partial) : x.answer? (.find q) = none := by
  have hasked : (q.isAny || q.fact?.isSome) = true := by
    by_contra hnot
    rw [Bool.not_eq_true, Bool.or_eq_false_iff, Option.isSome_eq_false_iff,
      Option.isNone_iff_eq_none] at hnot
    exact hq hnot
  rw [answer?, if_pos hasked]

theorem eq_of_answer?_find {a : Except StoreError Answer} (ha : x.answer? (.find q) = some a) :
    a = .ok (.facts []) := by
  rw [answer?] at ha
  split at ha
  · cases ha
  · split at ha
    · exact (Option.some.inj ha).symm
    · cases ha

/-- An index that describes facts leaves to the storage what comes to it. -/
theorem Describes.answer?_eq_none_iff (h : x.Describes A) (inj : Set.InjOn Fact.digest V)
    (hAV : A ⊆ V) (hA : ∀ f ∈ A, f.WithinLimit) {r : Request} (hr : r.Admissible)
    (hfacts : ∀ f ∈ r.facts, f ∈ V) : x.answer? r = none ↔ r.Reaches A := by
  have hcontains : ∀ f ∈ V, (x.contains f.digest = true ↔ f ∈ A) := by
    intro f hf
    rw [h.contains_iff]
    constructor
    · rintro ⟨g, hg, heq⟩
      exact inj (hAV hg) hf heq ▸ hg
    · exact fun hf => ⟨f, hf, rfl⟩
  cases r with
  | insert f =>
    have hf := hcontains f (hfacts f (List.mem_singleton_self f))
    simp [answer?, Request.Reaches, ← hf]
  | insertNew f =>
    have hf := hcontains f (hfacts f (List.mem_singleton_self f))
    simp [answer?, Request.Reaches, ← hf]
  | insertAll facts =>
    have hall : (facts.all fun f => x.contains f.digest) = true ↔ ∀ f ∈ facts, f ∈ A := by
      rw [List.all_eq_true]
      exact forall₂_congr fun f hf => hcontains f (hfacts f hf)
    rw [answer?, Request.Reaches]
    split
    · next hyes => simpa using hall.1 hyes
    · next hno => simpa [hall] using hno
  | find q =>
    rw [Request.Reaches]
    by_cases hq : q.Partial
    · obtain ⟨ids, hids⟩ := @exists_candidates x q hr.withinLimit.1 hr.withinLimit.2.2
      have hmem : ∀ id, id ∈ ids ↔ ∃ f ∈ A, q.accepts f = true ∧ f.digest = id :=
        fun _ => h.mem_candidates_iff (inj.mono hAV) hA hr.withinLimit hids
      rw [answer?_find_of_partial hq hids]
      split
      · next hnil =>
        simp only [hnil, List.not_mem_nil, false_iff] at hmem
        simp only [reduceCtorEq, false_iff]
        intro hreaches
        obtain ⟨f, hf, haccepts⟩ := hreaches hq
        exact hmem f.digest ⟨f, hf, haccepts, rfl⟩
      · next hne =>
        obtain ⟨id, hid⟩ := List.exists_mem_of_ne_nil _ hne
        obtain ⟨f, hf, haccepts, -⟩ := (hmem id).1 hid
        simpa using fun _ => ⟨f, hf, haccepts⟩
    · simp [answer?_find_of_not_partial hq, hq]
  | count => simp [answer?, Request.Reaches]
  | _ => simp [answer?, Request.Reaches]

end Index

theorem Page.ofFacts_nil (limit offset : UInt64) :
    Page.ofFacts limit offset [] = ⟨[], 0, false⟩ := by
  have hstop : Page.sliceEnd limit 0 0 = 0 := by
    rw [Page.sliceEnd]
    split <;> simp
  simp [Page.ofFacts, Page.byDigest, hstop]

namespace Store

variable {s : Store} {f : Fact} {q : Query} {r : Request}

/-! ## What a closed store does -/

theorem insert_of_closed (h : s.storage.isOpen = false) (hf : Storable f) :
    s.insert f = if s.index.contains f.digest then .ok (s, f.digest, false)
      else .error (.closed s.storage.closedText) := by
  have hput : s.storage.put f.digest f = .error (.closed s.storage.closedText) := by
    simp [Storage.put, Encoding.encode_eq_ok.2 ⟨hf.withinLimit, rfl⟩, Storage.check_of_closed h,
      bind, Except.bind]
  rw [Store.insert, checkStorable_eq_ok.2 hf, hf.withinLimit.id]
  simp only [bind, Except.bind, hput]
  split <;> rfl

theorem contains_of_closed (h : s.storage.isOpen = false) (hf : f.WithinLimit) :
    s.contains f = .error (.closed s.storage.closedText) := by
  simp [Store.contains, hf.id, Storage.has, Storage.check_of_closed h, bind, Except.bind]

/-- Facts in the index are noted, and the first one that is not is refused. -/
theorem forEach_insertNoting_of_closed (h : s.storage.isOpen = false) {facts : List Fact}
    (hfacts : ∀ f ∈ facts, Storable f) (noted : List (Digest × Bool)) :
    if facts.all fun f => s.index.contains f.digest then
      Attempt.forEach insertNoting (s, noted) facts =
        ((s, (facts.map fun f => (f.digest, false)).reverse ++ noted), none)
    else ∃ noted', Attempt.forEach insertNoting (s, noted) facts =
      ((s, noted'), some (.closed s.storage.closedText)) := by
  induction facts generalizing noted with
  | nil => simp
  | cons f rest ih =>
    rw [List.forall_mem_cons] at hfacts
    rw [Attempt.forEach, insertNoting, insert_of_closed h hfacts.1]
    by_cases hf : s.index.contains f.digest = true
    · simpa [hf] using ih hfacts.2 ((f.digest, false) :: noted)
    · simp [hf]

theorem insertAll_of_closed (h : s.storage.isOpen = false) {facts : List Fact}
    (hfacts : ∀ f ∈ facts, Storable f) : s.insertAll facts =
      (s, if facts.all fun f => s.index.contains f.digest then
        .ok (facts.map fun f => (f.digest, false))
      else .error (.closed s.storage.closedText)) := by
  have heach := forEach_insertNoting_of_closed h hfacts []
  rw [insertAll]
  split at heach
  · next hall => simp [heach, hall]
  · next hnot =>
    obtain ⟨noted, heach⟩ := heach
    simp [heach, hnot]

theorem select_of_closed (h : s.storage.isOpen = false) (q : Query) (ids : List Digest) :
    s.select q ids = if ids = [] then .ok [] else .error (.closed s.storage.closedText) := by
  cases ids with
  | nil => rfl
  | cons id ids =>
    simp [select, Storage.get, Storage.check_of_closed h, bind, Except.bind]

theorem find_of_closed (h : s.storage.isOpen = false) (hq : (Request.find q).WithinLimit) :
    s.find q = if (s.index.answer? (.find q)).isSome then .ok []
      else .error (.closed s.storage.closedText) := by
  by_cases hpartial : q.Partial
  · obtain ⟨ids, hids⟩ := @Index.exists_candidates s.index q hq.1 hq.2.2
    have hfind : s.find q = s.select q ids := by
      simp [find, hpartial.1, hpartial.2, hids, bind, Except.bind]
    rw [hfind, select_of_closed h, Index.answer?_find_of_partial hpartial hids]
    cases ids <;> rfl
  · rw [Index.answer?_find_of_not_partial hpartial, find]
    split
    · simp [Storage.facts, Storage.check_of_closed h, bind, Except.bind]
    · next hany =>
      split
      · next f hf =>
        simp [contains_of_closed h (withinLimit_of_fact? hq hf), bind, Except.bind]
      · next hfact => exact absurd ⟨Bool.eq_false_iff.2 hany, hfact⟩ hpartial

/-- A closed store answers what the index answers, and refuses everything else. -/
theorem perform_of_closed (h : s.storage.isOpen = false) (hr : r.Admissible) :
    s.perform r = (s, (s.index.answer? r).getD (.error (.closed s.storage.closedText))) := by
  have hcheck := Storage.check_of_closed h
  cases r with
  | insert f =>
    have hf := hr.storable f (List.mem_singleton_self f)
    rw [Store.perform, insert_of_closed h hf, Index.answer?]
    split <;> rfl
  | insertNew f =>
    have hf := hr.storable f (List.mem_singleton_self f)
    rw [Store.perform, Represents.insertNew_eq, insert_of_closed h hf, Index.answer?]
    split <;> rfl
  | insertAll facts =>
    have hfacts : ∀ f ∈ facts, Storable f := hr.storable
    rw [Store.perform, insertAll_of_closed h hfacts, Index.answer?]
    split <;> rfl
  | find q =>
    rw [Store.perform, find_of_closed h hr.withinLimit]
    cases ha : s.index.answer? (.find q) with
    | none => rfl
    | some a =>
      rw [Index.eq_of_answer?_find ha]
      rfl
  | count => rfl
  | contains f =>
    rw [Store.perform, contains_of_closed h hr.withinLimit]
    rfl
  | _ =>
    -- These begin with the storage, which refuses them.
    simp [Store.perform, settle, Index.answer?, Store.remove, rebuild, flush, Store.get, Store.has,
      Storage.facts, Storage.flush, Storage.get, Storage.has, StoreError.kind, hcheck, bind,
      Except.bind, Except.map]

/-! ## Use after the end -/

/-- However a store is used and its storage is changed after the store was closed, its index stays
as it was. What the index answers is answered; every other request for storable facts and for
fields within the limit is refused because the storage is closed, as are the numbers about the
store, and nothing changes. If the index describes certain facts, it answers requests to store
nothing but these facts, queries with open and bound fields that accept none of them, and how many
facts there are. -/
theorem use_after_close (s : Store) (later : List Step) :
    (s.close.after later).index = s.index ∧
    (∃ e : StoreError, e.kind = .unavailable ∧
      (∀ r : Request, r.Admissible → (s.close.after later).perform r =
        (s.close.after later, (s.index.answer? r).getD (.error e))) ∧
      (s.close.after later).statistics = .error e ∧
      ∀ q limit offset, (Request.find q).WithinLimit →
        (s.close.after later).page q limit offset =
          if (s.index.answer? (.find q)).isSome then .ok ⟨[], 0, false⟩ else .error e) ∧
    ∀ (A V : Set Fact) (r : Request), s.index.Describes A → (∀ f ∈ A, f.WithinLimit) → A ⊆ V →
      Set.InjOn Fact.digest V → r.Admissible → (∀ f ∈ r.facts, f ∈ V) →
      (s.index.answer? r = none ↔ r.Reaches A) := by
  obtain ⟨hindex, hclosed⟩ := after_of_closed (Storage.isOpen_close s.storage) (s := s.close) later
  have hsame : (s.close.after later).index = s.index := hindex
  refine ⟨hsame, ⟨.closed (s.close.after later).storage.closedText, rfl, fun r hr => ?_,
    statistics_of_closed hclosed, fun q limit offset hq => ?_⟩, ?_⟩
  · rw [perform_of_closed hclosed hr, hsame]
  · rw [Store.page, find_of_closed hclosed hq, hsame]
    split
    · exact congrArg Except.ok (Page.ofFacts_nil limit offset)
    · rfl
  · intro A V r hdescribes hA hAV inj hr hfacts
    exact hdescribes.answer?_eq_none_iff inj hAV hA hr hfacts

/-- A closed store in memory says that the fact it had is stored and finds nothing about a node
that it did not have, while a new fact and the facts about a node that it had are refused. -/
theorem use_after_close_memory :
    let f : Fact := ⟨.named "a", "p", .named "b"⟩
    let g : Fact := ⟨.named "a", "q", .named "b"⟩
    let s := (insertAll { storage := .memory {} } [f]).1
    let t := s.close.after [.request (.insert g)]
    t.perform (.insert f) = (t, .ok (.stored f.digest false)) ∧
      t.perform (.find (.leaving (.named "z") none)) = (t, .ok (.facts [])) ∧
      ∃ e : StoreError, e.kind = .unavailable ∧ t.perform (.insert g) = (t, .error e) ∧
        t.perform (.find (.leaving (.named "a") none)) = (t, .error e) := by
  intro f g s t
  have hs : s.Represents {f} :=
    represents_insertAll_singleton ⟨rfl, rfl, rfl⟩ rfl (by decide +kernel)
  obtain ⟨-, ⟨e, hkind, hperform, -, -⟩, hreaches⟩ := use_after_close s [.request (.insert g)]
  have hstorable : ∀ x ∈ [f, g], Storable x := by decide +kernel
  have hstore : ∀ x ∈ [f, g], (Request.insert x).Admissible := fun x hx =>
    ⟨fun y hy => List.mem_singleton.1 hy ▸ hstorable x hx, trivial⟩
  have hfind : ∀ n ∈ [Node.named "a", .named "z"],
      (Request.find (.leaving n none)).Admissible := by
    intro n hn
    refine ⟨fun y hy => absurd hy List.not_mem_nil, ?_⟩
    have hname : (Value.node n).WithinLimit := by
      show ∀ t ∈ (Value.node n).fields, t.length ≤ fieldLimit
      revert n
      decide
    simpa [Request.WithinLimit, Query.leaving] using hname
  have hf : s.index.answer? (.insert f) = some (.ok (.stored f.digest false)) :=
    if_pos (by decide +kernel)
  have hz : s.index.answer? (.find (.leaving (.named "z") none)) = some (.ok (.facts [])) := by
    have hids : s.index.candidates (.leaving (.named "z") none) = .ok [] := by decide +kernel
    rw [Index.answer?_find_of_partial ⟨rfl, rfl⟩ hids, if_pos rfl]
  -- What the index describes decides about the other two requests.
  have hnone : ∀ r : Request, r.Admissible → (∀ x ∈ r.facts, x ∈ [f, g]) →
      (s.index.answer? r = none ↔ r.Reaches {x | x ∈ [f]}) := by
    have hdescribes : s.index.Describes {x | x ∈ [f]} :=
      hs.coherent.index.congr fun x => by simp [hs.content]
    have hdigests : ([f, g].map Fact.digest).Nodup := by decide +kernel
    exact fun r hr hfacts => hreaches _ {x | x ∈ [f, g]} r hdescribes
      (fun x hx => (hstorable x (by simp_all)).withinLimit) (fun x hx => by simp_all)
      (fun x hx y hy => List.inj_on_of_nodup_map hdigests hx hy) hr hfacts
  have hg : s.index.answer? (.insert g) = none :=
    (hnone _ (hstore g (by simp)) (by decide)).2 (show g ∉ [f] by decide)
  have ha : s.index.answer? (.find (.leaving (.named "a") none)) = none :=
    (hnone _ (hfind _ (by simp)) (by decide)).2 fun _ => ⟨f, by simp, by decide⟩
  refine ⟨?_, ?_, e, hkind, ?_, ?_⟩
  · rw [hperform _ (hstore f (by simp)), hf]
    rfl
  · rw [hperform _ (hfind _ (by simp)), hz]
    rfl
  · rw [hperform _ (hstore g (by simp)), hg]
    rfl
  · rw [hperform _ (hfind _ (by simp)), ha]
    rfl

end Store
end FactGraph
