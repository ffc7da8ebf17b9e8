import FactGraph.Proofs.Conflicts

/-!
# Stores behind a gate

A store is kept behind a gate if nothing is stored in it but what was found valid when its turn
came, by whatever rules; everything else may be asked of it at any time. From one such step to the
next the stored facts stay consistent (`Store.Guarded.step`): what comes in is admitted by what is
there and by all that comes in with it, and what goes out does no harm. So a store that was empty at
first never holds a conflict.
-/

namespace FactGraph

open Relation

namespace Store

/-- One step of a store behind a gate. -/
inductive Gated (schema : Schema) (s : Store) : Store → Prop
  /-- What was found valid is stored. -/
  | accepted {rules : Rulebook} {report : Report} (r : Request)
    (hreport : s.validate schema rules r.candidates = .ok report)
    (hvalid : report.isValid = true) : Gated schema s (s.perform r).1
  /-- Something is asked that stores nothing, such as to take out a fact. -/
  | other (r : Request) (hr : r.candidates = []) : Gated schema s (s.perform r).1

/-- What holds of a store behind a gate. -/
structure Guarded (schema : Schema) (s : Store) : Prop where
  /-- The index describes what is stored. -/
  coherent : s.Coherent
  /-- The storage accepts changes. -/
  writable : s.storage.Writable
  /-- The stored facts can stand together. -/
  consistent : schema.Consistent s.content
  /-- The facts that they exclude can be looked up. -/
  limit : schema.ExclusionsWithinLimit s.content

variable {schema : Schema} {s s' : Store} {f : Fact}

/-! ## What a request does to the stored facts -/

/-- Whether a store that accepts changes has become one that holds nothing new but certain facts. -/
structure Grown (s : Store) (new : List Fact) (s' : Store) : Prop where
  /-- The index describes what is stored. -/
  coherent : s'.Coherent
  /-- The storage accepts changes. -/
  writable : s'.storage.Writable
  /-- What is stored was stored or is one of the facts. -/
  content : s'.content ⊆ s.contentWith new

theorem Grown.refl (hs : s.Coherent) (hw : s.storage.Writable) (new : List Fact) :
    s.Grown new s :=
  ⟨hs, hw, content_subset_contentWith⟩

theorem grown_insert (hs : s.Coherent) (hw : s.storage.Writable) {id : Digest} {new : Bool}
    (h : s.insert f = .ok (s', id, new)) : s.Grown [f] s' := by
  obtain ⟨hs', -, hcontent⟩ := hs.of_insert h
  refine ⟨hs', writable_insert hw h, fun g hg => ?_⟩
  rcases (hcontent g).1 hg with hg | ⟨-, rfl⟩
  · exact Or.inl hg
  · exact Or.inr (List.mem_singleton_self g)

theorem grown_perform (hs : s.Coherent) (hw : s.storage.Writable) (r : Request) :
    s.Grown r.candidates (s.perform r).1 := by
  refine perform_induction r ?_ ?_ ?_ (.refl hs hw _)
  · intro t t' f id new hf ht hi
    have hgrown := grown_insert ht.coherent ht.writable hi
    refine ⟨hgrown.coherent, hgrown.writable, fun g hg => ?_⟩
    rcases mem_contentWith.1 (hgrown.content hg) with hg | hg
    · exact ht.content hg
    · rw [List.mem_singleton.1 hg]
      exact Or.inr hf
  · intro t t' id existed ht hr
    obtain ⟨ht', -, hcontent⟩ := ht.coherent.of_remove hr
    obtain ⟨-, -, hstorage, -⟩ := Storage.erase_eq_ok.1 (remove_eq_ok hr).1
    exact ⟨ht', hstorage ▸ ht.writable.eraseBytes id, fun g hg => ht.content ((hcontent g).1 hg).1⟩
  · intro t t' count ht hr
    obtain ⟨ht', hstorage⟩ := coherent_of_rebuild ht.coherent.addressed hr
    refine ⟨ht', hstorage ▸ ht.writable, fun g hg => ht.content ?_⟩
    rwa [content, hstorage] at hg

/-! ## Behind the gate -/

namespace Guarded

theorem mono (h : s.Guarded schema) {new : List Fact} (hgrown : s.Grown new s')
    (hadmits : ∀ f ∈ new, schema.Admits (s.contentWith new) f)
    (hlimit : schema.ExclusionsWithinLimit {f | f ∈ new}) : s'.Guarded schema where
  coherent := hgrown.coherent
  writable := hgrown.writable
  consistent := (h.consistent.union hadmits).mono hgrown.content
  limit := by
    intro f hf
    rcases mem_contentWith.1 (hgrown.content hf) with hf | hf
    · exact h.limit f hf
    · exact hlimit f hf

/-- Whatever is asked of a store behind a gate, it stays behind it. -/
theorem step (h : s.Guarded schema) (hstep : Gated schema s s') : s'.Guarded schema := by
  cases hstep with
  | accepted r hreport hvalid =>
    obtain ⟨hadmits, hlimit⟩ :=
      admits_of_validate h.coherent h.writable.isOpen hreport hvalid
    exact h.mono (grown_perform h.coherent h.writable r) hadmits hlimit
  | other r hr =>
    have hgrown := grown_perform h.coherent h.writable r
    rw [hr] at hgrown
    refine h.mono hgrown ?_ ?_ <;> intro f hf <;> cases hf

theorem run (h : s.Guarded schema) (hrun : ReflTransGen (Gated schema) s s') :
    s'.Guarded schema := by
  induction hrun with
  | refl => exact h
  | tail _ hstep ih => exact ih.step hstep

theorem conflicts_eq (h : s.Guarded schema)
    (inj : Set.InjOn Fact.digest (schema.lookups s.content)) : s.conflicts schema = .ok [] := by
  obtain ⟨l, hl⟩ := exists_conflicts h.coherent h.writable.isOpen h.limit
  have hquiet := (Schema.consistent_iff_quiet.1 h.consistent).1
  rw [hl, (conflicts_eq_nil h.coherent inj hl).2 hquiet]

end Guarded

/-- Without facts, every store that accepts changes is behind a gate. -/
theorem guarded_of_empty (hs : s.Represents ∅) : s.Guarded schema where
  coherent := hs.coherent
  writable := hs.writable
  consistent := Schema.consistent_iff.2 fun f hf => by simpa using (hs.content f).1 hf
  limit := fun f hf => by simpa using (hs.content f).1 hf

/-- A store is opened over a storage of any kind that accepts changes and has no cells. As long as
nothing is stored but what was found valid when its turn came, no functional predicate has two
objects for a subject, no two predicates that exclude each other hold between the same subject and
object, and no node comes before itself in time. The scan then finds no conflict, where digests tell
apart the facts that it looks up. -/
theorem consistent_of_gated {storage : Storage} (hw : storage.Writable)
    (hempty : storage.cells.items = []) (schema : Schema) :
    ∃ s₀, opened (some storage) = .ok s₀ ∧ ∀ s, ReflTransGen (Gated schema) s₀ s →
      schema.Consistent s.content ∧
      (Set.InjOn Fact.digest (schema.lookups s.content) → s.conflicts schema = .ok []) := by
  obtain ⟨s₀, hrebuild, hs₀⟩ := (represents_empty hw hempty).rebuild
  refine ⟨s₀, ?_, fun s hrun => ?_⟩
  · simp only [opened, hrebuild, bind, Except.bind]
    rfl
  · have hs := (guarded_of_empty hs₀).run hrun
    exact ⟨hs.consistent, hs.conflicts_eq⟩

/-- Three facts are found valid together and stored, and one of them is taken out again. -/
theorem consistent_of_gated_memory :
    let schema : Schema := { exclusive := [("alive", "dead")] }
    let facts : List Fact := [⟨.named "a", "before", .named "b"⟩,
      ⟨.named "b", "before", .named "c"⟩, ⟨.named "cat", "alive", .boolean true⟩]
    ∃ s₀ s, opened (some (.memory {})) = .ok s₀ ∧ ReflTransGen (Gated schema) s₀ s ∧
      (∀ f, f ∈ s.content ↔ f ∈ facts.tail) ∧ schema.Consistent s.content ∧
      s.conflicts schema = .ok [] := by
  intro schema facts
  let others : List Fact := [⟨.named "b", "before", .named "a"⟩,
    ⟨.named "c", "before", .named "b"⟩, ⟨.named "cat", "dead", .boolean true⟩]
  have heads : ((facts ++ others).map Fact.digest).Nodup := by decide +kernel
  have injFacts : Set.InjOn Fact.digest {f | f ∈ facts ++ others} := fun f hf g hg heq =>
    List.inj_on_of_nodup_map heads hf hg heq
  have hw : (Storage.memory {}).Writable := ⟨rfl, rfl, rfl⟩
  obtain ⟨s₀, hopened, hall⟩ := consistent_of_gated hw rfl schema
  obtain rfl : ({ storage := .memory {} } : Store) = s₀ := Except.ok.inj hopened
  -- What is asked for: to store all facts, and to take the first one out.
  have hvalid : (validate { storage := .memory {} } schema {} facts).toOption.any
      Report.isValid = true := by decide +kernel
  have hstored : Gated schema { storage := .memory {} }
      (insertAll { storage := .memory {} } facts).1 := by
    cases hreport : validate { storage := .memory {} } schema {} facts with
    | error e => simp [hreport, Except.toOption] at hvalid
    | ok report =>
      rw [hreport] at hvalid
      have hstep := Gated.accepted (.insertAll facts) hreport hvalid
      simp only [perform] at hstep
      exact hstep
  have hstorable : ∀ f ∈ facts, Storable f := by decide +kernel
  have hrep := represents_insertAll hstorable
    (injFacts.mono fun f hf => List.mem_append_left others hf)
  obtain ⟨s, hremove, hrep⟩ := hrep.remove (facts.head (by decide)).digest
  have hremoved : Gated schema (insertAll { storage := .memory {} } facts).1 s := by
    have hstep : Gated schema (insertAll { storage := .memory {} } facts).1 (perform _ _).1 :=
      .other (.remove (facts.head (by decide)).digest) rfl
    rwa [perform, hremove] at hstep
  have hrun : ReflTransGen (Gated schema) { storage := .memory {} } s :=
    .tail (.single hstored) hremoved
  have hdigests : ∀ f ∈ facts.tail, f.digest ≠ (facts.head (by decide)).digest := by decide +kernel
  have hcontent : ∀ f, f ∈ s.content ↔ f ∈ facts.tail := by
    intro f
    rw [hrep.content, Request.next, Finset.mem_filter, List.mem_toFinset]
    constructor
    · rintro ⟨hf, hne⟩
      rcases List.mem_cons.1 hf with rfl | hf
      · exact absurd rfl hne
      · exact hf
    · exact fun hf => ⟨List.mem_cons_of_mem _ hf, hdigests f hf⟩
  obtain ⟨hconsistent, hscan⟩ := hall s hrun
  refine ⟨_, s, hopened, hrun, hcontent, hconsistent, hscan (injFacts.mono ?_)⟩
  rintro g (hg | ⟨f, hf, pair, hpair, p, hp, rfl⟩ | ⟨n, f, hf, hobject, rfl⟩)
  · exact List.mem_append_left others (List.mem_cons_of_mem _ ((hcontent g).1 hg))
  · obtain rfl := List.mem_singleton.1 hpair
    rw [hcontent] at hf
    simp only [facts, List.tail_cons, List.mem_cons, List.not_mem_nil, or_false] at hf
    rcases hf with rfl | rfl
    · cases hp
    · cases hp
      decide
  · rw [hcontent] at hf
    simp only [facts, List.tail_cons, List.mem_cons, List.not_mem_nil, or_false] at hf
    rcases hf with rfl | rfl <;> cases hobject
    decide

end Store
end FactGraph
