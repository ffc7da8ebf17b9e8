import FactGraph.Proofs.Confluence
import FactGraph.Search

/-!
# Looking up what would be derived

An engine finds facts among everything that rules derive without storing any of it: it copies the
stored facts into a store in memory, runs forward chaining over the copy and asks the copy. The copy
holds the same facts, though it is kept elsewhere and got them in another order, so that forward
chaining over it goes as it would over the store itself: both fail for the same kind of reason, or
both come to their end with the same facts stored (`Engine.findDerived_agrees`).
-/

namespace FactGraph

/-! ## Engines -/

/-- A store with what was counted while reasoning over it, and the bounds on reasoning. -/
structure Engine where
  /-- The store. -/
  store : Store
  /-- The counters. -/
  counters : Counters := {}
  /-- How many sweeps forward chaining may begin. -/
  sweeps : Nat
  /-- How many rules may be applied one above the other in a proof. -/
  depth : Nat

namespace Engine

/-- What an engine can be asked to do. -/
inductive Task where
  /-- To store what rules derive. -/
  | infer (rules : Rulebook)
  /-- To find facts among the stored ones and those that rules derive. -/
  | findDerived (rules : Rulebook) (q : Query)
  /-- To prove a goal. -/
  | prove (rules : Rulebook) (goal : Query)

/-- What an engine answers. -/
inductive Reply where
  /-- Facts. -/
  | facts (l : List Fact)
  /-- A proof. -/
  | proof (p : Proof)

/-- What an engine is after a task, and what it answers. -/
def perform (e : Engine) : Task → Engine × Except Failure Reply
  | .infer rules =>
    let i := e.store.infer e.counters rules e.sweeps
    ({ e with store := i.store, counters := i.counters }, i.outcome.map .facts)
  | .findDerived rules q => (e, (e.store.findDerived rules e.sweeps q).map .facts)
  | .prove rules goal =>
    let (counters, outcome) := e.store.prove e.counters rules e.depth goal
    ({ e with counters }, outcome.map .proof)

end Engine

namespace Store

variable {s s₁ s₂ : Store} {S : Finset Fact} {rules : Rulebook} {q : Query} {bound : Nat}

/-! ## Two stores of the same facts -/

/-- Coherent stores of the same facts find the same, each fact once. -/
theorem Coherent.perm_find (h₁ : s₁.Coherent) (h₂ : s₂.Coherent)
    (hcontent : s₁.content = s₂.content)
    (hasked : ∀ f, q.fact? = some f → ∀ g ∈ s₁.content, g.digest = f.digest → g = f)
    {l₁ l₂ : List Fact} (hl₁ : s₁.find q = .ok l₁) (hl₂ : s₂.find q = .ok l₂) : l₁.Perm l₂ := by
  rw [List.perm_ext_iff_of_nodup (h₁.nodup_find hl₁) (h₂.nodup_find hl₂)]
  intro f
  rw [h₁.mem_find_iff hasked hl₁, h₂.mem_find_iff (hcontent ▸ hasked) hl₂, hcontent]

/-- Storable facts can be copied into memory. -/
theorem Represents.exists_copy (h : s.Represents S) (hS : ∀ f ∈ S, Storable f) :
    ∃ facts copy, s.find .any = .ok facts ∧ inMemory facts = .ok copy ∧ copy.Represents S := by
  obtain ⟨facts, hfacts⟩ := exists_find (q := .any) h.coherent.addressed h.writable.isOpen
    ⟨by simp [Query.any], by simp [Query.any], by simp [Query.any]⟩
  have hmem : ∀ f, f ∈ facts ↔ f ∈ S := by
    intro f
    rw [h.coherent.mem_find_iff (by simp [Query.any, Query.fact?]) hfacts, h.content]
    simp [Query.accepts_of_isAny (show Query.any.isAny = true from rfl)]
  have inj : Set.InjOn Fact.digest {f | f ∈ facts} := h.coherent.addressed.injOn_digest.mono
    fun f hf => (h.content f).2 ((hmem f).1 hf)
  have hempty : Represents { storage := .memory {} } ∅ := represents_empty ⟨rfl, rfl, rfl⟩ rfl
  obtain ⟨copy, hall, hcopy⟩ := hempty.exists_insertAll
    (inj.mono fun f hf => hf.resolve_left (Finset.notMem_empty f)) fun f hf => hS f ((hmem f).1 hf)
  have hsame : ∅ ∪ facts.toFinset = S := Finset.ext fun f => by simp [hmem]
  exact ⟨facts, copy, hfacts, by rw [inMemory, hall], hsame ▸ hcopy⟩

/-- Looking up what would be derived is forward chaining over a copy. -/
theorem findDerived_eq {facts : List Fact} {copy : Store} (hfacts : s.find .any = .ok facts)
    (hcopy : inMemory facts = .ok copy) : s.findDerived rules bound q = (do
      let _ ← (copy.infer {} rules bound).outcome
      StoreError.lift ((copy.infer {} rules bound).store.find q)) := by
  simp only [findDerived, hfacts, hcopy, StoreError.lift, bind, Except.bind, Except.mapError]

/-- Forward chaining fails as its run does. -/
theorem infer_of_refused (c : Counters)
    (h : Run.Refused (Run.toFixpoint rules.rules bound bound { store := s })) :
    ∃ e, (s.infer c rules bound).outcome = .error (.logic (.store e)) := by
  obtain ⟨e, he⟩ := h
  refine ⟨e, ?_⟩
  simp only [infer, he]

/-- Forward chaining over two stores of the same facts, which may derive facts that cannot be stored,
fails for the same kind of reason, or leaves the same facts. -/
theorem Represents.infer_tied (h₁ : s₁.Represents S) (h₂ : s₂.Represents S) (hrules : rules.Made)
    (hconstants : ∀ r ∈ rules.rules, ∀ x ∈ r.constants, x.WithinLimit)
    (inj : Set.InjOn Fact.digest (factsOver (vocabulary rules.rules S))) (c₁ c₂ : Counters)
    (bound : Nat) :
    let i₁ := s₁.infer c₁ rules bound
    let i₂ := s₂.infer c₂ rules bound
    (∃ e₁ e₂, i₁.outcome = .error (.logic e₁) ∧ i₂.outcome = .error (.logic e₂) ∧
      e₁.kind = e₂.kind) ∨
    ∃ r₁ r₂, (i₁.store = r₁.store ∧ i₁.outcome = .ok r₁.derived) ∧
      (i₂.store = r₂.store ∧ i₂.outcome = .ok r₂.derived) ∧ Run.Alike rules.rules S r₁ r₂ := by
  have hlimit : ∀ x ∈ vocabulary rules.rules (S : Set Fact), x.WithinLimit :=
    h₁.content_eq ▸ withinLimit_vocabulary hconstants s₁
  rcases (h₁.alike rules.rules h₂).tied_toFixpoint hrules.sound inj hlimit bound bound with
    ⟨k, -, failed, ht₁, ht₂, halike, hfailed⟩ | ⟨-, hrefused₁, hrefused₂⟩
  · obtain ⟨hstore₁, houtcome₁, -⟩ := infer_of_toFixpoint c₁ ht₁
    obtain ⟨hstore₂, houtcome₂, -⟩ := infer_of_toFixpoint c₂ ht₂
    rcases hfailed with rfl | rfl
    · exact Or.inr ⟨_, _, ⟨hstore₁, houtcome₁⟩, ⟨hstore₂, houtcome₂⟩, halike⟩
    · exact Or.inl ⟨_, _, houtcome₁, houtcome₂, rfl⟩
  · obtain ⟨e₁, he₁⟩ := infer_of_refused c₁ hrefused₁
    obtain ⟨e₂, he₂⟩ := infer_of_refused c₂ hrefused₂
    exact Or.inl ⟨_, _, he₁, he₂, rfl⟩

end Store

namespace Engine

variable {e : Engine} {S : Finset Fact} {rules : Rulebook} {q : Query}

/-- Looking up what would be derived leaves an engine as it is, and finds what is found once it has
been derived, each fact once. It fails where deriving it fails, for the same kind of reason. -/
theorem findDerived_agrees (h : e.store.Represents S) (hS : ∀ f ∈ S, Store.Storable f)
    (hrules : rules.Made) (hconstants : ∀ r ∈ rules.rules, ∀ x ∈ r.constants, x.WithinLimit)
    (hq : ∀ x ∈ (Atom.ofQuery q).constants, x.WithinLimit)
    (inj : Set.InjOn Fact.digest
      (factsOver (vocabulary rules.rules S ∪ {x | x ∈ (Atom.ofQuery q).constants}))) :
    let looked := e.perform (.findDerived rules q)
    let derived := e.perform (.infer rules)
    looked.1 = e ∧
    ((∃ error error', looked.2 = .error (.logic error) ∧ derived.2 = .error (.logic error') ∧
        error.kind = error'.kind) ∨
      ∃ found new stored, looked.2 = .ok (.facts found) ∧ derived.2 = .ok (.facts new) ∧
        derived.1.store.find q = .ok stored ∧ found.Nodup ∧ found.Perm stored) := by
  obtain ⟨facts, copy, hfacts, hmemory, hcopy⟩ := h.exists_copy hS
  have injV := inj.mono (factsOver_mono Set.subset_union_left)
  refine ⟨rfl, ?_⟩
  simp only [perform, Store.findDerived_eq hfacts hmemory]
  rcases hcopy.infer_tied h hrules hconstants injV {} e.counters e.sweeps with
    ⟨error, error', herror, herror', hkind⟩ | ⟨r, r', ⟨hstore, hok⟩, ⟨hstore', hok'⟩, halike⟩
  · exact Or.inl ⟨error, error', by rw [herror]; rfl, by rw [herror']; rfl, hkind⟩
  · have hlimit : (Request.find q).WithinLimit := Atom.forall_constants_ofQuery.1 hq
    obtain ⟨found, hfound⟩ :=
      Store.exists_find halike.left.coherent.addressed halike.writable_left.isOpen hlimit
    obtain ⟨stored, hstored⟩ :=
      Store.exists_find halike.right.coherent.addressed halike.writable_right.isOpen hlimit
    have hover : r.store.content ⊆
        factsOver (vocabulary rules.rules S ∪ {x | x ∈ (Atom.ofQuery q).constants}) :=
      halike.left.content_subset.trans
        (consequences_subset_factsOver hrules.sound Set.subset_union_left)
    have hasked : ∀ f, q.fact? = some f → ∀ g ∈ r.store.content, g.digest = f.digest → g = f :=
      fun f hf g hg heq =>
        inj (hover hg) (Query.mem_factsOver (fun x hx => Or.inr hx) hf) heq
    refine Or.inr ⟨found, r'.derived, stored, ?_, ?_, ?_, ?_, ?_⟩
    · rw [hok, hstore]
      simp [hfound, StoreError.lift, bind, Except.bind, Except.map, Except.mapError]
    · rw [hok']
      rfl
    · rw [hstore']
      exact hstored
    · exact halike.left.coherent.nodup_find hfound
    · exact halike.left.coherent.perm_find halike.right.coherent halike.content hasked hfound
        hstored

/-- Over a table of one fact, a rule that turns facts around lets a fact be found that is not
stored. -/
theorem findDerived_agrees_mirror :
    let f : Fact := ⟨.named "a", "p", .named "p"⟩
    let g : Fact := ⟨.named "p", "p", .named "a"⟩
    let mirror : Rule := {
      name := "mirror"
      conditions := [{ atom := ⟨.var "x", .named "p", .var "y"⟩ }]
      actions := [.derive ⟨.var "y", .named "p", .var "x"⟩] }
    let rules : Rulebook := { rules := [mirror] }
    let q : Query := .leaving (.named "p") none
    let e : Engine := {
      store := (Store.insertAll { storage := .table { path := "facts.db" } } [f]).1
      sweeps := 2
      depth := 1 }
    e.store.Represents {f} ∧ e.perform (.findDerived rules q) = (e, .ok (.facts [g])) ∧
      (e.perform (.infer rules)).1.store.find q = .ok [g] := by
  intro f g mirror rules q e
  have hmade : rules.Made := Rulebook.made_of_addAll rfl (by decide)
  have hfacts : ∀ x ∈ ({f} : Finset Fact), Store.Storable x := by decide +kernel
  have hstore : e.store.Represents {f} :=
    Store.represents_insertAll_singleton ⟨rfl, rfl, rfl⟩ rfl (by decide +kernel)
  have hconstants : ∀ r ∈ rules.rules, ∀ x ∈ r.constants, ∀ t ∈ x.fields,
      t.length ≤ fieldLimit := by decide +kernel
  have hq : ∀ x ∈ (Atom.ofQuery q).constants, ∀ t ∈ x.fields, t.length ≤ fieldLimit := by
    decide +kernel
  have hvalues : vocabulary rules.rules (({f} : Finset Fact) : Set Fact) ∪
      {x | x ∈ (Atom.ofQuery q).constants} ⊆ {x | x ∈ [.named "a", .named "p"]} := by
    rw [Finset.coe_singleton, vocabulary_singleton]
    refine Set.union_subset ?_ ?_
    · exact show ∀ x ∈ f.values ++ rules.rules.flatMap Rule.constants, _ from by decide
    · exact show ∀ x ∈ (Atom.ofQuery q).constants, _ from by decide
  have inj : Set.InjOn Fact.digest (factsOver {x | x ∈ [.named "a", .named "p"]}) :=
    injOn_digest_of_nodup (by decide +kernel)
  have hfound : (e.store.findDerived rules 2 q == .ok [g]) = true := by decide +kernel
  have hperform : e.perform (.findDerived rules q) = (e, .ok (.facts [g])) := by
    rw [perform, beq_iff_eq.1 hfound]
    rfl
  obtain ⟨-, hagrees⟩ := findDerived_agrees hstore hfacts hmade hconstants hq
    (inj.mono (factsOver_mono hvalues))
  rw [hperform] at hagrees
  rcases hagrees with ⟨_, _, herror, -⟩ | ⟨found, new, stored, hok, -, hstored, -, hperm⟩
  · cases herror
  · cases hok
    refine ⟨hstore, hperform, ?_⟩
    rw [hstored, ← List.singleton_perm.1 hperm]

end Engine
end FactGraph
