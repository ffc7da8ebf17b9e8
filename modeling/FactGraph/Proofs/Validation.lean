import FactGraph.Proofs.Order
import FactGraph.Proofs.Reachability

/-!
# What the checks without rules find

Each of the checks that need no rule finds nothing wrong with a fact if and only if the fact is
admitted by the set of facts that it is checked against (`Schema.Admits`). A set in which every
member is admitted is consistent (`Schema.consistent_iff`), and it stays consistent if facts are
added that the whole admits (`Schema.Consistent.union`).

Whatever these checks find is worse than a warning, so that candidates which are found valid are
admitted by the stored facts and all candidates together (`Store.admits_of_validate`).
-/

namespace FactGraph

open Relation

theorem Fact.WithinLimit.withPredicate {f : Fact} (hf : f.WithinLimit) {p : Text}
    (hp : p.length ≤ fieldLimit) : ({ f with predicate := p } : Fact).WithinLimit := by
  rw [Fact.withinLimit_iff] at hf ⊢
  simp_all [Fact.values, Value.WithinLimit, Value.fields, Node.fields]

/-! ## Reports -/

theorem Report.mem_addAll {r : Report} {findings : List Finding} {x : Finding} :
    x ∈ (r.addAll findings).findings ↔ x ∈ r.findings ∨ x ∈ findings := by
  rw [addAll]
  induction findings generalizing r with
  | nil => simp
  | cons y findings ih =>
    have hadd : x ∈ (r.add y).findings ↔ x ∈ r.findings ∨ x = y := by
      rw [add]
      split
      · next hy =>
        have hmem : y ∈ r.findings := by simpa using hy
        constructor
        · exact Or.inl
        · rintro (hx | rfl)
          · exact hx
          · exact hmem
      · simp
    rw [List.foldl_cons, ih, hadd, List.mem_cons, or_assoc]

theorem Report.isValid_iff {r : Report} :
    r.isValid = true ↔ ∀ x ∈ r.findings, x.severity = .warning := by
  simp [isValid]

namespace Schema

/-! ## Admitted facts and consistent sets -/

/-- Whether a set of facts has nothing against a fact. -/
structure Admits (schema : Schema) (A : Set Fact) (f : Fact) : Prop where
  /-- A functional predicate has no other object. -/
  functional : f.predicate ∈ schema.functional →
    ∀ g ∈ A, g.subject = f.subject → g.predicate = f.predicate → g.object = f.object
  /-- No predicate that is excluded holds instead. -/
  exclusive : ∀ pair ∈ schema.exclusive, ∀ p, excluded? f.predicate pair = some p →
    { f with predicate := p } ∉ A
  /-- The subject is not reached from the object in time. -/
  temporal : f.predicate = schema.temporal → ∀ n, f.object = .node n →
    ¬ ReflTransGen (Edge A schema.temporal) n f.subject

/-- Whether the members of a set can stand together. -/
structure Consistent (schema : Schema) (A : Set Fact) : Prop where
  /-- A functional predicate has at most one object per subject. -/
  functional : ∀ p ∈ schema.functional, ∀ n x y,
    (⟨n, p, x⟩ : Fact) ∈ A → (⟨n, p, y⟩ : Fact) ∈ A → x = y
  /-- Of two predicates that exclude each other, one at most holds between a subject and an
  object. -/
  exclusive : ∀ pair ∈ schema.exclusive, ∀ n x,
    ¬ ((⟨n, pair.1, x⟩ : Fact) ∈ A ∧ (⟨n, pair.2, x⟩ : Fact) ∈ A)
  /-- No node comes before itself in time. -/
  temporal : ∀ n, ¬ TransGen (Edge A schema.temporal) n n

/-- Whether the predicates that are excluded where members of a set hold are within the limit. -/
def ExclusionsWithinLimit (schema : Schema) (A : Set Fact) : Prop :=
  ∀ f ∈ A, ∀ pair ∈ schema.exclusive, ∀ p, excluded? f.predicate pair = some p →
    p.length ≤ fieldLimit

variable {schema : Schema} {v : View} {A B asked : Set Fact} {f : Fact} {found : List Finding}
  {pair : Text × Text} {p : Text}

/-- What a pair excludes is one side of it where the other one holds. -/
theorem excluded?_eq_some {predicate : Text} (h : excluded? predicate pair = some p) :
    predicate = pair.1 ∧ p = pair.2 ∨ predicate = pair.2 ∧ p = pair.1 := by
  rw [excluded?] at h
  split at h
  · next hfirst => exact Or.inl ⟨beq_iff_eq.1 hfirst, (Option.some.inj h).symm⟩
  · split at h
    · next hsecond => exact Or.inr ⟨beq_iff_eq.1 hsecond, (Option.some.inj h).symm⟩
    · cases h

theorem excluded?_fst (pair : Text × Text) : excluded? pair.1 pair = some pair.2 := by
  simp [excluded?]

theorem exists_excluded?_snd (pair : Text × Text) :
    ∃ p, excluded? pair.2 pair = some p ∧ (p = pair.1 ∨ p = pair.2 ∧ pair.2 = pair.1) := by
  rw [excluded?]
  split
  · next heq => exact ⟨_, rfl, Or.inr ⟨rfl, beq_iff_eq.1 heq⟩⟩
  · exact ⟨_, by simp, Or.inl rfl⟩

/-- A set is consistent if and only if it admits each of its members. -/
theorem consistent_iff : schema.Consistent A ↔ ∀ f ∈ A, schema.Admits A f := by
  constructor
  · intro h f hf
    obtain ⟨subject, predicate, object⟩ := f
    refine ⟨?_, ?_, ?_⟩
    · rintro hpredicate ⟨_, _, x⟩ hg rfl rfl
      exact h.functional _ hpredicate _ x object hg hf
    · intro pair hpair p hp hother
      rcases excluded?_eq_some hp with ⟨rfl, rfl⟩ | ⟨rfl, rfl⟩
      · exact h.exclusive pair hpair _ _ ⟨hf, hother⟩
      · exact h.exclusive pair hpair _ _ ⟨hother, hf⟩
    · rintro rfl n rfl hreach
      exact h.temporal subject (TransGen.head' hf hreach)
  · intro h
    refine ⟨?_, ?_, ?_⟩
    · intro p hp n x y hx hy
      exact (h _ hy).functional hp _ hx rfl rfl
    · rintro pair hpair n x ⟨hfirst, hsecond⟩
      exact (h _ hfirst).exclusive pair hpair _ (excluded?_fst pair) hsecond
    · intro n hcycle
      obtain ⟨m, hedge, hreach⟩ := TransGen.head'_iff.1 hcycle
      exact (h _ hedge).temporal rfl m rfl hreach

theorem Consistent.mono (h : schema.Consistent B) (hAB : A ⊆ B) : schema.Consistent A where
  functional := fun p hp n x y hx hy => h.functional p hp n x y (hAB hx) (hAB hy)
  exclusive := fun pair hpair n x hboth =>
    h.exclusive pair hpair n x ⟨hAB hboth.1, hAB hboth.2⟩
  temporal := fun n hcycle => h.temporal n (TransGen.mono (fun _ _ => Edge.mono hAB) _ _ hcycle)

/-- An edge of a cycle leads to a node from which its start is reached. Where all such edges are
among others, the others make a cycle too. -/
theorem transGen_of_cycle {R R' : Node → Node → Prop}
    (h : ∀ m n, R m n → ReflTransGen R n m → R' m n) {m n : Node} (hmn : TransGen R m n)
    (hnm : ReflTransGen R n m) : TransGen R' m n := by
  induction hmn with
  | single hedge => exact .single (h _ _ hedge hnm)
  | tail hfirst hedge ih =>
    have hback : ReflTransGen R _ m := .head hedge hnm
    exact .tail (ih hback) (h _ _ hedge (hnm.trans hfirst.to_reflTransGen))

/-- Facts that are admitted by a consistent set and themselves can be added to the set. -/
theorem Consistent.union (h : schema.Consistent A) (hB : ∀ f ∈ B, schema.Admits (A ∪ B) f) :
    schema.Consistent (A ∪ B) where
  functional := by
    intro p hp n x y hx hy
    by_cases hnew : (⟨n, p, y⟩ : Fact) ∈ B
    · exact (hB _ hnew).functional hp _ hx rfl rfl
    · by_cases hnew' : (⟨n, p, x⟩ : Fact) ∈ B
      · exact ((hB _ hnew').functional hp _ hy rfl rfl).symm
      · exact h.functional p hp n x y (hx.resolve_right hnew') (hy.resolve_right hnew)
  exclusive := by
    rintro pair hpair n x ⟨hfirst, hsecond⟩
    by_cases hnew : (⟨n, pair.1, x⟩ : Fact) ∈ B
    · exact (hB _ hnew).exclusive pair hpair _ (excluded?_fst pair) hsecond
    · by_cases hnew' : (⟨n, pair.2, x⟩ : Fact) ∈ B
      · obtain ⟨p, hp, rfl | ⟨rfl, hsame⟩⟩ := exists_excluded?_snd pair
        · exact (hB _ hnew').exclusive pair hpair _ hp hfirst
        · exact (hB _ hnew').exclusive pair hpair _ hp hsecond
      · exact h.exclusive pair hpair n x
          ⟨hfirst.resolve_right hnew, hsecond.resolve_right hnew'⟩
  temporal := by
    intro n hcycle
    -- No edge that was added is part of a cycle.
    refine h.temporal n (transGen_of_cycle (fun m k hedge hback => ?_) hcycle .refl)
    rcases hedge with hedge | hedge
    · exact hedge
    · exact absurd hback ((hB _ hedge).temporal rfl k rfl)

/-! ## The checks

### Functional predicates and order in time -/

theorem isFunctional_iff : schema.isFunctional p = true ↔ p ∈ schema.functional := by
  simp [isFunctional]

theorem checkFunctional_eq_nil (hv : v.Shows A asked) (h : schema.checkFunctional v f = .ok found) :
    found = [] ↔ (f.predicate ∈ schema.functional →
      ∀ g ∈ A, g.subject = f.subject → g.predicate = f.predicate → g.object = f.object) := by
  rw [checkFunctional] at h
  split at h
  · next hfunctional =>
    rw [isFunctional_iff] at hfunctional
    obtain ⟨facts, hfacts, h⟩ := bind_eq_ok.1 h
    rw [← pure_eq_ok.1 h, List.map_eq_nil_iff, List.filter_eq_nil_iff]
    constructor
    · intro hnone _ g hg hsubject hpredicate
      have hmem : g ∈ facts := by
        refine hv.mem_find _ _ hfacts g hg ?_
        simp [Query.accepts, Query.leaving, Query.agrees, hsubject, hpredicate]
      simpa using hnone g (Fact.mem_sort.2 hmem)
    · intro hall g hg
      obtain ⟨hA, haccepts⟩ :=
        hv.find _ _ hfacts (fun f hf => by cases hf) g (Fact.mem_sort.1 hg)
      simp only [Query.accepts, Query.leaving, Query.agrees, Bool.and_true, Bool.and_eq_true,
        beq_iff_eq] at haccepts
      simpa using hall hfunctional g hA haccepts.1.symm haccepts.2.symm
  · next hfunctional =>
    rw [isFunctional_iff] at hfunctional
    rw [← pure_eq_ok.1 h]
    exact ⟨fun _ hf => absurd hf hfunctional, fun _ => rfl⟩

theorem checkTemporal_eq_nil (hv : v.Shows A asked) (hbounds : v.Bounds A)
    (h : schema.checkTemporal v f = .ok found) :
    found = [] ↔ (f.predicate = schema.temporal → ∀ n, f.object = .node n →
      ¬ ReflTransGen (Edge A schema.temporal) n f.subject) := by
  rw [checkTemporal] at h
  split at h
  · next n hobject =>
    split at h
    · next htemporal =>
      rw [beq_iff_eq] at htemporal
      obtain ⟨b, hb, h⟩ := bind_eq_ok.1 h
      have hreach := reaches_iff hv hbounds hb
      cases b with
      | true =>
        rw [if_pos rfl] at h
        rw [← pure_eq_ok.1 h]
        simp only [List.cons_ne_nil, false_iff]
        exact fun hall => hall htemporal n hobject (hreach.1 rfl)
      | false =>
        rw [← pure_eq_ok.1 h]
        refine ⟨fun _ _ m hm hpath => ?_, fun _ => rfl⟩
        rw [hobject, Value.node.injEq] at hm
        subst hm
        exact absurd (hreach.2 hpath) Bool.false_ne_true
    · next htemporal =>
      rw [← pure_eq_ok.1 h]
      exact ⟨fun _ heq => absurd (beq_iff_eq.2 heq) htemporal, fun _ => rfl⟩
  · next hobject =>
    rw [← pure_eq_ok.1 h]
    exact ⟨fun _ _ n hn => absurd hn (hobject n), fun _ => rfl⟩

/-! ### Exclusive predicates -/

variable {s : Store} {extra : List Fact}

theorem checkPair_eq_ok (hp : excluded? f.predicate pair = some p) :
    checkPair v f pair = .ok found ↔ ∃ b, v.contains { f with predicate := p } = .ok b ∧
      found = if b then [exclusiveFinding f pair p] else [] := by
  simp only [checkPair, hp, bind_eq_ok]
  refine exists_congr fun b => and_congr_right fun _ => ?_
  cases b <;> exact pure_eq_ok.trans eq_comm

theorem checkPair_of_none (hp : excluded? f.predicate pair = none) :
    checkPair v f pair = .ok [] := by
  rw [checkPair, hp]
  rfl

theorem checkExclusive_eq_nil_iff : schema.checkExclusive v f = .ok [] ↔
    ∀ pair ∈ schema.exclusive, checkPair v f pair = .ok [] :=
  flatten_mapM_eq_nil

/-- Where nothing is found, the facts with excluded predicates can be looked up, and they are
neither stored nor on top. -/
theorem of_checkExclusive_eq_nil (hs : s.Coherent)
    (h : schema.checkExclusive (s.overlay extra) f = .ok []) {pair : Text × Text}
    (hpair : pair ∈ schema.exclusive) {p : Text} (hp : excluded? f.predicate pair = some p) :
    p.length ≤ fieldLimit ∧ { f with predicate := p } ∉ s.contentWith extra := by
  have hnil := checkExclusive_eq_nil_iff.1 h pair hpair
  obtain ⟨b, hb, hfound⟩ := (checkPair_eq_ok hp).1 hnil
  obtain ⟨hlimit, hmem, -⟩ := Store.of_contains_overlay hs hb
  refine ⟨hlimit p (by simp [Fact.fields]), fun hin => ?_⟩
  rw [hmem hin] at hfound
  cases hfound

/-- Where the facts with excluded predicates can be looked up and digests tell them from the stored
facts, nothing is found unless one of them is stored or on top. -/
theorem checkExclusive_eq_nil (hs : s.Coherent) (ho : s.storage.isOpen = true) (hf : f.WithinLimit)
    (h : ∀ pair ∈ schema.exclusive, ∀ p, excluded? f.predicate pair = some p →
      p.length ≤ fieldLimit ∧ { f with predicate := p } ∉ s.contentWith extra ∧
        ∀ g ∈ s.content, g.digest = ({ f with predicate := p } : Fact).digest →
          g = { f with predicate := p }) :
    schema.checkExclusive (s.overlay extra) f = .ok [] := by
  refine checkExclusive_eq_nil_iff.2 fun pair hpair => ?_
  cases hp : excluded? f.predicate pair with
  | none => exact checkPair_of_none hp
  | some p =>
    obtain ⟨hlength, hnot, inj⟩ := h pair hpair p hp
    obtain ⟨b, hb⟩ := Store.exists_contains_overlay ho (hf.withPredicate hlength) extra
    obtain ⟨-, -, hin⟩ := Store.of_contains_overlay hs hb
    refine (checkPair_eq_ok hp).2 ⟨b, hb, ?_⟩
    cases b with
    | true => exact absurd (hin inj rfl) hnot
    | false => rfl

/-! ## Candidates -/

theorem findings_eq_ok {rules : Rulebook} : schema.findings rules v f = .ok found ↔
    ∃ a b c d, schema.checkFunctional v f = .ok a ∧ schema.checkExclusive v f = .ok b ∧
      schema.checkTemporal v f = .ok c ∧ rules.findings v f = .ok d ∧ a ++ b ++ c ++ d = found := by
  simp only [findings, bind_eq_ok, pure_eq_ok]
  constructor
  · rintro ⟨a, ha, b, hb, c, hc, d, hd, rfl⟩
    exact ⟨a, b, c, d, ha, hb, hc, hd, rfl⟩
  · rintro ⟨a, b, c, d, ha, hb, hc, hd, rfl⟩
    exact ⟨a, ha, b, hb, c, hc, d, hd, rfl⟩

theorem of_mem_checkFunctional (h : schema.checkFunctional v f = .ok found) {x : Finding}
    (hx : x ∈ found) : ∃ other, x = functionalFinding f other := by
  rw [checkFunctional] at h
  split at h
  · obtain ⟨facts, -, h⟩ := bind_eq_ok.1 h
    rw [← pure_eq_ok.1 h] at hx
    obtain ⟨other, -, rfl⟩ := List.mem_map.1 hx
    exact ⟨other, rfl⟩
  · rw [← pure_eq_ok.1 h] at hx
    cases hx

theorem of_mem_checkExclusive (h : schema.checkExclusive v f = .ok found) {x : Finding}
    (hx : x ∈ found) : ∃ pair other, x = exclusiveFinding f pair other := by
  obtain ⟨each, heach, h⟩ := bind_eq_ok.1 h
  rw [← pure_eq_ok.1 h] at hx
  obtain ⟨pair, -, l, hl, hx⟩ := (mem_flatten_of_mapM heach).1 hx
  cases hp : excluded? f.predicate pair with
  | none =>
    rw [checkPair_of_none hp] at hl
    cases hl
    cases hx
  | some other =>
    obtain ⟨b, -, rfl⟩ := (checkPair_eq_ok hp).1 hl
    split at hx
    · exact ⟨pair, other, List.mem_singleton.1 hx⟩
    · cases hx

theorem of_mem_checkTemporal (h : schema.checkTemporal v f = .ok found) {x : Finding}
    (hx : x ∈ found) : x = schema.temporalFinding f := by
  rw [checkTemporal] at h
  split at h
  · split at h
    · obtain ⟨b, -, h⟩ := bind_eq_ok.1 h
      split at h
      · rw [← pure_eq_ok.1 h] at hx
        exact List.mem_singleton.1 hx
      · rw [← pure_eq_ok.1 h] at hx
        cases hx
    · rw [← pure_eq_ok.1 h] at hx
      cases hx
  · rw [← pure_eq_ok.1 h] at hx
    cases hx

end Schema

namespace Store

variable {s : Store} {schema : Schema} {rules : Rulebook} {batch : List Fact} {report : Report}

/-- Where candidates are found valid, the checks without rules find nothing against any of them. -/
theorem checks_of_validate (h : s.validate schema rules batch = .ok report)
    (hvalid : report.isValid = true) {f : Fact} (hf : f ∈ batch) :
    schema.checkFunctional (s.overlay batch) f = .ok [] ∧
      schema.checkExclusive (s.overlay batch) f = .ok [] ∧
      schema.checkTemporal (s.overlay batch) f = .ok [] := by
  obtain ⟨each, heach, h⟩ := bind_eq_ok.1 h
  rw [← pure_eq_ok.1 h, Report.isValid_iff] at hvalid
  obtain ⟨found, hfound⟩ := exists_of_mapM heach hf
  have hwarning : ∀ x ∈ found, x.severity = .warning := fun x hx =>
    hvalid x (Report.mem_addAll.2 (Or.inr ((mem_flatten_of_mapM heach).2 ⟨f, hf, _, hfound, hx⟩)))
  obtain ⟨a, b, c, d, ha, hb, hc, -, rfl⟩ := Schema.findings_eq_ok.1 hfound
  -- What is worse than a warning was not found.
  have hnil : ∀ l : List Finding, (∀ x ∈ l, x.severity ≠ .warning) →
      (∀ x ∈ l, x ∈ a ++ b ++ c ++ d) → l = [] := fun l hl hsub =>
    List.eq_nil_iff_forall_not_mem.2 fun x hx => hl x hx (hwarning x (hsub x hx))
  have ha' : ∀ x ∈ a, x.severity ≠ .warning := fun x hx => by
    obtain ⟨other, rfl⟩ := Schema.of_mem_checkFunctional ha hx
    exact Severity.noConfusion
  have hb' : ∀ x ∈ b, x.severity ≠ .warning := fun x hx => by
    obtain ⟨pair, other, rfl⟩ := Schema.of_mem_checkExclusive hb hx
    exact Severity.noConfusion
  have hc' : ∀ x ∈ c, x.severity ≠ .warning := fun x hx => by
    rw [Schema.of_mem_checkTemporal hc hx]
    exact Severity.noConfusion
  have hanil : a = [] := hnil a ha' fun x hx => by simp [hx]
  have hbnil : b = [] := hnil b hb' fun x hx => by simp [hx]
  have hcnil : c = [] := hnil c hc' fun x hx => by simp [hx]
  rw [hanil] at ha
  rw [hbnil] at hb
  rw [hcnil] at hc
  exact ⟨ha, hb, hc⟩

/-- The open queries of an overlay are answered with what is stored and what is on top, whatever
digests tell apart. -/
theorem Coherent.shows_overlay (hs : s.Coherent) (extra : List Fact) :
    (s.overlay extra).Shows (s.contentWith extra) s.content where
  toFaithful := faithful_overlay hs.addressed hs.addressed.injOn_digest subset_rfl extra
  toExhaustive := hs.exhaustive_overlay extra

/-- Candidates that are found valid are admitted by the stored facts and all candidates together. -/
theorem admits_of_validate (hs : s.Coherent) (ho : s.storage.isOpen = true)
    (h : s.validate schema rules batch = .ok report) (hvalid : report.isValid = true) :
    (∀ f ∈ batch, schema.Admits (s.contentWith batch) f) ∧
      schema.ExclusionsWithinLimit {f | f ∈ batch} := by
  have hv := hs.shows_overlay batch
  have hbounds := hs.bounds_overlay ho batch
  constructor
  · intro f hf
    obtain ⟨hfunctional, hexclusive, htemporal⟩ := checks_of_validate h hvalid hf
    exact ⟨(Schema.checkFunctional_eq_nil hv hfunctional).1 rfl,
      fun pair hpair p hp => (Schema.of_checkExclusive_eq_nil hs hexclusive hpair hp).2,
      (Schema.checkTemporal_eq_nil hv hbounds htemporal).1 rfl⟩
  · intro f hf pair hpair p hp
    obtain ⟨-, hexclusive, -⟩ := checks_of_validate h hvalid hf
    exact (Schema.of_checkExclusive_eq_nil hs hexclusive hpair hp).1

/-! ### Candidates that are found valid -/

theorem withinLimit_of_mem_contentWith (hbatch : ∀ f ∈ batch, f.WithinLimit) {f : Fact}
    (hf : f ∈ s.contentWith batch) : f.WithinLimit := by
  rcases mem_contentWith.1 hf with hf | hf
  · exact Storage.withinLimit_of_mem hf
  · exact hbatch f hf

theorem exists_find_leaving (hs : s.Coherent) (ho : s.storage.isOpen = true) {n : Node}
    (hn : (Value.node n).WithinLimit) (p : Text) (batch : List Fact) :
    ∃ l, (s.overlay batch).find (.leaving n (some p)) = .ok l := by
  refine hs.exists_find_overlay ho ?_ (by simp [Query.leaving]) (fun f hf => by cases hf) batch
  rintro m hm
  cases hm
  exact hn

theorem exists_checkFunctional (hs : s.Coherent) (ho : s.storage.isOpen = true) (schema : Schema)
    {f : Fact} (hf : f.WithinLimit) (batch : List Fact) :
    ∃ found, schema.checkFunctional (s.overlay batch) f = .ok found := by
  rw [Schema.checkFunctional]
  split
  · have hsubject : (Value.node f.subject).WithinLimit :=
      Fact.withinLimit_iff.1 hf _ (by simp [Fact.values])
    exact exists_bind (exists_find_leaving hs ho hsubject _ batch) fun l _ => ⟨_, rfl⟩
  · exact ⟨_, rfl⟩

theorem exists_checkTemporal (hs : s.Coherent) (ho : s.storage.isOpen = true) (schema : Schema)
    (hbatch : ∀ f ∈ batch, f.WithinLimit) {f : Fact} (hf : f.WithinLimit) :
    ∃ found, schema.checkTemporal (s.overlay batch) f = .ok found := by
  have hv := hs.shows_overlay batch
  rw [Schema.checkTemporal]
  split
  · next n hobject =>
    have hn : (Value.node n).WithinLimit :=
      Fact.withinLimit_iff.1 hf _ (by simp [Fact.values, hobject])
    -- Every node that is followed is the object of a fact, so that its edges can be looked up.
    have hreaches : ∃ b, Schema.reaches (s.overlay batch) schema.temporal f.subject
        ((s.overlay batch).extent + 1) [n] [n] = .ok b :=
      Schema.exists_reaches hv (P := fun m => (Value.node m).WithinLimit)
        (fun m hm => exists_find_leaving hs ho hm _ batch)
        (fun m k _ hedge => Fact.withinLimit_iff.1 (withinLimit_of_mem_contentWith hbatch hedge) _
          (by simp [Fact.values]))
        _ (by simpa using hn)
    split
    · exact exists_bind hreaches fun b _ => by cases b <;> exact ⟨_, rfl⟩
    · exact ⟨_, rfl⟩
  · exact ⟨_, rfl⟩

/-- Without rules, candidates are found valid if the stored facts and all candidates together admit
each of them, and the facts with excluded predicates can be looked up and told apart from the stored
ones by their digests. -/
theorem validate_of_admits (hs : s.Coherent) (ho : s.storage.isOpen = true)
    (hbatch : ∀ f ∈ batch, f.WithinLimit)
    (hadmits : ∀ f ∈ batch, schema.Admits (s.contentWith batch) f)
    (hlimit : schema.ExclusionsWithinLimit {f | f ∈ batch})
    (inj : ∀ f ∈ batch, ∀ pair ∈ schema.exclusive, ∀ p, Schema.excluded? f.predicate pair = some p →
      ∀ g ∈ s.content, g.digest = ({ f with predicate := p } : Fact).digest →
        g = { f with predicate := p }) :
    s.validate schema {} batch = .ok {} := by
  have hv := hs.shows_overlay batch
  have hbounds := hs.bounds_overlay ho batch
  have hfindings : ∀ f ∈ batch, schema.findings {} (s.overlay batch) f = .ok [] := by
    intro f hf
    obtain ⟨a, ha⟩ := exists_checkFunctional hs ho schema (hbatch f hf) batch
    obtain ⟨c, hc⟩ := exists_checkTemporal hs ho schema hbatch (hbatch f hf)
    have hanil : a = [] := (Schema.checkFunctional_eq_nil hv ha).2 (hadmits f hf).functional
    have hcnil : c = [] := (Schema.checkTemporal_eq_nil hv hbounds hc).2 (hadmits f hf).temporal
    have hb : schema.checkExclusive (s.overlay batch) f = .ok [] :=
      Schema.checkExclusive_eq_nil hs ho (hbatch f hf) fun pair hpair p hp =>
        ⟨hlimit f hf pair hpair p hp, (hadmits f hf).exclusive pair hpair p hp,
          inj f hf pair hpair p hp⟩
    exact Schema.findings_eq_ok.2 ⟨a, [], c, [], ha, hb, hc, rfl, by rw [hanil, hcnil]; rfl⟩
  obtain ⟨each, heach⟩ := mapM_of_forall_exists fun f hf => ⟨_, hfindings f hf⟩
  have hnil : each.flatten = [] := (flatten_eq_nil_iff_of_mapM heach).2 hfindings
  exact bind_eq_ok.2 ⟨each, heach, by rw [hnil]; rfl⟩

end Store
end FactGraph
