import Mathlib.Data.List.Pairwise
import FactGraph.Proofs.Rulebook
import FactGraph.Proofs.Validation

/-!
# What the scan of a store finds

The scan for conflicts compares neighbours in the order of facts, looks for the other side of an
exclusive pair from its first side, and for the opposite of a fact in time. It finds nothing if and
only if the stored facts are quiet (`Store.conflicts_eq_nil`): this is to be consistent, except that
only cycles of one or two edges in time are looked for. Stored facts are found valid one by one if
and only if the scan finds nothing and there are no longer cycles either
(`Store.forall_valid_iff`).
-/

namespace FactGraph

open Relation

variable {schema : Schema} {A : Set Fact} {p : Text} {pair : Text × Text} {f : Fact}

namespace Schema

/-- Whether the members of a set have no conflict that can be seen from one or two of them. -/
structure Quiet (schema : Schema) (A : Set Fact) : Prop where
  /-- A functional predicate has at most one object per subject. -/
  functional : ∀ p ∈ schema.functional, ∀ n x y,
    (⟨n, p, x⟩ : Fact) ∈ A → (⟨n, p, y⟩ : Fact) ∈ A → x = y
  /-- Of two predicates that exclude each other, one at most holds between a subject and an
  object. -/
  exclusive : ∀ pair ∈ schema.exclusive, ∀ n x,
    ¬ ((⟨n, pair.1, x⟩ : Fact) ∈ A ∧ (⟨n, pair.2, x⟩ : Fact) ∈ A)
  /-- Where a node comes before another one in time, the other does not come before it. -/
  temporal : ∀ m n, Edge A schema.temporal m n → ¬ Edge A schema.temporal n m

/-- To be consistent is to be quiet without cycles in time. -/
theorem consistent_iff_quiet :
    schema.Consistent A ↔ schema.Quiet A ∧ ∀ n, ¬ TransGen (Edge A schema.temporal) n n := by
  constructor
  · intro h
    refine ⟨⟨h.functional, h.exclusive, fun m n hmn hnm => ?_⟩, h.temporal⟩
    exact h.temporal m (.tail (.single hmn) hnm)
  · rintro ⟨hquiet, hacyclic⟩
    exact ⟨hquiet.functional, hquiet.exclusive, hacyclic⟩

/-- The facts that are looked up on behalf of the members of a set: themselves, those that are
excluded, and those that say the opposite in time. -/
def lookups (schema : Schema) (A : Set Fact) : Set Fact :=
  {g | g ∈ A ∨ (∃ f ∈ A, ∃ pair ∈ schema.exclusive, ∃ p,
      excluded? f.predicate pair = some p ∧ g = { f with predicate := p }) ∨
    ∃ n, ∃ f ∈ A, f.object = .node n ∧ g = ⟨n, schema.temporal, .node f.subject⟩}

theorem subset_lookups : A ⊆ schema.lookups A := fun _ hf => Or.inl hf

end Schema

namespace Store

variable {s : Store} {conflicts : List Conflict}

/-! ## Functional predicates -/

/-- In the order of facts, those of one subject stand next to each other, so that it is enough to
compare neighbours. -/
theorem functionalConflicts_eq_nil {l : List Fact}
    (hsorted : l.Pairwise fun f g => (compare f g).isLE = true) :
    functionalConflicts p l = [] ↔ l.Pairwise fun f g => f.subject = g.subject →
      f.object = g.object := by
  induction l with
  | nil => simp [functionalConflicts]
  | cons f rest ih =>
    obtain ⟨hf, hrest⟩ := List.pairwise_cons.1 hsorted
    cases rest with
    | nil => simp [functionalConflicts]
    | cons g rest =>
      have hclash : (f.subject == g.subject && f.object != g.object) = true ↔
          ¬ (f.subject = g.subject → f.object = g.object) := by
        simp
      rw [functionalConflicts, List.pairwise_cons, ← ih hrest]
      split
      · next h =>
        simp only [List.cons_ne_nil, false_iff, not_and]
        intro hall
        exact absurd (hall g List.mem_cons_self) (hclash.1 h)
      · next h =>
        have hneighbour := not_not.1 (mt hclash.2 h)
        refine ⟨fun hnil => ⟨fun k hk hsubject => ?_, hnil⟩, fun hall => hall.2⟩
        rcases List.mem_cons.1 hk with rfl | hk'
        · exact hneighbour hsubject
        · -- The subject of the fact in between is the same.
          have hfg := Fact.subject_of_isLE (hf g List.mem_cons_self)
          have hgk := Fact.subject_of_isLE ((List.pairwise_cons.1 hrest).1 k hk')
          rw [← hsubject] at hgk
          have hsame : f.subject = g.subject :=
            Std.LawfulEqOrd.eq_of_compare (Std.OrientedCmp.isLE_antisymm hfg hgk)
          have htail := (List.pairwise_cons.1 ((ih hrest).1 hnil)).1 k hk'
          rw [hneighbour hsame]
          exact htail (hsame.symm.trans hsubject)

theorem mem_find_about (hs : s.Coherent) {l : List Fact} (h : s.find (.about p) = .ok l) :
    f ∈ l ↔ f ∈ s.content ∧ f.predicate = p := by
  have hv := hs.shows_view hs.addressed.injOn_digest subset_rfl
  have hfind : s.view.find (.about p) = .ok l := h
  have haccepts : (Query.about p).accepts f = true ↔ f.predicate = p := by
    simp only [Query.about, Query.accepts, Query.agrees, Bool.true_and, Bool.and_true, beq_iff_eq]
    exact eq_comm
  constructor
  · intro hf
    obtain ⟨hmem, hq⟩ := hv.find _ _ hfind (fun g hg => by cases hg) f hf
    exact ⟨hmem, haccepts.1 hq⟩
  · rintro ⟨hmem, hp⟩
    exact hv.mem_find _ _ hfind f hmem (haccepts.2 hp)

theorem functionalConflicts_find_eq_nil (hs : s.Coherent) {l : List Fact}
    (h : s.find (.about p) = .ok l) : functionalConflicts p (Fact.sort l) = [] ↔
      ∀ n x y, (⟨n, p, x⟩ : Fact) ∈ s.content → (⟨n, p, y⟩ : Fact) ∈ s.content → x = y := by
  rw [functionalConflicts_eq_nil (Fact.pairwise_sort l)]
  constructor
  · intro hpairwise n x y hx hy
    have hsymm : Std.Symm fun f g : Fact => f.subject = g.subject → f.object = g.object :=
      ⟨fun f g hfg heq => (hfg heq.symm).symm⟩
    have hall := hpairwise.forall_of_forall fun f _ _ => rfl
    have hxmem := Fact.mem_sort.2 ((mem_find_about hs h).2 ⟨hx, rfl⟩)
    have hymem := Fact.mem_sort.2 ((mem_find_about hs h).2 ⟨hy, rfl⟩)
    exact hall hxmem hymem rfl
  · intro hall
    refine List.pairwise_of_forall_mem_list fun f hf g hg hsubject => ?_
    obtain ⟨hfmem, hfp⟩ := (mem_find_about hs h).1 (Fact.mem_sort.1 hf)
    obtain ⟨hgmem, hgp⟩ := (mem_find_about hs h).1 (Fact.mem_sort.1 hg)
    obtain ⟨subject, predicate, x⟩ := f
    obtain ⟨subject', predicate', y⟩ := g
    subst hfp
    subst hgp
    cases hsubject
    exact hall subject x y hfmem hgmem

/-! ## Facts that are looked up -/

theorem contains_iff (hs : s.Coherent) {V : Set Fact} (inj : Set.InjOn Fact.digest V)
    (hV : s.content ⊆ V) (hf : f ∈ V) {b : Bool} (h : s.contains f = .ok b) :
    b = true ↔ f ∈ s.content := by
  rw [of_contains hs.addressed h]
  constructor
  · rintro ⟨g, hg, heq⟩
    exact inj (hV hg) hf heq ▸ hg
  · exact fun hmem => ⟨f, hmem, rfl⟩

theorem exists_find_about (hs : s.Coherent) (ho : s.storage.isOpen = true) (p : Text) :
    ∃ l, s.find (.about p) = .ok l :=
  exists_find_of_fields hs.addressed ho (by simp [Query.about]) (by simp [Query.about])
    fun f hf => by cases hf

theorem exists_contains (ho : s.storage.isOpen = true) (hf : f.WithinLimit) :
    ∃ b, s.contains f = .ok b := by
  obtain ⟨b, hb⟩ := Storage.exists_has ho f.digest
  exact ⟨b, bind_eq_ok.2 ⟨_, hf.id, hb⟩⟩

/-! ## Exclusive predicates -/

theorem exclusiveConflicts_eq_nil (hs : s.Coherent)
    (inj : Set.InjOn Fact.digest (schema.lookups s.content)) (hpair : pair ∈ schema.exclusive)
    (h : s.exclusiveConflicts pair = .ok conflicts) : conflicts = [] ↔
      ∀ n x, ¬ ((⟨n, pair.1, x⟩ : Fact) ∈ s.content ∧ (⟨n, pair.2, x⟩ : Fact) ∈ s.content) := by
  obtain ⟨facts, hfacts, h⟩ := bind_eq_ok.1 h
  obtain ⟨each, heach, h⟩ := bind_eq_ok.1 h
  rw [← pure_eq_ok.1 h, flatten_eq_nil_iff_of_mapM heach]
  have hlookup : ∀ n x, (⟨n, pair.1, x⟩ : Fact) ∈ s.content →
      (⟨n, pair.2, x⟩ : Fact) ∈ schema.lookups s.content := fun n x hmem =>
    Or.inr (Or.inl ⟨_, hmem, pair, hpair, pair.2, Schema.excluded?_fst pair, rfl⟩)
  constructor
  · rintro hall n x ⟨hfirst, hsecond⟩
    have hnil := hall _ (Fact.mem_sort.2 ((mem_find_about hs hfacts).2 ⟨hfirst, rfl⟩))
    obtain ⟨b, hb, hnil⟩ := bind_eq_ok.1 hnil
    have htrue : b = true :=
      (contains_iff hs inj Schema.subset_lookups (hlookup n x hfirst) hb).2 hsecond
    rw [if_pos htrue] at hnil
    cases pure_eq_ok.1 hnil
  · intro hall f hf
    obtain ⟨found, hfound⟩ := exists_of_mapM heach hf
    obtain ⟨hmem, hp⟩ := (mem_find_about hs hfacts).1 (Fact.mem_sort.1 hf)
    obtain ⟨n, p, x⟩ := f
    obtain rfl : p = pair.1 := hp
    obtain ⟨b, hb, hnil⟩ := bind_eq_ok.1 hfound
    have hiff := contains_iff hs inj Schema.subset_lookups (hlookup n x hmem) hb
    cases b with
    | true => exact absurd ⟨hmem, hiff.1 rfl⟩ (hall n x)
    | false => exact bind_eq_ok.2 ⟨false, hb, rfl⟩

theorem exists_exclusiveConflicts (hs : s.Coherent) (ho : s.storage.isOpen = true)
    (hlimit : schema.ExclusionsWithinLimit s.content) (hpair : pair ∈ schema.exclusive) :
    ∃ l, s.exclusiveConflicts pair = .ok l := by
  refine exists_bind (exists_find_about hs ho pair.1) fun facts hfacts => ?_
  refine exists_bind (mapM_of_forall_exists fun f hf => ?_) fun each _ => ⟨_, rfl⟩
  obtain ⟨hmem, hp⟩ := (mem_find_about hs hfacts).1 (Fact.mem_sort.1 hf)
  have hlength : pair.2.length ≤ fieldLimit :=
    hlimit f hmem pair hpair _ (by rw [hp, Schema.excluded?_fst])
  have hother := (Storage.withinLimit_of_mem hmem).withPredicate hlength
  exact exists_bind (exists_contains ho hother) fun b _ => by cases b <;> exact ⟨_, rfl⟩

/-! ## Order in time -/

theorem temporalConflict_eq_nil (hs : s.Coherent)
    (inj : Set.InjOn Fact.digest (schema.lookups s.content)) (hf : f ∈ s.content)
    (h : s.temporalConflict schema.temporal f = .ok conflicts) :
    conflicts = [] ↔ ∀ n, f.object = .node n → n ≠ f.subject ∧
      (compare f.subject n = .lt → ¬ Edge s.content schema.temporal n f.subject) := by
  rw [temporalConflict] at h
  split at h
  · next n hobject =>
    simp only [hobject, Value.node.injEq, forall_eq']
    split at h
    · next hself =>
      rw [← pure_eq_ok.1 h]
      simp only [List.cons_ne_nil, false_iff, not_and]
      exact fun hne => absurd (beq_iff_eq.1 hself) hne
    · next hself =>
      have hne : n ≠ f.subject := fun heq => hself (beq_iff_eq.2 heq)
      have hlookup : (⟨n, schema.temporal, .node f.subject⟩ : Fact) ∈ schema.lookups s.content :=
        Or.inr (Or.inr ⟨n, f, hf, hobject, rfl⟩)
      simp only at h
      split at h
      · next hlt =>
        obtain ⟨b, hb, h⟩ := bind_eq_ok.1 h
        have hiff := contains_iff hs inj Schema.subset_lookups hlookup hb
        cases b with
        | true =>
          rw [if_pos rfl] at h
          rw [← pure_eq_ok.1 h]
          simp only [List.cons_ne_nil, false_iff, not_and]
          exact fun _ hnot => hnot (beq_iff_eq.1 hlt) (hiff.1 rfl)
        | false =>
          rw [← pure_eq_ok.1 h]
          refine ⟨fun _ => ⟨hne, fun _ hedge => ?_⟩, fun _ => rfl⟩
          exact absurd (hiff.2 hedge) Bool.false_ne_true
      · next hlt =>
        rw [← pure_eq_ok.1 h]
        exact ⟨fun _ => ⟨hne, fun hcompare => absurd (beq_iff_eq.2 hcompare) hlt⟩, fun _ => rfl⟩
  · next hobject =>
    rw [← pure_eq_ok.1 h]
    exact ⟨fun _ n hn => absurd hn (hobject n), fun _ => rfl⟩

theorem exists_temporalConflict (ho : s.storage.isOpen = true) (hf : f ∈ s.content)
    (hp : f.predicate = p) : ∃ l, s.temporalConflict p f = .ok l := by
  have hlimit := Storage.withinLimit_of_mem hf
  rw [temporalConflict]
  split
  · next n hobject =>
    have hopposite : (⟨n, p, .node f.subject⟩ : Fact).WithinLimit := by
      subst hp
      rw [Fact.withinLimit_iff] at hlimit ⊢
      simp_all [Fact.values]
    split
    · exact ⟨_, rfl⟩
    · simp only
      split
      · exact exists_bind (exists_contains ho hopposite) fun b _ => by cases b <;> exact ⟨_, rfl⟩
      · exact ⟨_, rfl⟩
  · exact ⟨_, rfl⟩

/-- Of two facts that say opposite things, the one with the lesser subject is found. -/
theorem temporalConflicts_eq_nil (hs : s.Coherent)
    (inj : Set.InjOn Fact.digest (schema.lookups s.content)) {edges : List Fact}
    (hedges : s.find (.about schema.temporal) = .ok edges) {each : List (List Conflict)}
    (heach : (Fact.sort edges).mapM (s.temporalConflict schema.temporal) = .ok each) :
    each.flatten = [] ↔
      ∀ m n, Edge s.content schema.temporal m n → ¬ Edge s.content schema.temporal n m := by
  have hmem : ∀ f, f ∈ Fact.sort edges ↔ f ∈ s.content ∧ f.predicate = schema.temporal :=
    fun f => Fact.mem_sort.trans (mem_find_about hs hedges)
  rw [flatten_eq_nil_iff_of_mapM heach]
  constructor
  · intro hall
    have hedge : ∀ m n, Edge s.content schema.temporal m n → n ≠ m ∧
        (compare m n = .lt → ¬ Edge s.content schema.temporal n m) := by
      intro m n hmn
      have hnil := hall _ ((hmem _).2 ⟨hmn, rfl⟩)
      exact (temporalConflict_eq_nil hs inj hmn hnil).1 rfl n rfl
    intro m n hmn hnm
    cases hcompare : compare m n with
    | lt => exact (hedge m n hmn).2 hcompare hnm
    | eq => exact (hedge m n hmn).1 (Std.LawfulEqOrd.eq_of_compare hcompare).symm
    | gt => exact (hedge n m hnm).2 (Std.OrientedCmp.lt_of_gt hcompare) hmn
  · intro hall f hf
    obtain ⟨hcontent, hp⟩ := (hmem f).1 hf
    obtain ⟨found, hfound⟩ := exists_of_mapM heach hf
    have hnil : found = [] := by
      refine (temporalConflict_eq_nil hs inj hcontent hfound).2 fun n hobject => ?_
      obtain ⟨m, predicate, object⟩ := f
      obtain rfl : predicate = schema.temporal := hp
      obtain rfl : object = .node n := hobject
      refine ⟨?_, fun _ => hall m n hcontent⟩
      rintro rfl
      exact hall _ _ hcontent hcontent
    rw [hfound, hnil]

/-! ## The scan -/

theorem conflicts_eq_ok : s.conflicts schema = .ok conflicts ↔
    ∃ functional exclusive edges temporal, (sortNames schema.functional).mapM (fun p => do
      return functionalConflicts p (Fact.sort (← s.find (.about p)))) = .ok functional ∧
    schema.exclusive.mapM s.exclusiveConflicts = .ok exclusive ∧
    s.find (.about schema.temporal) = .ok edges ∧
    (Fact.sort edges).mapM (s.temporalConflict schema.temporal) = .ok temporal ∧
    functional.flatten ++ exclusive.flatten ++ temporal.flatten = conflicts := by
  simp only [Store.conflicts, bind_eq_ok, pure_eq_ok]
  constructor
  · rintro ⟨functional, hfunctional, exclusive, hexclusive, edges, hedges, temporal, htemporal, rfl⟩
    exact ⟨functional, exclusive, edges, temporal, hfunctional, hexclusive, hedges, htemporal, rfl⟩
  · rintro ⟨functional, exclusive, edges, temporal, hfunctional, hexclusive, hedges, htemporal, rfl⟩
    exact ⟨functional, hfunctional, exclusive, hexclusive, edges, hedges, temporal, htemporal, rfl⟩

/-- The scan finds nothing if and only if the stored facts are quiet. -/
theorem conflicts_eq_nil (hs : s.Coherent)
    (inj : Set.InjOn Fact.digest (schema.lookups s.content))
    (h : s.conflicts schema = .ok conflicts) : conflicts = [] ↔ schema.Quiet s.content := by
  obtain ⟨functional, exclusive, edges, temporal, hfunctional, hexclusive, hedges, htemporal,
    rfl⟩ := conflicts_eq_ok.1 h
  rw [List.append_eq_nil_iff, List.append_eq_nil_iff, flatten_eq_nil_iff_of_mapM hfunctional,
    flatten_eq_nil_iff_of_mapM hexclusive, temporalConflicts_eq_nil hs inj hedges htemporal]
  have hfunctional_iff : (∀ p ∈ sortNames schema.functional, (do
      return functionalConflicts p (Fact.sort (← s.find (.about p)))) = Except.ok []) ↔
      ∀ p ∈ schema.functional, ∀ n x y, (⟨n, p, x⟩ : Fact) ∈ s.content →
        (⟨n, p, y⟩ : Fact) ∈ s.content → x = y := by
    refine forall_congr' fun p => ?_
    rw [mem_sortNames]
    refine forall_congr' fun hp => ?_
    obtain ⟨found, hfound⟩ := exists_of_mapM hfunctional (mem_sortNames.2 hp)
    obtain ⟨l, hl, -⟩ := bind_eq_ok.1 hfound
    rw [← functionalConflicts_find_eq_nil hs hl, hl]
    simp [bind, Except.bind]
  have hexclusive_iff : (∀ pair ∈ schema.exclusive, s.exclusiveConflicts pair = .ok []) ↔
      ∀ pair ∈ schema.exclusive, ∀ n x,
        ¬ ((⟨n, pair.1, x⟩ : Fact) ∈ s.content ∧ (⟨n, pair.2, x⟩ : Fact) ∈ s.content) := by
    refine forall_congr' fun pair => forall_congr' fun hpair => ?_
    obtain ⟨found, hfound⟩ := exists_of_mapM hexclusive hpair
    rw [← exclusiveConflicts_eq_nil hs inj hpair hfound, hfound, Except.ok.injEq]
  rw [hfunctional_iff, hexclusive_iff]
  constructor
  · rintro ⟨⟨hf, he⟩, ht⟩
    exact ⟨hf, he, ht⟩
  · rintro ⟨hf, he, ht⟩
    exact ⟨⟨hf, he⟩, ht⟩

/-- The scan goes through where all excluded predicates can be looked up. -/
theorem exists_conflicts (hs : s.Coherent) (ho : s.storage.isOpen = true)
    (hlimit : schema.ExclusionsWithinLimit s.content) : ∃ l, s.conflicts schema = .ok l := by
  refine exists_bind (mapM_of_forall_exists fun p _ => ?_) fun functional _ => ?_
  · exact exists_bind (exists_find_about hs ho p) fun l _ => ⟨_, rfl⟩
  refine exists_bind (mapM_of_forall_exists fun pair hpair => ?_) fun exclusive _ => ?_
  · exact exists_exclusiveConflicts hs ho hlimit hpair
  refine exists_bind (exists_find_about hs ho schema.temporal) fun edges hedges => ?_
  refine exists_bind (mapM_of_forall_exists fun f hf => ?_) fun temporal _ => ⟨_, rfl⟩
  obtain ⟨hmem, hp⟩ := (mem_find_about hs hedges).1 (Fact.mem_sort.1 hf)
  exact exists_temporalConflict ho hmem hp

/-! ## The scan and the check of stored facts -/

theorem contentWith_singleton (hf : f ∈ s.content) : s.contentWith [f] = s.content := by
  ext g
  rw [mem_contentWith, List.mem_singleton]
  constructor
  · rintro (hg | rfl)
    · exact hg
    · exact hf
  · exact Or.inl

/-- Every stored fact is found valid for itself if and only if the stored facts are consistent and
the facts that they exclude can be looked up. -/
theorem forall_valid_iff_consistent (hs : s.Coherent) (ho : s.storage.isOpen = true)
    (inj : Set.InjOn Fact.digest (schema.lookups s.content)) :
    (∀ f ∈ s.content, ∃ r, s.validate schema {} [f] = .ok r ∧ r.isValid = true) ↔
      schema.Consistent s.content ∧ schema.ExclusionsWithinLimit s.content := by
  constructor
  · intro hall
    constructor
    · refine Schema.consistent_iff.2 fun f hf => ?_
      obtain ⟨r, hr, hvalid⟩ := hall f hf
      have hadmits := (admits_of_validate hs ho hr hvalid).1 f (List.mem_singleton_self f)
      rwa [contentWith_singleton hf] at hadmits
    · intro f hf
      obtain ⟨r, hr, hvalid⟩ := hall f hf
      exact (admits_of_validate hs ho hr hvalid).2 f (List.mem_singleton_self f)
  · rintro ⟨hconsistent, hlimit⟩ f hf
    refine ⟨{}, validate_of_admits hs ho ?_ ?_ ?_ ?_, rfl⟩ <;> intro g hg <;>
      obtain rfl := List.mem_singleton.1 hg
    · exact Storage.withinLimit_of_mem hf
    · rw [contentWith_singleton hf]
      exact Schema.consistent_iff.1 hconsistent g hf
    · exact hlimit g hf
    · intro pair hpair p hp k hk heq
      exact inj (Or.inl hk) (Or.inr (Or.inl ⟨g, hf, pair, hpair, p, hp, rfl⟩)) heq

/-- Every stored fact is found valid for itself if and only if the scan finds nothing, no node comes
before itself in time by any number of facts, and the facts that stored facts exclude can be looked
up. -/
theorem forall_valid_iff (hs : s.Coherent) (ho : s.storage.isOpen = true)
    (inj : Set.InjOn Fact.digest (schema.lookups s.content)) :
    (∀ f ∈ s.content, ∃ r, s.validate schema {} [f] = .ok r ∧ r.isValid = true) ↔
      s.conflicts schema = .ok [] ∧
      (∀ n, ¬ TransGen (Edge s.content schema.temporal) n n) ∧
      schema.ExclusionsWithinLimit s.content := by
  rw [forall_valid_iff_consistent hs ho inj, Schema.consistent_iff_quiet, and_assoc]
  constructor
  · rintro ⟨hquiet, hacyclic, hlimit⟩
    obtain ⟨l, hl⟩ := exists_conflicts hs ho hlimit
    rw [hl, (conflicts_eq_nil hs inj hl).2 hquiet]
    exact ⟨rfl, hacyclic, hlimit⟩
  · rintro ⟨hnil, hacyclic, hlimit⟩
    exact ⟨(conflicts_eq_nil hs inj hnil).1 rfl, hacyclic, hlimit⟩

/-- The scan does not see a cycle of three facts, but none of them is found valid. -/
theorem forall_valid_iff_cycle :
    let facts : List Fact := [⟨.named "a", "before", .named "b"⟩,
      ⟨.named "b", "before", .named "c"⟩, ⟨.named "c", "before", .named "a"⟩]
    ∃ s : Store, s.Coherent ∧ (∀ f, f ∈ s.content ↔ f ∈ facts) ∧ s.conflicts {} = .ok [] ∧
      ¬ ∀ f ∈ s.content, ∃ r, s.validate {} {} [f] = .ok r ∧ r.isValid = true := by
  intro facts
  let opposites : List Fact := [⟨.named "b", "before", .named "a"⟩,
    ⟨.named "c", "before", .named "b"⟩, ⟨.named "a", "before", .named "c"⟩]
  have heads : ((facts ++ opposites).map Fact.digest).Nodup := by decide +kernel
  have injFacts : Set.InjOn Fact.digest {f | f ∈ facts ++ opposites} := fun f hf g hg heq =>
    List.inj_on_of_nodup_map heads hf hg heq
  have hstorable : ∀ f ∈ facts, Storable f := by decide +kernel
  have hrep := represents_insertAll hstorable
    (injFacts.mono fun f hf => List.mem_append_left opposites hf)
  generalize (insertAll { storage := .memory {} } facts).1 = s at hrep
  have hcontent : ∀ f, f ∈ s.content ↔ f ∈ facts := fun f => by rw [hrep.content, List.mem_toFinset]
  have ho := hrep.writable.isOpen
  have inj : Set.InjOn Fact.digest (({} : Schema).lookups s.content) := by
    refine injFacts.mono ?_
    rintro g (hg | ⟨f, -, pair, hpair, -⟩ | ⟨n, f, hf, hobject, rfl⟩)
    · exact List.mem_append_left opposites ((hcontent g).1 hg)
    · cases hpair
    · refine List.mem_append_right facts ?_
      rw [hcontent] at hf
      simp only [facts, List.mem_cons, List.not_mem_nil, or_false] at hf
      rcases hf with rfl | rfl | rfl <;> cases hobject <;> decide
  have hscan : s.conflicts {} = .ok [] := by
    have hlimit : ({} : Schema).ExclusionsWithinLimit s.content := fun _ _ _ hpair => by cases hpair
    obtain ⟨l, hl⟩ := exists_conflicts hrep.coherent ho hlimit
    rw [hl, (conflicts_eq_nil hrep.coherent inj hl).2 ⟨by simp, by simp, fun m n hmn hnm => ?_⟩]
    have hmn := (hcontent _).1 hmn
    have hnm := (hcontent _).1 hnm
    simp [facts] at hmn hnm
    rcases hmn with ⟨rfl, rfl⟩ | ⟨rfl, rfl⟩ | ⟨rfl, rfl⟩ <;> revert hnm <;> decide
  refine ⟨s, hrep.coherent, hcontent, hscan, fun hall => ?_⟩
  obtain ⟨-, hacyclic, -⟩ := (forall_valid_iff hrep.coherent ho inj).1 hall
  have hedge : ∀ m n, (⟨m, "before", .node n⟩ : Fact) ∈ facts → Edge s.content "before" m n :=
    fun m n hmn => (hcontent _).2 hmn
  have hab : Edge s.content "before" (.named "a") (.named "b") := hedge _ _ (by decide)
  have hbc : Edge s.content "before" (.named "b") (.named "c") := hedge _ _ (by decide)
  have hca : Edge s.content "before" (.named "c") (.named "a") := hedge _ _ (by decide)
  exact hacyclic _ (((TransGen.single hab).tail hbc).tail hca)

end Store
end FactGraph
