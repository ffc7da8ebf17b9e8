import Mathlib.Data.List.Perm.Subperm
import FactGraph.Proofs.Refinement
import FactGraph.Store.Overlay

/-!
# What overlays show

An overlay shows the stored facts and those put on top of them: a query finds each of them that it
accepts (`Store.Coherent.exhaustive_overlay`) and nothing else (`Store.faithful_overlay`). There are
not more of them than the overlay says (`Store.Coherent.bounds_overlay`), so that a search through
them can be bounded.
-/

namespace FactGraph

/-- Whether a set has no more members than a view says that it finds. -/
def View.Bounds (v : View) (A : Set Fact) : Prop :=
  ∃ l : List Fact, (∀ f ∈ A, f ∈ l) ∧ l.length ≤ v.extent

theorem Overlay.mem_foldl_append {f : Fact} {facts extra : List Fact} :
    f ∈ extra.foldl append facts ↔ f ∈ facts ∨ f ∈ extra := by
  induction extra generalizing facts with
  | nil => simp
  | cons g extra ih =>
    have happend : f ∈ append facts g ↔ f ∈ facts ∨ f = g := by
      rw [append]
      split
      · next hg =>
        have hmem : g ∈ facts := by simpa using hg
        constructor
        · exact Or.inl
        · rintro (hf | rfl)
          · exact hf
          · exact hmem
      · rw [List.mem_append, List.mem_singleton]
    rw [List.foldl_cons, ih, happend, List.mem_cons, or_assoc]

theorem Buckets.total_eq (b : Buckets) :
    b.total = (b.entries.flatMap fun e => e.2.items).length := by
  rw [total]
  induction b.entries with
  | nil => rfl
  | cons e entries ih => rw [List.foldr_cons, ih, List.flatMap_cons, List.length_append]

namespace Store

variable {s : Store} {extra : List Fact} {f : Fact} {q : Query}

/-- The stored facts and some more. -/
def contentWith (s : Store) (extra : List Fact) : Set Fact := s.content ∪ {f | f ∈ extra}

theorem content_subset_contentWith : s.content ⊆ s.contentWith extra := Set.subset_union_left

theorem mem_contentWith : f ∈ s.contentWith extra ↔ f ∈ s.content ∨ f ∈ extra := Iff.rfl

/-- What is found is what the store finds and what is accepted of the facts on top. -/
theorem find_overlay_eq_ok {l : List Fact} : (s.overlay extra).find q = .ok l ↔
    ∃ stored, s.find q = .ok stored ∧ (extra.filter q.accepts).foldl Overlay.append stored = l := by
  simp only [overlay, Overlay.find, bind_eq_ok, pure_eq_ok]

theorem Coherent.exhaustive_overlay (hs : s.Coherent) (extra : List Fact) :
    (s.overlay extra).Exhaustive (s.contentWith extra) where
  mem_find := fun q l hl f hf hq => by
    obtain ⟨stored, hstored, rfl⟩ := find_overlay_eq_ok.1 hl
    rw [Overlay.mem_foldl_append, List.mem_filter]
    rcases mem_contentWith.1 hf with hf | hf
    · exact Or.inl (hs.mem_find hstored hf hq)
    · exact Or.inr ⟨hf, hq⟩

/-- Where digests tell the stored facts and those that are asked for apart, an overlay finds nothing
but what is stored or on top. -/
theorem faithful_overlay {asked : Set Fact} (hs : s.storage.Addressed)
    (inj : Set.InjOn Fact.digest asked) (hcontent : s.content ⊆ asked) (extra : List Fact) :
    (s.overlay extra).Faithful (s.contentWith extra) asked where
  find := fun q l hl hasked f hf => by
    obtain ⟨stored, hstored, rfl⟩ := find_overlay_eq_ok.1 hl
    rw [Overlay.mem_foldl_append, List.mem_filter] at hf
    rcases hf with hf | ⟨hf, hq⟩
    · obtain ⟨hmem, hq⟩ := (faithful_view hs inj hcontent).find q stored hstored hasked f hf
      exact ⟨Or.inl hmem, hq⟩
    · exact ⟨Or.inr hf, hq⟩

theorem Coherent.bounds_overlay (hs : s.Coherent) (ho : s.storage.isOpen = true)
    (extra : List Fact) : (s.overlay extra).Bounds (s.contentWith extra) := by
  obtain ⟨stored, hstored⟩ := Storage.exists_facts ho
  obtain ⟨nodup, hmem⟩ := hs.addressed.of_facts hstored
  refine ⟨stored ++ extra, fun f hf => ?_, ?_⟩
  · rcases mem_contentWith.1 hf with hf | hf
    · exact List.mem_append_left _ ((hmem f).2 hf)
    · exact List.mem_append_right _ hf
  · -- The digest of every stored fact is in the bucket of its subject.
    have hsubset : stored.map Fact.digest ⊆
        s.index.bySubject.entries.flatMap fun e => e.2.items := by
      intro id hid
      obtain ⟨f, hf, rfl⟩ := List.mem_map.1 hid
      obtain ⟨e, he, -, hin⟩ := (hs.index.subjects.iff _ _).2 ⟨f, (hmem f).1 hf, rfl, rfl⟩
      exact List.mem_flatMap.2 ⟨e, he, hin⟩
    have hlength := (nodup.subperm hsubset).length_le
    rw [List.length_map, ← Buckets.total_eq] at hlength
    simp only [List.length_append, overlay, Index.extent]
    omega

/-- A query that leaves a field open is answered if its subject and its object are within the
limit. -/
theorem Coherent.exists_find_overlay (hs : s.Coherent) (ho : s.storage.isOpen = true)
    (hsubject : ∀ n ∈ q.subject, (Value.node n).WithinLimit)
    (hobject : ∀ v ∈ q.object, v.WithinLimit)
    (hfact : ∀ f, q.fact? = some f → f.WithinLimit) (extra : List Fact) :
    ∃ l, (s.overlay extra).find q = .ok l := by
  obtain ⟨stored, hstored⟩ := exists_find_of_fields hs.addressed ho hsubject hobject hfact
  exact ⟨_, find_overlay_eq_ok.2 ⟨stored, hstored, rfl⟩⟩

/-! ## Looking up one fact -/

theorem find_exact_eq_ok {l : List Fact} : s.find (.exact f) = .ok l ↔
    ∃ b, s.contains f = .ok b ∧ (if b then [f] else []) = l := by
  have hfact : (Query.exact f).fact? = some f := rfl
  have hany : (Query.exact f).isAny = false := rfl
  simp only [find, hfact, hany, Bool.false_eq_true, if_false, bind_eq_ok, pure_eq_ok]

theorem contains_overlay_eq_ok {b : Bool} : (s.overlay extra).contains f = .ok b ↔
    ∃ stored, s.contains f = .ok stored ∧ b = (stored || decide (f ∈ extra)) := by
  -- What is found is not empty if the fact is found in the store or accepted on top of it.
  have hnonempty : ∀ stored : Bool,
      (!((extra.filter (Query.exact f).accepts).foldl Overlay.append
        (if stored then [f] else [])).isEmpty) = (stored || decide (f ∈ extra)) := by
    intro stored
    rw [Bool.eq_iff_iff, Bool.not_eq_true', List.isEmpty_eq_false_iff_exists_mem]
    simp only [Overlay.mem_foldl_append, List.mem_filter,
      Query.accepts_iff_of_fact? (show (Query.exact f).fact? = some f from rfl), Bool.or_eq_true,
      decide_eq_true_eq]
    cases stored <;> simp
  constructor
  · intro h
    obtain ⟨l, hl, h⟩ := bind_eq_ok.1 h
    obtain ⟨found, hfound, rfl⟩ := find_overlay_eq_ok.1 hl
    obtain ⟨stored, hstored, rfl⟩ := find_exact_eq_ok.1 hfound
    exact ⟨stored, hstored, by rw [← hnonempty, pure_eq_ok.1 h]⟩
  · rintro ⟨stored, hstored, rfl⟩
    have hfound := find_exact_eq_ok.2 ⟨stored, hstored, rfl⟩
    exact bind_eq_ok.2 ⟨_, find_overlay_eq_ok.2 ⟨_, hfound, rfl⟩, by rw [pure_eq_ok, hnonempty]⟩

/-- A fact that is contained is within the limit, and what is stored or on top is contained. Where
digests tell the fact from the stored ones, nothing else is. -/
theorem of_contains_overlay (hs : s.Coherent) {b : Bool}
    (h : (s.overlay extra).contains f = .ok b) :
    f.WithinLimit ∧ (f ∈ s.contentWith extra → b = true) ∧
      ((∀ g ∈ s.content, g.digest = f.digest → g = f) → b = true → f ∈ s.contentWith extra) := by
  obtain ⟨stored, hstored, rfl⟩ := contains_overlay_eq_ok.1 h
  have hiff := of_contains hs.addressed hstored
  obtain ⟨id, hid, -⟩ := bind_eq_ok.1 hstored
  refine ⟨(Fact.id_eq_ok.1 hid).1, ?_, ?_⟩
  · rintro (hf | hf)
    · rw [hiff.2 ⟨f, hf, rfl⟩, Bool.true_or]
    · rw [decide_eq_true (show f ∈ extra from hf), Bool.or_true]
  · intro inj htrue
    rcases Bool.or_eq_true_iff.1 htrue with hmem | hmem
    · obtain ⟨g, hg, heq⟩ := hiff.1 hmem
      exact Or.inl (inj g hg heq ▸ hg)
    · exact Or.inr (of_decide_eq_true hmem)

theorem exists_contains_overlay (ho : s.storage.isOpen = true) (hf : f.WithinLimit)
    (extra : List Fact) : ∃ b, (s.overlay extra).contains f = .ok b := by
  obtain ⟨stored, hstored⟩ := Storage.exists_has ho f.digest
  exact ⟨_, contains_overlay_eq_ok.2 ⟨stored, bind_eq_ok.2 ⟨_, hf.id, hstored⟩, rfl⟩⟩

end Store
end FactGraph
