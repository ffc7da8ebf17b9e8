import FactGraph.Proofs.Page
import FactGraph.Proofs.Staleness

/-!
# Paging through what a query finds

A caller who wants all facts that a query accepts, but not all at once, asks for one page after
another until a page says that there are no more (`Store.Pages`). Every page is made from what is
found anew and sorted anew, and still the pages together have every fact once, in the order of the
digests (`Store.pages_through`).

This needs no assumption on the digests of different facts: facts are kept under their own digests,
and nothing occurs twice in an index (`Store.Distinct`), so no two facts that are found have one
digest.
-/

namespace FactGraph

/-- If there are more facts behind a page, the next page begins at its end. Half of all words are
enough for the positions of facts, so the end of the next page is a word as well. -/
theorem Page.fits_add {limit offset : UInt64} {total : Nat} (hmemory : total ≤ 2 ^ 63)
    (hmore : offset.toNat + limit.toNat < total) :
    (offset + limit).toNat = offset.toNat + limit.toNat ∧ Fits limit (offset + limit) total := by
  have hadd : (offset + limit).toNat = offset.toNat + limit.toNat := by
    rw [UInt64.toNat_add]
    omega
  refine ⟨hadd, ?_⟩
  rw [Fits, hadd]
  omega

namespace Store

variable {s t : Store} {storage : Storage} {q : Query} {limit offset : UInt64} {l l' : List Fact}
  {pages pages' : List Page} {steps : List Step}

/-! ## One page after another -/

/-- The pages that a caller is given from an offset on: after a page behind which there are more
facts comes the page at its end. -/
inductive Pages (s : Store) (q : Query) (limit : UInt64) : UInt64 → List Page → Prop where
  /-- A page behind which there are no more facts is the last one. -/
  | last {offset : UInt64} {p : Page} (hp : s.page q limit offset = .ok p)
      (hmore : p.hasMore = false) : Pages s q limit offset [p]
  /-- Any other page is followed by the next one. -/
  | more {offset : UInt64} {p : Page} {rest : List Page} (hp : s.page q limit offset = .ok p)
      (hmore : p.hasMore = true) (hrest : Pages s q limit (offset + limit) rest) :
      Pages s q limit offset (p :: rest)

namespace Pages

theorem ne_nil (h : s.Pages q limit offset pages) : pages ≠ [] := by
  cases h <;> exact List.cons_ne_nil _ _

theorem unique (h : s.Pages q limit offset pages) (h' : s.Pages q limit offset pages') :
    pages' = pages := by
  induction h generalizing pages' with
  | last hp hmore =>
    cases h' with
    | last hp' => rw [Except.ok.inj (hp.symm.trans hp')]
    | more hp' hmore' =>
      rw [← Except.ok.inj (hp.symm.trans hp'), hmore] at hmore'
      cases hmore'
  | more hp hmore _ ih =>
    cases h' with
    | last hp' hmore' =>
      rw [← Except.ok.inj (hp.symm.trans hp'), hmore] at hmore'
      cases hmore'
    | more hp' _ hrest' => rw [Except.ok.inj (hp.symm.trans hp'), ih hrest']

/-- Pages depend on the single answers only. -/
theorem congr (h : s.Pages q limit offset pages)
    (hsame : ∀ offset, t.page q limit offset = s.page q limit offset) :
    t.Pages q limit offset pages := by
  induction h with
  | last hp hmore => exact .last ((hsame _).trans hp) hmore
  | more hp hmore _ ih => exact .more ((hsame _).trans hp) hmore ih

end Pages

/-- From an offset on the pages have the sorted facts from there on, and all of them but the last
one are full. -/
theorem exists_pages (hl : s.find q = .ok l) (hmemory : l.length ≤ 2 ^ 63) (hlimit : limit ≠ 0)
    (hfits : Page.Fits limit offset l.length) : ∃ pages, s.Pages q limit offset pages ∧
      pages.flatMap Page.facts = (Page.byDigest l).drop offset.toNat ∧
      ∀ p ∈ pages.dropLast, p.facts.length = limit.toNat := by
  have hzero : limit.toNat ≠ 0 := fun h => hlimit (UInt64.toNat_inj.1 h)
  have hlength := Page.length_byDigest l
  -- Every page but the last one leaves fewer facts behind it.
  induction hleft : l.length - offset.toNat using Nat.strong_induction_on generalizing offset with
  | _ left ih =>
    have hp := page_of_find hl limit offset
    have hslice := Page.isSlice_ofFacts hfits
    generalize Page.ofFacts limit offset l = p at hp hslice
    have hfacts : p.facts = ((Page.byDigest l).drop offset.toNat).take limit.toNat := by
      rw [hslice.facts, Page.slice, if_neg hzero]
    have hmore := hslice.hasMore
    rw [hlength, and_iff_right hzero] at hmore
    by_cases hbehind : p.hasMore = true
    · obtain ⟨hadd, hfits'⟩ := Page.fits_add hmemory (hmore.1 hbehind)
      have hsmaller : l.length - (offset + limit).toNat < left := by
        have := hmore.1 hbehind
        omega
      obtain ⟨rest, hrest, hjoined, hfull⟩ := ih _ hsmaller hfits' rfl
      refine ⟨p :: rest, .more hp hbehind hrest, ?_, ?_⟩
      · rw [List.flatMap_cons, hjoined, hfacts, hadd, ← List.drop_drop, List.take_append_drop]
      · rw [List.dropLast_cons_of_ne_nil hrest.ne_nil, List.forall_mem_cons]
        refine ⟨?_, hfull⟩
        rw [hfacts, List.length_take, List.length_drop, hlength]
        have := hmore.1 hbehind
        omega
    · refine ⟨[p], .last hp (Bool.eq_false_iff.2 hbehind), ?_, by simp⟩
      rw [List.flatMap_singleton, hfacts, List.take_of_length_le]
      rw [List.length_drop, hlength]
      have := mt hmore.2 hbehind
      omega

/-- Asking for pages from the beginning on comes to an end, with the same pages every time. -/
theorem exists_all_pages (hl : s.find q = .ok l) (hmemory : l.length ≤ 2 ^ 63)
    (hlimit : limit ≠ 0) : ∃ pages, (∀ pages', s.Pages q limit 0 pages' ↔ pages' = pages) ∧
      pages.flatMap Page.facts = Page.byDigest l ∧
      ∀ p ∈ pages.dropLast, p.facts.length = limit.toNat := by
  have hfits : Page.Fits limit 0 l.length := by
    have := limit.toNat_lt
    unfold Page.Fits
    rw [UInt64.toNat_zero, Nat.zero_min]
    omega
  obtain ⟨pages, hpages, hjoined, hfull⟩ := exists_pages hl hmemory hlimit hfits
  refine ⟨pages, ?_, hjoined, hfull⟩
  intro pages'
  constructor
  · exact hpages.unique
  · rintro rfl
    exact hpages

/-! ## Stores with nothing twice -/

/-- Whether a store keeps facts under their own digests, and nothing occurs twice in its index. -/
structure Distinct (s : Store) : Prop where
  /-- Facts are kept under their own digests. -/
  addressed : s.storage.Addressed
  /-- Nothing occurs twice in the index. -/
  index : s.index.Distinct

theorem Coherent.distinct (h : s.Coherent) : s.Distinct := ⟨h.addressed, h.index.distinct⟩

namespace Distinct

theorem perform (h : s.Distinct) (r : Request) : (s.perform r).1.Distinct := by
  refine perform_induction r ?_ ?_ ?_ h
  · intro s s' f id new _ hs hi
    rcases insert_cases hi with ⟨-, rfl⟩ | ⟨-, storage, hstorage, rfl⟩
    · exact hs
    · exact ⟨hs.addressed.put hstorage, hs.index.add f.digest f⟩
  · intro s s' id existed hs hr
    obtain ⟨herase, hindex⟩ := remove_eq_ok hr
    refine ⟨hs.addressed.erase herase, ?_⟩
    rcases hindex with ⟨f, -, hindex⟩ | hindex
    · exact hindex ▸ hs.index.remove id f
    · exact hindex ▸ hs.index.forget id
  · intro s s' count hs hr
    obtain ⟨facts, -, rfl⟩ := rebuild_eq_ok hr
    exact ⟨hs.addressed, Index.distinct_ofFacts facts⟩

theorem step (h : s.Distinct) {st : Step} (hown : ∀ c, st = .change c → c.Own) :
    (s.step st).Distinct := by
  cases st with
  | request r => exact h.perform r
  | change c => exact ⟨h.addressed.perform (hown c rfl), h.index⟩
  | wait time => exact ⟨h.addressed.setTime time, h.index⟩
  | close => exact ⟨h.addressed.close, h.index⟩

theorem after (h : s.Distinct) (hown : ∀ c, .change c ∈ steps → c.Own) :
    (s.after steps).Distinct :=
  List.foldlRecOn steps Store.step h fun _ hs _ hst => hs.step fun c hc => hown c (hc ▸ hst)

end Distinct

/-! ## Paging -/

/-- A store is opened over a storage of any kind that is open and keeps facts under their own
digests, and used in any way. Then asking for pages of any size comes to an end: all pages but the
last one are full, and together they have what the query finds, in the order of the digests. If only
facts under their own digests were put behind the back of the store, their digests ascend, and no
page depends on the order in which the facts are found.

That there are at most `2 ^ 63` facts is no restriction for a list in memory, as a fact takes more
than two bytes. -/
theorem pages_through (ho : storage.isOpen = true) (hstorage : storage.Addressed) :
    ∃ s, opened (some storage) = .ok s ∧ ∀ steps q limit, limit ≠ 0 →
      (∀ e, (s.after steps).find q = .error e → (s.after steps).page q limit 0 = .error e) ∧
      (∀ l, (s.after steps).find q = .ok l → l.length ≤ 2 ^ 63 → ∃ pages,
        (∀ pages', (s.after steps).Pages q limit 0 pages' ↔ pages' = pages) ∧
        (∀ p ∈ pages.dropLast, p.facts.length = limit.toNat) ∧
        (pages.flatMap Page.facts).Perm l ∧
        ((pages.flatMap Page.facts).Pairwise fun f g =>
          (compare f.digest g.digest).isLE = true) ∧
        ((∀ c, .change c ∈ steps → c.Own) →
          ((pages.flatMap Page.facts).Pairwise fun f g => compare f.digest g.digest = .lt) ∧
          ∀ (t : Store) l', t.find q = .ok l' → l'.Perm l →
            ∀ pages', t.Pages q limit 0 pages' ↔ pages' = pages)) ∧
      ((∀ c, .change c ∈ steps → c.Own) → .close ∉ steps → (Request.find q).WithinLimit →
        ∃ l, (s.after steps).find q = .ok l) := by
  obtain ⟨s, hopened, hs, hkept, -⟩ := exists_opened ho hstorage
  refine ⟨s, hopened, ?_⟩
  intro steps q limit hlimit
  refine ⟨?_, ?_, ?_⟩
  · intro e he
    exact page_of_find_eq_error he limit 0
  · intro l hl hmemory
    obtain ⟨pages, hpages, hjoined, hfull⟩ := exists_all_pages hl hmemory hlimit
    refine ⟨pages, hpages, hfull, ?_, ?_, ?_⟩
    · rw [hjoined]
      exact Page.byDigest_perm l
    · rw [hjoined]
      exact Page.pairwise_isLE_byDigest l
    · intro hown
      have hdistinct := hs.distinct.after hown
      have nodup := nodup_digests_find hdistinct.addressed hdistinct.index hl
      constructor
      · rw [hjoined]
        exact Page.pairwise_byDigest nodup
      · intro t l' hl' hperm pages'
        have hsame := page_congr nodup hl hl' hperm limit
        rw [← hpages]
        exact ⟨fun h => h.congr fun offset => (hsame offset).symm, fun h => h.congr hsame⟩
  · intro hown hclose hq
    have hkept' := hkept.after hown hclose
    exact exists_find hkept'.addressed hkept'.isOpen hq

/-- Three facts, one of them put behind the back of the store, are on two pages of two facts. -/
theorem pages_through_three :
    let f : Fact := ⟨.named "a", "p", .named "b"⟩
    let g : Fact := ⟨.named "a", "q", .named "b"⟩
    let h : Fact := ⟨.named "a", "p", .integer 1⟩
    let steps : List Step := [.request (.insertAll [f, g]), .change (.put h.digest h)]
    ∃ s p p', opened (some (.memory {})) = .ok s ∧ (s.after steps).Pages .any 2 0 [p, p'] ∧
      p.facts.length = 2 ∧ (p.facts ++ p'.facts).Perm [f, g, h] ∧
      (p.facts ++ p'.facts).Pairwise fun f g => compare f.digest g.digest = .lt := by
  intro f g h steps
  obtain ⟨s, hopened, hpaging⟩ := @pages_through (.memory {}) rfl
    (coherent_of_items_eq_nil rfl).1.addressed
  have hs : opened (some (.memory {})) = .ok { storage := .memory {} } := rfl
  cases hs.symm.trans hopened
  have hown : ∀ c, .change c ∈ steps → c.Own := by simp [steps, Journal.Change.Own]
  have hfind : (after { storage := .memory {} } steps).find .any = .ok [h, g, f] := by
    decide +kernel
  obtain ⟨pages, honly, hfull, hperm, -, hstrict⟩ :=
    (hpaging steps .any 2 (by decide)).2.1 [h, g, f] hfind (by decide)
  have hpages : (after { storage := .memory {} } steps).Pages .any 2 0
      [Page.ofFacts 2 0 [h, g, f], Page.ofFacts 2 (0 + 2) [h, g, f]] :=
    .more (page_of_find hfind 2 0) (by decide +kernel)
      (.last (page_of_find hfind 2 (0 + 2)) (by decide +kernel))
  obtain rfl := (honly _).1 hpages
  simp only [List.flatMap_cons, List.flatMap_nil, List.append_nil] at hperm hstrict
  refine ⟨_, _, _, hopened, hpages, hfull _ (by simp), ?_, (hstrict hown).1⟩
  exact hperm.trans (List.reverse_perm [f, g, h])

end Store
end FactGraph
