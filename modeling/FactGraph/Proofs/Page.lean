import Mathlib.Algebra.Group.Nat.Defs
import FactGraph.Proofs.Order
import FactGraph.Store.Page

/-!
# What is on a page

A page should be a slice of the facts that a query accepts, sorted by their digests
(`Page.IsSlice`), and it is, as long as the end of the slice is a word (`Store.page_slices`). The
end is computed with words, so behind a limit that is too large for this there is no fact on the
page, and the page says that there are more.
-/

namespace FactGraph

/-! ## Digests in order -/

instance : Std.TransOrd Digest :=
  inferInstanceAs (Std.TransCmp (compareOn Digest.bytes))

instance : Std.LawfulEqOrd Digest where
  eq_of_compare {a b} heq := by
    have hbytes : a.bytes = b.bytes := Std.LawfulEqOrd.eq_of_compare heq
    cases a
    cases b
    cases hbytes
    rfl

namespace Page

variable {facts facts' : List Fact} {limit offset : UInt64} {p : Page}

theorem byDigest_perm (facts : List Fact) : (byDigest facts).Perm facts := by
  have hperm := (List.mergeSort_perm (facts.map fun f => (f.digest, f))
    fun a b => compare a.1 b.1 != .gt).map Prod.snd
  rwa [List.map_map, Function.comp_def, List.map_id'] at hperm

theorem length_byDigest (facts : List Fact) : (byDigest facts).length = facts.length :=
  (byDigest_perm facts).length_eq

/-- Facts are listed so that their digests do not descend. -/
theorem pairwise_isLE_byDigest (facts : List Fact) :
    (byDigest facts).Pairwise fun f g => (compare f.digest g.digest).isLE = true := by
  rw [byDigest, List.pairwise_map]
  refine (pairwise_mergeSort (compareOn Prod.fst) _).imp_of_mem fun {p q} hp hq hpq => ?_
  -- Every fact stands beside its digest.
  obtain ⟨f, -, rfl⟩ := List.mem_map.1 (List.mem_mergeSort.1 hp)
  obtain ⟨g, -, rfl⟩ := List.mem_map.1 (List.mem_mergeSort.1 hq)
  exact hpq

/-- Facts with different digests are listed so that their digests ascend. -/
theorem pairwise_byDigest (nodup : (facts.map Fact.digest).Nodup) :
    (byDigest facts).Pairwise fun f g => compare f.digest g.digest = .lt := by
  have hne : (byDigest facts).Pairwise fun f g => f.digest ≠ g.digest :=
    List.pairwise_map.1 (((byDigest_perm facts).map Fact.digest).nodup_iff.2 nodup)
  refine (hne.and (pairwise_isLE_byDigest facts)).imp fun {f g} h => ?_
  cases hcompare : compare f.digest g.digest with
  | lt => rfl
  | eq => exact absurd (Std.LawfulEqOrd.eq_of_compare hcompare) h.1
  | gt => simp [hcompare] at h

/-- Where digests tell facts apart, it does not matter in which order they come. -/
theorem byDigest_congr (nodup : (facts.map Fact.digest).Nodup) (hperm : facts'.Perm facts) :
    byDigest facts' = byDigest facts := by
  have nodup' : (facts'.map Fact.digest).Nodup := (hperm.map Fact.digest).nodup_iff.2 nodup
  have hsame := ((byDigest_perm facts').trans hperm).trans (byDigest_perm facts).symm
  refine hsame.eq_of_pairwise (fun f g _ _ hfg hgf => ?_) (pairwise_byDigest nodup')
    (pairwise_byDigest nodup)
  exact absurd (Std.OrientedCmp.gt_of_lt hfg) (by rw [hgf]; nofun)

/-! ## Slices -/

/-- The facts from a position on, at most as many as a limit says; zero is no limit. -/
def slice (limit offset : Nat) (facts : List Fact) : List Fact :=
  if limit = 0 then facts.drop offset else (facts.drop offset).take limit

/-- Whether a page is the slice of sorted facts that it should be. -/
structure IsSlice (p : Page) (limit offset : Nat) (sorted : List Fact) : Prop where
  /-- The facts are those of the slice. -/
  facts : p.facts = slice limit offset sorted
  /-- All facts are counted. -/
  total : p.total = sorted.length
  /-- There are more if there is a fact at the end of the slice or behind it. -/
  hasMore : p.hasMore = true ↔ limit ≠ 0 ∧ offset + limit < sorted.length

/-- Whether the end of a slice, where there are so many facts, is a word. -/
def Fits (limit offset : UInt64) (total : Nat) : Prop :=
  min offset.toNat total + limit.toNat < 2 ^ 64

instance (limit offset : UInt64) (total : Nat) : Decidable (Fits limit offset total) :=
  inferInstanceAs (Decidable (_ < _))

theorem sliceEnd_eq (hlimit : limit ≠ 0) (offset : UInt64) (total : Nat) :
    sliceEnd limit (min offset.toNat total) total =
      min total ((min offset.toNat total + limit.toNat) % 2 ^ 64) := by
  have hword : min offset.toNat total < 2 ^ 64 :=
    Nat.lt_of_le_of_lt (Nat.min_le_left _ _) offset.toNat_lt
  rw [sliceEnd, if_neg (by simpa using hlimit), UInt64.toNat_add, UInt64.toNat_ofNat',
    Nat.mod_eq_of_lt hword]

/-- If the end of the slice is a word, the page is the slice. -/
theorem isSlice_ofFacts (hfits : Fits limit offset facts.length) :
    (ofFacts limit offset facts).IsSlice limit.toNat offset.toNat (byDigest facts) := by
  have hlength := length_byDigest facts
  by_cases hlimit : limit = 0
  · -- Without a limit the slice goes to the end.
    subst hlimit
    have hstop : sliceEnd 0 (min offset.toNat facts.length) facts.length = facts.length := rfl
    have hfacts : ((byDigest facts).take facts.length).drop (min offset.toNat facts.length) =
        (byDigest facts).drop offset.toNat := by
      rw [← hlength, List.take_length, ← List.drop_eq_drop_min]
    refine ⟨?_, hlength.symm, ?_⟩
    · simpa only [ofFacts, hstop, slice, UInt64.toNat_zero, if_true] using hfacts
    · simp [ofFacts, hstop]
  · have hzero : limit.toNat ≠ 0 := fun h => hlimit (UInt64.toNat_inj.1 h)
    have hstop := sliceEnd_eq hlimit offset facts.length
    rw [Nat.mod_eq_of_lt hfits] at hstop
    have hfacts : ((byDigest facts).take (min facts.length (min offset.toNat facts.length +
        limit.toNat))).drop (min offset.toNat facts.length) =
        ((byDigest facts).drop offset.toNat).take limit.toNat := by
      rw [List.drop_take, ← hlength, ← List.drop_eq_drop_min, List.take_eq_take_iff,
        List.length_drop]
      omega
    refine ⟨?_, hlength.symm, ?_⟩
    · simpa only [ofFacts, hstop, slice, if_neg hzero] using hfacts
    · simp only [ofFacts, hstop, hlength, decide_eq_true_eq]
      omega

/-- If it is not, the page has no facts and says that there are more. -/
theorem ofFacts_of_not_fits (hfits : ¬ Fits limit offset facts.length) :
    ofFacts limit offset facts = ⟨[], facts.length, true⟩ := by
  have hword := offset.toNat_lt
  have hlimit : limit ≠ 0 := by
    rintro rfl
    exact hfits (Nat.lt_of_le_of_lt (Nat.min_le_left _ _) hword)
  unfold Fits at hfits
  -- The end is a word that stands in front of the position where the slice begins.
  have hstop : sliceEnd limit (min offset.toNat facts.length) facts.length <
      min offset.toNat facts.length := by
    rw [sliceEnd_eq hlimit]
    have := limit.toNat_lt
    omega
  have hfacts : ((byDigest facts).take (sliceEnd limit (min offset.toNat facts.length)
      facts.length)).drop (min offset.toNat facts.length) = [] :=
    List.drop_eq_nil_of_le (Nat.le_trans (List.length_take_le _ _) (Nat.le_of_lt hstop))
  have hmore := Nat.lt_of_lt_of_le hstop (Nat.min_le_right _ _)
  simp only [ofFacts, hfacts, hmore, decide_true]

end Page

namespace Store

open Page

variable {s : Store} {q : Query} {limit offset : UInt64}

theorem page_of_find {l : List Fact} (hl : s.find q = .ok l) (limit offset : UInt64) :
    s.page q limit offset = .ok (ofFacts limit offset l) := by
  rw [page, hl]
  rfl

theorem page_of_find_eq_error {e : StoreError} (he : s.find q = .error e) (limit offset : UInt64) :
    s.page q limit offset = .error e := by
  rw [page, he]
  rfl

/-- Facts that are found in another order are on the same pages, if their digests differ. -/
theorem page_congr {t : Store} {l l' : List Fact} (nodup : (l.map Fact.digest).Nodup)
    (hl : s.find q = .ok l) (hl' : t.find q = .ok l') (hperm : l'.Perm l) (limit offset : UInt64) :
    t.page q limit offset = s.page q limit offset := by
  rw [page_of_find hl, page_of_find hl']
  unfold ofFacts
  rw [byDigest_congr nodup hperm, hperm.length_eq]

/-- Whatever a store finds, all pages of a query are slices of the same facts, sorted by their
digests, unless the end of a slice is not a word. Such a page is empty and says that there are more
facts. -/
theorem page_slices (s : Store) (q : Query) :
    (∀ e, s.find q = .error e → ∀ limit offset, s.page q limit offset = .error e) ∧
      ∀ l, s.find q = .ok l → ∃ sorted : List Fact, sorted.Perm l ∧
        (sorted.Pairwise fun f g => (compare f.digest g.digest).isLE = true) ∧
        ∀ limit offset, ∃ p, s.page q limit offset = .ok p ∧
          (Fits limit offset l.length → p.IsSlice limit.toNat offset.toNat sorted) ∧
          (¬ Fits limit offset l.length → p = ⟨[], l.length, true⟩) := by
  constructor
  · intro e he limit offset
    exact page_of_find_eq_error he limit offset
  · intro l hl
    refine ⟨byDigest l, byDigest_perm l, pairwise_isLE_byDigest l, ?_⟩
    intro limit offset
    refine ⟨_, page_of_find hl limit offset, ?_, ?_⟩
    · exact isSlice_ofFacts
    · exact ofFacts_of_not_fits

/-- Behind the first of two facts there is one on a page of one fact, and none on a page of as many
facts as a word can count. -/
theorem page_slices_two :
    let f : Fact := ⟨.named "a", "p", .named "b"⟩
    let g : Fact := ⟨.named "a", "q", .named "b"⟩
    let s := (insertAll { storage := .memory {} } [f, g]).1
    (∃ p, s.page .any 1 1 = .ok p ∧ p.facts.length = 1 ∧ p.total = 2 ∧ p.hasMore = false) ∧
      s.page .any 18446744073709551615 1 = .ok ⟨[], 2, true⟩ := by
  intro f g s
  have hfind : s.find .any = .ok [g, f] := by decide +kernel
  obtain ⟨sorted, hperm, -, hpages⟩ := (page_slices s .any).2 [g, f] hfind
  have hlength : sorted.length = 2 := hperm.length_eq
  constructor
  · obtain ⟨p, hp, hslice, -⟩ := hpages 1 1
    obtain ⟨hfacts, htotal, hmore⟩ := hslice (by decide)
    refine ⟨p, hp, ?_, htotal.trans hlength, ?_⟩
    · rw [hfacts, slice, if_neg (by decide), List.length_take, List.length_drop, hlength]
      rfl
    · rw [hlength] at hmore
      exact Bool.eq_false_iff.2 fun h => absurd (hmore.1 h).2 (by decide)
  · obtain ⟨p, hp, -, hwrapped⟩ := hpages 18446744073709551615 1
    rw [hp, hwrapped (by decide)]
    rfl

end Store
end FactGraph
