import Mathlib.Data.Set.Insert
import FactGraph.Index
import FactGraph.Proofs.Lookup
import FactGraph.Proofs.Encoding

/-!
# Which facts an index describes

Buckets hold a relation between keys and digests; putting a digest under a key adds one pair to it,
and taking digests away removes pairs (`Buckets.Holds`). An index describes a set of facts if it
has the digests of its members and its buckets hold which member has which key. The candidates of a
query then include the digests of all members that the query accepts (`Describes.mem_candidates`).
-/

namespace FactGraph

/-! ## Buckets -/

namespace Buckets

/-- Whether buckets hold exactly the pairs of a relation between keys and digests, each once. -/
structure Holds (b : Buckets) (R : Text → Digest → Prop) : Prop where
  /-- No key has two buckets. -/
  nodup_keys : (b.entries.map Prod.fst).Nodup
  /-- No digest occurs twice in a bucket. -/
  nodup_ids : ∀ e ∈ b.entries, e.2.items.Nodup
  /-- Bucket by bucket, the digests under a key are those to which it is related. -/
  iff : ∀ key id, (∃ e ∈ b.entries, e.1 = key ∧ id ∈ e.2.items) ↔ R key id

variable {b : Buckets} {R R' : Text → Digest → Prop} {key : Text} {id : Digest}

theorem holds_empty : Holds {} fun _ _ => False := ⟨List.nodup_nil, by simp, by simp⟩

theorem Holds.congr (h : b.Holds R) (hR : ∀ key id, R key id ↔ R' key id) : b.Holds R' :=
  ⟨h.nodup_keys, h.nodup_ids, fun key id => (h.iff key id).trans (hR key id)⟩

theorem Holds.of_get? (h : b.Holds R) {ids : List Digest} (hids : b.get? key = some ids) :
    ids.Nodup ∧ ∀ id, id ∈ ids ↔ R key id := by
  obtain ⟨g, hg, rfl⟩ := Option.map_eq_some_iff.1 hids
  have hmem := mem_of_lookup hg
  refine ⟨h.nodup_ids _ hmem, fun id => ?_⟩
  rw [← h.iff]
  constructor
  · intro hid
    exact ⟨_, hmem, rfl, hid⟩
  · rintro ⟨e, he, rfl, hid⟩
    rw [lookup_of_mem h.nodup_keys he, Option.some.injEq] at hg
    exact hg ▸ hid

theorem Holds.of_get?_eq_none (h : b.Holds R) (hids : b.get? key = none) : ¬ R key id := by
  rw [get?, Option.map_eq_none_iff, lookup_eq_none_iff_not_mem] at hids
  rw [← h.iff]
  rintro ⟨e, he, rfl, -⟩
  exact hids (List.mem_map_of_mem he)

/-! ### Putting in -/

theorem mem_insertId {ids : Grouping Digest} {other : Digest} :
    other ∈ (insertId ids id).items ↔ other = id ∨ other ∈ ids.items := by
  rw [insertId]
  split
  · next h =>
    have h : id ∈ ids.items := by simpa using h
    constructor
    · exact Or.inr
    · rintro (rfl | ho)
      · exact h
      · exact ho
  · rw [(Grouping.insert_perm ..).mem_iff, List.mem_cons]

theorem nodup_insertId {ids : Grouping Digest} (h : ids.items.Nodup) :
    (insertId ids id).items.Nodup := by
  rw [insertId]
  split
  · exact h
  · next hid =>
    rw [(Grouping.insert_perm ..).nodup_iff, List.nodup_cons]
    exact ⟨by simpa using hid, h⟩

theorem keys_insertEntry (entries : List (Text × Grouping Digest)) :
    (insertEntry key id entries).map Prod.fst =
      entries.map Prod.fst ++ (if key ∈ entries.map Prod.fst then [] else [key]) := by
  induction entries with
  | nil => simp [insertEntry]
  | cons e rest ih =>
    rw [insertEntry]
    split
    · next h => simp [beq_iff_eq.1 h]
    · next h =>
      have hne : ¬ key = e.1 := fun heq => h (beq_iff_eq.2 heq.symm)
      simp only [List.map_cons, ih, List.mem_cons, hne, false_or, List.cons_append]

/-- The entries after a digest was put under a key are the other entries and the one of the key with
one digest more. -/
theorem exists_mem_insertEntry {entries : List (Text × Grouping Digest)}
    (nodup : (entries.map Prod.fst).Nodup) {key' : Text} {id' : Digest} :
    (∃ e ∈ insertEntry key id entries, e.1 = key' ∧ id' ∈ e.2.items) ↔
      (∃ e ∈ entries, e.1 = key' ∧ id' ∈ e.2.items) ∨ (key' = key ∧ id' = id) := by
  induction entries with
  | nil => simp [insertEntry, mem_insertId, eq_comm]
  | cons e rest ih =>
    rw [List.map_cons, List.nodup_cons] at nodup
    rw [insertEntry]
    split
    · next h =>
      simp only [List.exists_mem_cons_iff, mem_insertId, beq_iff_eq.1 h]
      grind
    · simp only [List.exists_mem_cons_iff, ih nodup.2, or_assoc]

theorem nodup_mem_insertEntry {entries : List (Text × Grouping Digest)}
    (h : ∀ e ∈ entries, e.2.items.Nodup) : ∀ e ∈ insertEntry key id entries, e.2.items.Nodup := by
  induction entries with
  | nil => simpa [insertEntry] using nodup_insertId List.nodup_nil
  | cons e rest ih =>
    rw [List.forall_mem_cons] at h
    rw [insertEntry]
    split
    · exact List.forall_mem_cons.2 ⟨nodup_insertId h.1, h.2⟩
    · exact List.forall_mem_cons.2 ⟨h.1, ih h.2⟩

theorem Holds.insert (h : b.Holds R) (key : Text) (id : Digest) :
    (b.insert key id).Holds fun key' id' => R key' id' ∨ (key' = key ∧ id' = id) where
  nodup_keys := by
    rw [Buckets.insert, keys_insertEntry]
    split
    · simpa using h.nodup_keys
    · next hkey =>
      refine List.nodup_append.2 ⟨h.nodup_keys, List.nodup_singleton _, ?_⟩
      rintro a ha b hb rfl
      exact hkey (List.mem_singleton.1 hb ▸ ha)
  nodup_ids := nodup_mem_insertEntry h.nodup_ids
  iff := fun key' id' => by
    rw [← h.iff]
    exact exists_mem_insertEntry h.nodup_keys

/-! ### Taking away -/

theorem without_eq_some {e e' : Text × Grouping Digest} (h : without id e = some e') :
    e' = (e.1, e.2.filter (· != id)) := by
  simp only [without] at h
  split at h
  · cases h
  · exact (Option.some.inj h).symm

theorem exists_without {e : Text × Grouping Digest} {id' : Digest} (h : id' ∈ e.2.items)
    (hne : id' ≠ id) : ∃ e', without id e = some e' := by
  have hmem : id' ∈ (e.2.filter (· != id)).items := by simp [Grouping.filter, h, hne]
  refine ⟨_, if_neg fun hempty => ?_⟩
  rw [List.isEmpty_iff.1 hempty] at hmem
  cases hmem

/-- Where every bucket keeps its key and some of its digests, buckets hold what is kept. -/
theorem Holds.filterMap (h : b.Holds R)
    {change : Text × Grouping Digest → Option (Text × Grouping Digest)}
    {keep : Text → Digest → Prop}
    (hkey : ∀ e e', change e = some e' → e'.1 = e.1 ∧ e'.2.items.Sublist e.2.items ∧
      ∀ id ∈ e.2.items, id ∈ e'.2.items ↔ keep e.1 id)
    (hkept : ∀ e, ∀ id ∈ e.2.items, keep e.1 id → ∃ e', change e = some e') :
    Holds ⟨b.entries.filterMap change⟩ fun key id => R key id ∧ keep key id where
  nodup_keys := by
    refine h.nodup_keys.sublist ?_
    generalize b.entries = entries
    induction entries with
    | nil => simp
    | cons e rest ih =>
      rw [List.filterMap_cons]
      split
      · exact ih.cons _
      · next e' he =>
        rw [List.map_cons, List.map_cons, (hkey e e' he).1]
        exact ih.cons_cons _
  nodup_ids := by
    intro e' he'
    obtain ⟨e, he, hc⟩ := List.mem_filterMap.1 he'
    exact (h.nodup_ids e he).sublist (hkey e e' hc).2.1
  iff := fun key id => by
    rw [← h.iff]
    constructor
    · rintro ⟨e', he', rfl, hid⟩
      obtain ⟨e, he, hc⟩ := List.mem_filterMap.1 he'
      obtain ⟨h1, hsub, hk⟩ := hkey e e' hc
      have hmem := hsub.subset hid
      exact ⟨⟨e, he, h1.symm, hmem⟩, h1 ▸ (hk id hmem).1 hid⟩
    · rintro ⟨⟨e, he, rfl, hid⟩, hk⟩
      obtain ⟨e', hc⟩ := hkept e id hid hk
      obtain ⟨h1, -, hk'⟩ := hkey e e' hc
      exact ⟨e', List.mem_filterMap.2 ⟨e, he, hc⟩, h1, (hk' id hid).2 hk⟩

theorem Holds.erase (h : b.Holds R) (key : Text) (id : Digest) :
    (b.erase key id).Holds fun key' id' => R key' id' ∧ ¬ (key' = key ∧ id' = id) := by
  refine h.filterMap (fun e e' hc => ?_) fun e id' hid hk => ?_
  · split at hc
    · next hkey =>
      rw [without_eq_some hc]
      refine ⟨rfl, List.filter_sublist, fun id' hid => ?_⟩
      simp [Grouping.filter, hid, beq_iff_eq.1 hkey]
    · next hkey =>
      rw [← Option.some.inj hc]
      refine ⟨rfl, .refl _, fun id' hid => ?_⟩
      simp only [hid, true_iff, not_and]
      exact fun heq => absurd (beq_iff_eq.2 heq) hkey
  · split
    · next hkey => exact exists_without hid fun heq => hk ⟨beq_iff_eq.1 hkey, heq⟩
    · exact ⟨e, rfl⟩

theorem Holds.forget (h : b.Holds R) (id : Digest) :
    (b.forget id).Holds fun key' id' => R key' id' ∧ id' ≠ id := by
  refine h.filterMap (fun e e' hc => ?_) fun e id' hid hk => exists_without hid hk
  rw [without_eq_some hc]
  refine ⟨rfl, List.filter_sublist, fun id' hid => ?_⟩
  simp [Grouping.filter, hid]

end Buckets

/-! ## Described sets -/

/-- Whether a member of a set has a key and a digest. -/
def Keyed (A : Set Fact) (keyOf : Fact → Text) (key : Text) (id : Digest) : Prop :=
  ∃ f ∈ A, keyOf f = key ∧ f.digest = id

/-- Whether an index holds the digests of the members of a set, in the buckets where they belong. -/
structure Index.Describes (x : Index) (A : Set Fact) : Prop where
  /-- No digest occurs twice. -/
  nodup : x.ids.Nodup
  /-- The digests are those of the members. -/
  ids : ∀ id, id ∈ x.ids ↔ ∃ f ∈ A, f.digest = id
  /-- The digests by subject. -/
  subjects : x.bySubject.Holds (Keyed A fun f => Encoding.nodeBytes f.subject)
  /-- The digests by predicate. -/
  predicates : x.byPredicate.Holds (Keyed A Fact.predicate)
  /-- The digests by object. -/
  objects : x.byObject.Holds (Keyed A fun f => Encoding.valueBytes f.object)

variable {A B : Set Fact} {f : Fact} {keyOf : Fact → Text} {key : Text} {id : Digest}

theorem keyed_insert : Keyed (insert f A) keyOf key id ↔
    Keyed A keyOf key id ∨ (key = keyOf f ∧ id = f.digest) := by
  simp only [Keyed, Set.exists_mem_insert, eq_comm (a := keyOf f), eq_comm (a := f.digest)]
  exact Or.comm

theorem keyed_forget {other : Digest} : Keyed {g ∈ A | g.digest ≠ other} keyOf key id ↔
    Keyed A keyOf key id ∧ id ≠ other := by
  constructor
  · rintro ⟨f, ⟨hf, hne⟩, rfl, rfl⟩
    exact ⟨⟨f, hf, rfl, rfl⟩, hne⟩
  · rintro ⟨⟨f, hf, rfl, rfl⟩, hne⟩
    exact ⟨f, ⟨hf, hne⟩, rfl, rfl⟩

/-- As a digest belongs to one member only, taking it from under the key of the member takes it
away. -/
theorem keyed_remove (inj : Set.InjOn Fact.digest A) (hf : f ∈ A) :
    Keyed {g ∈ A | g.digest ≠ f.digest} keyOf key id ↔
      Keyed A keyOf key id ∧ ¬ (key = keyOf f ∧ id = f.digest) := by
  rw [keyed_forget]
  refine and_congr_right fun hkeyed => not_congr ⟨fun heq => ⟨?_, heq⟩, fun h => h.2⟩
  obtain ⟨g, hg, rfl, rfl⟩ := hkeyed
  rw [inj hg hf heq]

namespace Index

variable {x : Index}

theorem contains_iff : x.contains id = true ↔ id ∈ x.ids := by
  simp [contains]

theorem mem_ids_add {other : Digest} : id ∈ (x.add other f).ids ↔ id = other ∨ id ∈ x.ids := by
  rw [Index.add]
  split
  · next h =>
    rw [contains_iff] at h
    exact ⟨.inr, fun hid => hid.elim (fun heq => heq ▸ h) fun hid => hid⟩
  · exact List.mem_cons

theorem mem_ids_remove {other : Digest} :
    id ∈ (x.remove other f).ids ↔ id ∈ x.ids ∧ id ≠ other := by
  rw [Index.remove]
  split
  · simp
  · next h =>
    rw [contains_iff] at h
    exact ⟨fun hid => ⟨hid, fun heq => h (heq ▸ hid)⟩, fun hid => hid.1⟩

theorem mem_ids_forget {other : Digest} :
    id ∈ (x.forget other).ids ↔ id ∈ x.ids ∧ id ≠ other := by
  rw [Index.forget]
  split
  · simp
  · next h =>
    rw [contains_iff] at h
    exact ⟨fun hid => ⟨hid, fun heq => h (heq ▸ hid)⟩, fun hid => hid.1⟩

namespace Describes

theorem empty : Describes {} ∅ where
  nodup := List.nodup_nil
  ids := by simp
  subjects := Buckets.holds_empty.congr (by simp [Keyed])
  predicates := Buckets.holds_empty.congr (by simp [Keyed])
  objects := Buckets.holds_empty.congr (by simp [Keyed])

theorem congr (h : x.Describes A) (hAB : ∀ f, f ∈ A ↔ f ∈ B) : x.Describes B :=
  (Set.ext hAB : A = B) ▸ h

theorem contains_iff (h : x.Describes A) :
    x.contains id = true ↔ ∃ f ∈ A, f.digest = id := by
  rw [Index.contains_iff, h.ids]

theorem add (h : x.Describes A) (new : ∀ g ∈ A, g.digest ≠ f.digest) :
    (x.add f.digest f).Describes (insert f A) := by
  have hnew : ¬ x.contains f.digest = true := by
    rw [h.contains_iff]
    rintro ⟨g, hg, heq⟩
    exact new g hg heq
  rw [Index.add, if_neg hnew]
  rw [Index.contains_iff] at hnew
  refine ⟨List.nodup_cons.2 ⟨hnew, h.nodup⟩, fun id => ?_, ?_, ?_, ?_⟩
  · simp only [List.mem_cons, h.ids, Set.exists_mem_insert, eq_comm (a := f.digest)]
  · exact (h.subjects.insert _ _).congr fun key id => keyed_insert.symm
  · exact (h.predicates.insert _ _).congr fun key id => keyed_insert.symm
  · exact (h.objects.insert _ _).congr fun key id => keyed_insert.symm

theorem ids_filter (h : x.Describes A) (other id : Digest) :
    id ∈ x.ids.filter (· != other) ↔ ∃ f ∈ {g ∈ A | g.digest ≠ other}, f.digest = id := by
  rw [List.mem_filter, h.ids]
  constructor
  · rintro ⟨⟨f, hf, rfl⟩, hne⟩
    exact ⟨f, ⟨hf, by simpa using hne⟩, rfl⟩
  · rintro ⟨f, ⟨hf, hne⟩, rfl⟩
    exact ⟨⟨f, hf, rfl⟩, by simpa using hne⟩

theorem remove (h : x.Describes A) (inj : Set.InjOn Fact.digest A) (hf : f ∈ A) :
    (x.remove f.digest f).Describes {g ∈ A | g.digest ≠ f.digest} := by
  rw [Index.remove, if_pos (h.contains_iff.2 ⟨f, hf, rfl⟩)]
  refine ⟨h.nodup.filter _, h.ids_filter _, ?_, ?_, ?_⟩
  · exact (h.subjects.erase _ _).congr fun key id => (keyed_remove inj hf).symm
  · exact (h.predicates.erase _ _).congr fun key id => (keyed_remove inj hf).symm
  · exact (h.objects.erase _ _).congr fun key id => (keyed_remove inj hf).symm

theorem forget (h : x.Describes A) (id : Digest) :
    (x.forget id).Describes {g ∈ A | g.digest ≠ id} := by
  rw [Index.forget]
  split
  · refine ⟨h.nodup.filter _, h.ids_filter _, ?_, ?_, ?_⟩
    · exact (h.subjects.forget _).congr fun key id => keyed_forget.symm
    · exact (h.predicates.forget _).congr fun key id => keyed_forget.symm
    · exact (h.objects.forget _).congr fun key id => keyed_forget.symm
  · next hid =>
    refine h.congr fun f => ⟨fun hf => ⟨hf, fun heq => hid ?_⟩, fun hf => hf.1⟩
    exact h.contains_iff.2 ⟨f, hf, heq⟩

end Describes

theorem describes_ofFacts {facts : List Fact} (nodup : (facts.map Fact.digest).Nodup) :
    (ofFacts facts).Describes {f | f ∈ facts} := by
  suffices hfold : ∀ (x : Index) (A : Set Fact), x.Describes A →
      (∀ f ∈ facts, ∀ g ∈ A, g.digest ≠ f.digest) →
      (facts.foldl (fun x f => x.add f.digest f) x).Describes {f | f ∈ facts ∨ f ∈ A} by
    exact (hfold {} ∅ .empty (by simp)).congr (by simp)
  induction facts with
  | nil => exact fun x A h _ => h.congr (by simp)
  | cons f rest ih =>
    intro x A h hnew
    rw [List.forall_mem_cons] at hnew
    rw [List.map_cons, List.nodup_cons] at nodup
    rw [List.foldl_cons]
    refine (ih nodup.2 _ _ (h.add hnew.1) fun g hg => ?_).congr fun g => ?_
    · intro g' hg'
      rcases hg' with rfl | hg'
      · exact fun heq => nodup.1 (heq ▸ List.mem_map_of_mem hg)
      · exact hnew.2 g hg g' hg'
    · simp only [Set.mem_ofPred_eq, Set.mem_insert_iff, List.mem_cons]
      tauto

/-! ## Nothing twice -/

/-- Whether nothing occurs twice in an index, whatever it describes. -/
structure Distinct (x : Index) : Prop where
  /-- No digest occurs twice. -/
  nodup : x.ids.Nodup
  /-- The buckets by subject hold some relation. -/
  subjects : ∃ R, x.bySubject.Holds R
  /-- So do those by predicate. -/
  predicates : ∃ R, x.byPredicate.Holds R
  /-- So do those by object. -/
  objects : ∃ R, x.byObject.Holds R

theorem Describes.distinct (h : x.Describes A) : x.Distinct :=
  ⟨h.nodup, ⟨_, h.subjects⟩, ⟨_, h.predicates⟩, ⟨_, h.objects⟩⟩

namespace Distinct

theorem add (h : x.Distinct) (id : Digest) (f : Fact) : (x.add id f).Distinct := by
  have ⟨nodup, ⟨_, hs⟩, ⟨_, hp⟩, ⟨_, ho⟩⟩ := h
  rw [Index.add]
  split
  · exact h
  · next hid =>
    rw [contains_iff] at hid
    exact ⟨List.nodup_cons.2 ⟨hid, nodup⟩, ⟨_, hs.insert _ id⟩, ⟨_, hp.insert _ id⟩,
      ⟨_, ho.insert _ id⟩⟩

theorem remove (h : x.Distinct) (id : Digest) (f : Fact) : (x.remove id f).Distinct := by
  have ⟨nodup, ⟨_, hs⟩, ⟨_, hp⟩, ⟨_, ho⟩⟩ := h
  rw [Index.remove]
  split
  · exact ⟨nodup.filter _, ⟨_, hs.erase _ id⟩, ⟨_, hp.erase _ id⟩, ⟨_, ho.erase _ id⟩⟩
  · exact h

theorem forget (h : x.Distinct) (id : Digest) : (x.forget id).Distinct := by
  have ⟨nodup, ⟨_, hs⟩, ⟨_, hp⟩, ⟨_, ho⟩⟩ := h
  rw [Index.forget]
  split
  · exact ⟨nodup.filter _, ⟨_, hs.forget id⟩, ⟨_, hp.forget id⟩, ⟨_, ho.forget id⟩⟩
  · exact h

end Distinct

theorem distinct_ofFacts (facts : List Fact) : (ofFacts facts).Distinct :=
  List.foldlRecOn facts _ Describes.empty.distinct fun _ h f _ => h.add f.digest f

/-! ## Candidates -/

/-- What holds of the shortest list and the others held of all lists. -/
theorem foldl_takeShorter (P : List Digest → Prop) (others : List (List Digest))
    (s : List Digest × List (List Digest)) :
    (P (others.foldl takeShorter s).1 ∧ ∀ l ∈ (others.foldl takeShorter s).2, P l) ↔
      (P s.1 ∧ ∀ l ∈ s.2, P l) ∧ ∀ l ∈ others, P l := by
  induction others generalizing s with
  | nil => simp
  | cons ids rest ih =>
    rw [List.foldl_cons, ih, takeShorter, List.forall_mem_cons]
    split <;> simp only [List.forall_mem_cons] <;> tauto

theorem mem_meet {all : List Digest} {lists : List (List Digest)} (hall : id ∈ all)
    (h : ∀ l ∈ lists, id ∈ l) : id ∈ meet all lists := by
  cases lists with
  | nil => exact hall
  | cons ids others =>
    rw [List.forall_mem_cons] at h
    have hmem := (foldl_takeShorter (id ∈ ·) others (ids, [])).2 ⟨⟨h.1, by simp⟩, h.2⟩
    rw [meet, List.mem_filter]
    exact ⟨hmem.1, List.all_eq_true.2 fun l hl => by simpa using hmem.2 l hl⟩

theorem of_mem_meet {all : List Digest} {lists : List (List Digest)} (h : id ∈ meet all lists) :
    (lists = [] → id ∈ all) ∧ ∀ l ∈ lists, id ∈ l := by
  cases lists with
  | nil => exact ⟨fun _ => h, by simp⟩
  | cons ids others =>
    rw [meet, List.mem_filter] at h
    have hall := (foldl_takeShorter (id ∈ ·) others (ids, [])).1
      ⟨h.1, fun l hl => by simpa using List.all_eq_true.1 h.2 l hl⟩
    exact ⟨nofun, List.forall_mem_cons.2 ⟨hall.1.1, hall.2⟩⟩

theorem nodup_meet {all : List Digest} {lists : List (List Digest)} (hall : all.Nodup)
    (h : ∀ l ∈ lists, l.Nodup) : (meet all lists).Nodup := by
  cases lists with
  | nil => exact hall
  | cons ids others =>
    rw [List.forall_mem_cons] at h
    exact (((foldl_takeShorter List.Nodup others (ids, [])).2 ⟨⟨h.1, by simp⟩, h.2⟩).1).filter _

/-- The bucket of a field that is asked for, or none for an open field. -/
def bucketOf {α : Type} (b : Buckets) (keyOf : α → Text) (asked : Option α) :
    Option (List (List Digest)) :=
  match asked with
  | none => some []
  | some a => (b.get? (keyOf a)).map ([·])

theorem nodup_bucketOf {α : Type} {b : Buckets} {R : Text → Digest → Prop} (h : b.Holds R)
    {keyOf : α → Text} {asked : Option α} {lists : List (List Digest)}
    (hlists : bucketOf b keyOf asked = some lists) : ∀ l ∈ lists, l.Nodup := by
  cases asked with
  | none => simp [← Option.some.inj hlists]
  | some a =>
    obtain ⟨ids, hids, rfl⟩ := Option.map_eq_some_iff.1 hlists
    simpa using (h.of_get? hids).1

/-- There is a bucket with the digest of a member that agrees with what is asked for. -/
theorem exists_bucketOf {α : Type} [BEq α] [LawfulBEq α] {b : Buckets} (keyOf : α → Text)
    (part : Fact → α) (h : b.Holds (Keyed A fun f => keyOf (part f))) (hf : f ∈ A)
    {asked : Option α} (hasked : Query.agrees asked (part f) = true) :
    ∃ lists, bucketOf b keyOf asked = some lists ∧ ∀ l ∈ lists, f.digest ∈ l := by
  cases asked with
  | none => exact ⟨[], rfl, by simp⟩
  | some a =>
    have ha : a = part f := by simpa [Query.agrees] using hasked
    have hkeyed : Keyed A (fun f => keyOf (part f)) (keyOf a) f.digest :=
      ⟨f, hf, by rw [ha], rfl⟩
    cases hids : b.get? (keyOf a) with
    | none => exact absurd hkeyed (h.of_get?_eq_none hids)
    | some ids =>
      have hmem : f.digest ∈ ids := ((h.of_get? hids).2 _).2 hkeyed
      exact ⟨[ids], by simp [bucketOf, hids], by simpa using hmem⟩

/-- A digest that is in the bucket of what is asked for belongs to a member with that key. -/
theorem of_mem_bucketOf {α : Type} {b : Buckets} (keyOf : α → Text) (part : Fact → α)
    (h : b.Holds (Keyed A fun f => keyOf (part f))) {asked : Option α} {lists : List (List Digest)}
    (hlists : bucketOf b keyOf asked = some lists) (hid : ∀ l ∈ lists, id ∈ l) :
    ∀ a ∈ asked, ∃ f ∈ A, keyOf (part f) = keyOf a ∧ f.digest = id := by
  rintro a rfl
  obtain ⟨ids, hids, rfl⟩ := Option.map_eq_some_iff.1 hlists
  exact ((h.of_get? hids).2 id).1 (hid ids (List.mem_singleton_self ids))

/-- The buckets of a query are those of its fields, unless a field has none. -/
theorem buckets?_eq_ok {q : Query} {r : Option (List (List Digest))} (h : x.buckets? q = .ok r) :
    r = (do
      let subject ← bucketOf x.bySubject Encoding.nodeBytes q.subject
      let predicate ← bucketOf x.byPredicate (fun p => p) q.predicate
      let object ← bucketOf x.byObject Encoding.valueBytes q.object
      return subject ++ predicate ++ object) := by
  obtain ⟨subject, predicate, object⟩ := q
  -- A field is open, or it has no bucket, or it has one.
  rcases subject with _ | n
  case' some => cases hs : x.bySubject.get? (Encoding.nodeBytes n)
  all_goals
    rcases predicate with _ | p
    case' some => cases hp : x.byPredicate.get? p
    all_goals
      rcases object with _ | v
      case' some => cases ho : x.byObject.get? (Encoding.valueBytes v)
      all_goals
        simp [buckets?, bucketOf, bind_eq_ok, Encoding.nodeKey_eq_ok, Encoding.valueKey_eq_ok,
          *] at h ⊢
        simp [h]

/-- The buckets of a query whose fields are within the limit can be looked up. -/
theorem exists_buckets? {q : Query} (hs : ∀ n ∈ q.subject, (Value.node n).WithinLimit)
    (ho : ∀ v ∈ q.object, v.WithinLimit) : ∃ r, x.buckets? q = .ok r := by
  obtain ⟨subject, predicate, object⟩ := q
  rcases subject with _ | n
  case' some => cases hs : x.bySubject.get? (Encoding.nodeBytes n)
  all_goals
    rcases predicate with _ | p
    case' some => cases hp : x.byPredicate.get? p
    all_goals
      rcases object with _ | v
      case' some => cases ho : x.byObject.get? (Encoding.valueBytes v)
      all_goals simp_all [buckets?, bind_eq_ok, Encoding.nodeKey_eq_ok, Encoding.valueKey_eq_ok]

theorem exists_candidates {q : Query} (hs : ∀ n ∈ q.subject, (Value.node n).WithinLimit)
    (ho : ∀ v ∈ q.object, v.WithinLimit) : ∃ ids, x.candidates q = .ok ids := by
  obtain ⟨r, hr⟩ := exists_buckets? hs ho
  rw [candidates, hr]
  cases r <;> exact ⟨_, rfl⟩

variable {q : Query} {ids : List Digest}

theorem Distinct.nodup_candidates (h : x.Distinct) (hids : x.candidates q = .ok ids) :
    ids.Nodup := by
  obtain ⟨nodup, ⟨_, hs⟩, ⟨_, hp⟩, ⟨_, ho⟩⟩ := h
  obtain ⟨r, hr, hids⟩ := bind_eq_ok.1 hids
  have hbuckets := buckets?_eq_ok hr
  cases r with
  | none => simp [← pure_eq_ok.1 hids]
  | some lists =>
    rw [← pure_eq_ok.1 hids]
    simp only [bind, eq_comm (a := some lists), Option.bind_eq_some_iff, pure,
      Option.some.injEq] at hbuckets
    obtain ⟨ls, hls, lp, hlp, lo, hlo, rfl⟩ := hbuckets
    refine nodup_meet nodup fun l hl => ?_
    rcases List.mem_append.1 hl with hl | hl
    · rcases List.mem_append.1 hl with hl | hl
      · exact nodup_bucketOf hs hls l hl
      · exact nodup_bucketOf hp hlp l hl
    · exact nodup_bucketOf ho hlo l hl

namespace Describes

/-- What is a candidate is in the index, and every field that is asked for leads to a member with
its digest. -/
theorem of_mem_candidates (h : x.Describes A) (hids : x.candidates q = .ok ids) (hid : id ∈ ids) :
    id ∈ x.ids ∧
      (∀ n ∈ q.subject, ∃ f ∈ A, Encoding.nodeBytes f.subject = Encoding.nodeBytes n ∧
        f.digest = id) ∧
      (∀ p ∈ q.predicate, ∃ f ∈ A, f.predicate = p ∧ f.digest = id) ∧
      ∀ v ∈ q.object, ∃ f ∈ A, Encoding.valueBytes f.object = Encoding.valueBytes v ∧
        f.digest = id := by
  obtain ⟨r, hr, hids⟩ := bind_eq_ok.1 hids
  have hbuckets := buckets?_eq_ok hr
  cases r with
  | none => simp [← pure_eq_ok.1 hids] at hid
  | some lists =>
    rw [← pure_eq_ok.1 hids] at hid
    simp only [bind, eq_comm (a := some lists), Option.bind_eq_some_iff, pure,
      Option.some.injEq] at hbuckets
    obtain ⟨ls, hls, lp, hlp, lo, hlo, rfl⟩ := hbuckets
    obtain ⟨hall, hlists⟩ := of_mem_meet hid
    simp only [List.mem_append, or_imp, forall_and] at hlists
    have hsubject := of_mem_bucketOf _ Fact.subject h.subjects hls hlists.1.1
    have hpredicate := of_mem_bucketOf (fun p => p) Fact.predicate h.predicates hlp hlists.1.2
    have hobject := of_mem_bucketOf _ Fact.object h.objects hlo hlists.2
    refine ⟨(h.ids id).2 ?_, hsubject, hpredicate, hobject⟩
    -- A field that is asked for leads to a member; without one, all digests are candidates.
    obtain ⟨subject, predicate, object⟩ := q
    rcases subject with _ | n
    · rcases predicate with _ | p
      · rcases object with _ | v
        · cases hls
          cases hlp
          cases hlo
          exact (h.ids id).1 (hall rfl)
        · obtain ⟨f, hf, -, hfid⟩ := hobject v rfl
          exact ⟨f, hf, hfid⟩
      · obtain ⟨f, hf, -, hfid⟩ := hpredicate p rfl
        exact ⟨f, hf, hfid⟩
    · obtain ⟨f, hf, -, hfid⟩ := hsubject n rfl
      exact ⟨f, hf, hfid⟩

/-- No member that a query accepts is missed. -/
theorem mem_candidates (h : x.Describes A) (hids : x.candidates q = .ok ids) (hf : f ∈ A)
    (hq : q.accepts f = true) : f.digest ∈ ids := by
  obtain ⟨r, hr, hids⟩ := bind_eq_ok.1 hids
  have hbuckets := buckets?_eq_ok hr
  simp only [Query.accepts, Bool.and_eq_true] at hq
  obtain ⟨⟨hsubject, hpredicate⟩, hobject⟩ := hq
  obtain ⟨ls, hls, hmems⟩ := exists_bucketOf _ Fact.subject h.subjects hf hsubject
  obtain ⟨lp, hlp, hmemp⟩ := exists_bucketOf (fun p => p) Fact.predicate h.predicates
    hf hpredicate
  obtain ⟨lo, hlo, hmemo⟩ := exists_bucketOf _ Fact.object h.objects hf hobject
  simp only [hls, hlp, hlo, bind, Option.bind_some, pure] at hbuckets
  subst hbuckets
  rw [← pure_eq_ok.1 hids]
  refine mem_meet ((h.ids _).2 ⟨f, hf, rfl⟩) fun l hl => ?_
  rcases List.mem_append.1 hl with hl | hl
  · exact (List.mem_append.1 hl).elim (hmems l) (hmemp l)
  · exact hmemo l hl

end Describes
end Index
end FactGraph
