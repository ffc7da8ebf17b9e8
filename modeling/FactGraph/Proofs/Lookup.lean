import Mathlib.Data.List.Nodup

/-!
# Looking up in lists of pairs

Cells, buckets, bindings and derived facts are lists of pairs that are read by `List.lookup`. With
different keys, looking up a key and having it in a pair are the same.
-/

namespace FactGraph

variable {α β : Type} [BEq α] [LawfulBEq α] {l : List (α × β)} {k : α} {x : β}

theorem mem_of_lookup (h : l.lookup k = some x) : (k, x) ∈ l := by
  obtain ⟨l₁, l₂, rfl, -⟩ := List.lookup_eq_some_iff.1 h
  simp

theorem lookup_eq_none_iff_not_mem : l.lookup k = none ↔ k ∉ l.map Prod.fst := by
  rw [List.lookup_eq_none_iff, List.mem_map]
  constructor
  · rintro h ⟨p, hp, rfl⟩
    simpa using h p hp
  · intro h p hp
    rw [bne_iff_ne]
    rintro rfl
    exact h ⟨p, hp, rfl⟩

theorem lookup_of_mem (nodup : (l.map Prod.fst).Nodup) (h : (k, x) ∈ l) : l.lookup k = some x := by
  cases hl : l.lookup k with
  | none => exact absurd (List.mem_map_of_mem h) (lookup_eq_none_iff_not_mem.1 hl)
  | some y =>
    have heq := List.inj_on_of_nodup_map nodup h (mem_of_lookup hl) rfl
    rw [Prod.mk.injEq] at heq
    rw [heq.2]

theorem lookup_eq_some_iff_mem (nodup : (l.map Prod.fst).Nodup) :
    l.lookup k = some x ↔ (k, x) ∈ l :=
  ⟨mem_of_lookup, lookup_of_mem nodup⟩

end FactGraph
