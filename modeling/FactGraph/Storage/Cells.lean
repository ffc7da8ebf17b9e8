import FactGraph.Digest.Grouping

/-!
# Cells

Cells hold texts by digest: every digest has at most one cell. A new text for a digest that has a
cell either takes the place of the text before it (`put`) or comes in a new cell in front of all
others (`renew`), so that the cells are listed by age.
-/

namespace FactGraph

/-- Texts by digest: the digests with their texts, in groups. -/
structure Cells extends Grouping (Digest × Text) where
  /-- No digest occurs twice. -/
  nodup_ids : (items.map Prod.fst).Nodup
deriving DecidableEq

namespace Cells

/-- No cells. -/
def empty : Cells := ⟨{}, List.Pairwise.nil⟩

/-- The text of a digest. -/
def get? (c : Cells) (id : Digest) : Option Text := c.items.lookup id

/-- Whether a digest has a cell. -/
def has (c : Cells) (id : Digest) : Bool := (c.get? id).isSome

/-- The number of cells. -/
def size (c : Cells) : Nat := c.items.length

/-- The texts of all cells. -/
def texts (c : Cells) : List Text := c.items.map Prod.snd

/-- Gives a text to a digest that has a cell. -/
def replaceItem (id : Digest) (t : Text) (e : Digest × Text) : Digest × Text :=
  if e.1 == id then (id, t) else e

theorem fst_replaceItem (id : Digest) (t : Text) (e : Digest × Text) :
    (replaceItem id t e).1 = e.1 := by
  rw [replaceItem]
  split
  · next h => exact (beq_iff_eq.1 h).symm
  · rfl

theorem ids_map_replaceItem (id : Digest) (t : Text) (items : List (Digest × Text)) :
    (items.map (replaceItem id t)).map Prod.fst = items.map Prod.fst := by
  simp [List.map_map, Function.comp_def, fst_replaceItem]

theorem isSome_lookup_of_mem {id : Digest} {items : List (Digest × Text)}
    (h : id ∈ items.map Prod.fst) : (items.lookup id).isSome := by
  induction items with
  | nil => nomatch h
  | cons e items ih =>
    obtain ⟨other, t⟩ := e
    rw [List.lookup_cons]
    split
    · rfl
    · next hne =>
      rcases List.mem_cons.1 h with rfl | h
      · simp at hne
      · exact ih h

theorem nodup_ids_cons {id : Digest} {t : Text} {items : List (Digest × Text)}
    (nodup : (items.map Prod.fst).Nodup) (new : id ∉ items.map Prod.fst) :
    (((id, t) :: items).map Prod.fst).Nodup :=
  List.nodup_cons.2 ⟨new, nodup⟩

/-- Gives a text to a digest, in the place of the one that it has, or in a new cell in front of the
cells of its group. -/
def put (c : Cells) (id : Digest) (t : Text) : Cells :=
  if h : c.has id then
    { c with
      items := c.items.map (replaceItem id t)
      nodup_ids := (ids_map_replaceItem id t c.items).symm ▸ c.nodup_ids }
  else
    { toGrouping := c.toGrouping.insert Prod.fst (id, t)
      nodup_ids := (((Grouping.insert_perm ..).map Prod.fst).nodup_iff).2
        (nodup_ids_cons c.nodup_ids fun hm => h (isSome_lookup_of_mem hm)) }

/-- Takes away the cell of a digest. -/
def erase (c : Cells) (id : Digest) : Cells :=
  { toGrouping := c.toGrouping.filter fun e => e.1 != id
    nodup_ids := c.nodup_ids.sublist (List.filter_sublist.map _) }

theorem not_mem_erase (c : Cells) (id : Digest) : id ∉ (c.erase id).items.map Prod.fst := by
  simp [erase, Grouping.filter]

/-- Gives a text to a digest in a new cell in front of all others, and takes away the cell that it
had. -/
def renew (c : Cells) (id : Digest) (t : Text) : Cells :=
  let others := c.erase id
  { others with
    items := (id, t) :: others.items
    nodup_ids := nodup_ids_cons others.nodup_ids (c.not_mem_erase id) }

end Cells
end FactGraph
