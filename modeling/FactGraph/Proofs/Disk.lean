import Mathlib.Data.List.TakeWhile
import FactGraph.Disk
import FactGraph.Proofs.Outcome

/-!
# Files on disks

A file that is written where a path leads is found there by every later walk of the path
(`Disk.locate_write`), and the directories of a path that leads to a file need not be made any more
(`Disk.makeDirectories_of_locate`). Neither writing files nor making directories takes the place of
a directory, so that all directories stay where they are (`Disk.Grows`).
-/

namespace FactGraph

/-! ## Items -/

namespace Item

variable {root item new : Item} {p q : Place} {name other : Text} {entries : List (Text × Item)}

/-- Whether there is a directory below an item at the end of a row of names. -/
def HasDirectory (root : Item) (p : Place) : Prop :=
  ∃ entries, root.at? p = some (directory entries)

theorem hasDirectory_nil : root.HasDirectory [] ↔ ∃ entries, root = directory entries := by
  simp [HasDirectory, at?]

theorem hasDirectory_cons : (directory entries).HasDirectory (name :: p) ↔
    ∃ item, entries.lookup name = some item ∧ item.HasDirectory p := by
  simp only [HasDirectory, at?, Option.bind_eq_some_iff]
  constructor
  · rintro ⟨found, item, hitem, hfound⟩
    exact ⟨item, hitem, found, hfound⟩
  · rintro ⟨item, hitem, found, hfound⟩
    exact ⟨found, item, hitem, hfound⟩

/-- Names only lead on from a directory. -/
theorem HasDirectory.exists_entries (h : root.HasDirectory (name :: p)) :
    ∃ entries, root = directory entries := by
  obtain ⟨found, hfound⟩ := h
  cases root with
  | file bytes => cases hfound
  | directory entries => exact ⟨entries, rfl⟩

/-- What stands on the way to a directory is a directory. -/
theorem HasDirectory.of_append (h : root.HasDirectory (p ++ q)) : root.HasDirectory p := by
  induction p generalizing root with
  | nil =>
    cases q with
    | nil => exact h
    | cons name q => exact hasDirectory_nil.2 h.exists_entries
  | cons name p ih =>
    obtain ⟨entries, rfl⟩ := h.exists_entries
    obtain ⟨item, hitem, hrest⟩ := hasDirectory_cons.1 h
    exact hasDirectory_cons.2 ⟨item, hitem, ih hrest⟩

theorem HasDirectory.dropLast (h : root.HasDirectory p) : root.HasDirectory p.dropLast := by
  rw [← List.take_append_drop (p.length - 1) p, ← List.dropLast_eq_take] at h
  exact h.of_append

theorem lookup_filter_of_ne (h : other ≠ name) :
    (entries.filter fun e => e.1 != name).lookup other = entries.lookup other := by
  induction entries with
  | nil => rfl
  | cons e entries ih =>
    rw [List.filter_cons]
    split
    · rw [List.lookup_cons, List.lookup_cons, ih]
    · next hname =>
      have hother : (other == e.1) = false := by simp_all
      rw [ih, List.lookup_cons, hother]

theorem lookup_put :
    ((name, item) :: entries.filter fun e => e.1 != name).lookup other =
      if other = name then some item else entries.lookup other := by
  rw [List.lookup_cons]
  split
  · next h => rw [if_pos (beq_iff_eq.1 h)]
  · next h =>
    have hother : other ≠ name := fun heq => by simp [heq] at h
    rw [if_neg hother, lookup_filter_of_ne hother]

/-- What is put into a directory stands there. -/
theorem at?_put (h : root.HasDirectory p) :
    (put new (p ++ [name]) root).at? (p ++ [name]) = some new := by
  induction p generalizing root with
  | nil =>
    obtain ⟨entries, rfl⟩ := hasDirectory_nil.1 h
    simp [put, at?]
  | cons step p ih =>
    obtain ⟨entries, rfl⟩ := h.exists_entries
    obtain ⟨item, hitem, hrest⟩ := hasDirectory_cons.1 h
    rw [List.cons_append, put, at?, lookup_put, if_pos rfl, hitem]
    exact ih hrest

/-- What is put where there is no directory leaves the directories where they are. -/
theorem HasDirectory.put (hq : root.HasDirectory q) (hp : ¬ root.HasDirectory p) :
    (put new p root).HasDirectory q := by
  induction q generalizing root p with
  | nil =>
    obtain ⟨entries, rfl⟩ := hasDirectory_nil.1 hq
    cases p with
    | nil => exact absurd hq hp
    | cons step p => exact hasDirectory_nil.2 ⟨_, rfl⟩
  | cons name q ih =>
    obtain ⟨entries, rfl⟩ := hq.exists_entries
    obtain ⟨item, hitem, hrest⟩ := hasDirectory_cons.1 hq
    cases p with
    | nil => exact absurd (hasDirectory_nil.2 ⟨entries, rfl⟩) hp
    | cons step p =>
      rw [Item.put, hasDirectory_cons, lookup_put]
      by_cases hname : name = step
      · subst hname
        have hstep : ¬ item.HasDirectory p := fun h => hp (hasDirectory_cons.2 ⟨item, hitem, h⟩)
        exact ⟨_, if_pos rfl, by simpa [hitem] using ih hrest hstep⟩
      · exact ⟨item, by rw [if_neg hname, hitem], hrest⟩

end Item

namespace Disk

variable {d d' d'' : Disk} {place p q : Place} {location : Location} {path bytes new : Text}

/-- Whether there is a directory at a place. -/
def HasDirectory (d : Disk) (p : Place) : Prop := d.root.HasDirectory p

theorem hasDirectory_iff : d.HasDirectory p ↔ ∃ entries, d.item? p = some (.directory entries) :=
  Iff.rfl

theorem not_hasDirectory_of_none (h : d.item? p = none) : ¬ d.HasDirectory p := by
  rintro ⟨entries, hentries⟩
  cases h.symm.trans hentries

theorem not_hasDirectory_of_file (h : d.item? p = some (.file bytes)) : ¬ d.HasDirectory p := by
  rintro ⟨entries, hentries⟩
  cases h.symm.trans hentries

instance (d : Disk) (p : Place) : Decidable (d.HasDirectory p) :=
  match h : d.item? p with
  | some (.directory entries) => isTrue ⟨entries, h⟩
  | some (.file _) => isFalse (not_hasDirectory_of_file h)
  | none => isFalse (not_hasDirectory_of_none h)

/-! ## Disks with more directories -/

/-- Whether a disk still has the directories of another one, and the program runs in the same
directory of both. -/
structure Grows (d d' : Disk) : Prop where
  /-- The program runs in the same directory. -/
  here : d'.here = d.here
  /-- Directories stay where they are. -/
  directories : ∀ p, d.HasDirectory p → d'.HasDirectory p

theorem Grows.refl (d : Disk) : d.Grows d := ⟨rfl, fun _ h => h⟩

theorem Grows.trans (h : d.Grows d') (h' : d'.Grows d'') : d.Grows d'' :=
  ⟨h'.here.trans h.here, fun p hp => h'.directories p (h.directories p hp)⟩

theorem Grows.hasDirectory_here (h : d.Grows d') (hd : d.HasDirectory d.here) :
    d'.HasDirectory d'.here := by
  rw [h.here]
  exact h.directories _ hd

theorem grows_put (hp : ¬ d.HasDirectory p) (item : Item) : d.Grows (d.put p item) :=
  ⟨rfl, fun _ hq => Item.HasDirectory.put hq hp⟩

theorem grows_makeWalk (d : Disk) (place : Place) (names : List Text) :
    d.Grows (d.makeWalk place names).1 := by
  induction names generalizing d place with
  | nil => exact Grows.refl d
  | cons name rest ih =>
    rw [makeWalk]
    split_ifs
    · exact ih d place
    · exact ih d place.dropLast
    · exact Grows.refl d
    · dsimp only
      split
      · exact ih d _
      · exact Grows.refl d
      · next hnone => exact (grows_put (not_hasDirectory_of_none hnone) _).trans (ih _ _)

theorem grows_makeFrom (d : Disk) (place : Place) (names : List Text) :
    d.Grows (d.makeFrom place names).1 := by
  rw [makeFrom]
  split_ifs
  · exact Grows.refl d
  · exact grows_makeWalk d place names

theorem grows_makeBehind (d : Disk) (closed : Bool) (place : Place) (names : List Text) :
    d.Grows (d.makeBehind closed place names).1 := by
  induction names generalizing place with
  | nil => exact Grows.refl d
  | cons name rest ih =>
    rw [makeBehind.eq_def]
    dsimp only
    split
    · exact ih place
    split
    · exact ih place.dropLast
    split
    · exact Grows.refl d
    split
    · exact ih _
    · split
      · exact grows_makeFrom d place _
      · exact Grows.refl d
    · exact Grows.refl d
    · exact grows_makeFrom d place _

theorem grows_makeDirectories (d : Disk) (path : Text) : d.Grows (d.makeDirectories path).1 := by
  rw [makeDirectories]
  split_ifs
  · exact Grows.refl d
  · exact grows_makeBehind d _ _ _

/-! ## Walks to files -/

/-- A walk from a directory to a file, or to where one can be made, ends in a directory. -/
theorem exists_parent_of_walk {names : List Text} (hplace : d.HasDirectory place)
    (hwalk : d.walk place names = (location, p)) (hfile : location.fileBytes = .ok bytes) :
    ¬ d.HasDirectory p ∧ ∃ parent name, p = parent ++ [name] ∧ d.HasDirectory parent := by
  induction names generalizing place with
  | nil =>
    cases hwalk
    cases hfile
  | cons name rest ih =>
    rw [walk] at hwalk
    split_ifs at hwalk
    · exact ih hplace hwalk
    · exact ih hplace.dropLast hwalk
    · cases hwalk
      cases hfile
    · dsimp only at hwalk
      split at hwalk
      · next hitem => exact ih ⟨_, hitem⟩ hwalk
      · next hitem =>
        cases hwalk
        exact ⟨not_hasDirectory_of_file hitem, place, name, rfl, hplace⟩
      · cases hwalk
        cases hfile
      · next hitem =>
        cases hwalk
        exact ⟨not_hasDirectory_of_none hitem, place, name, rfl, hplace⟩
      · cases hwalk
        cases hfile

/-- The walk to a file that is written at its end finds this file. -/
theorem walk_put {names : List Text} (hplace : d.HasDirectory place)
    (hwalk : d.walk place names = (location, p)) (hfile : location.fileBytes = .ok bytes) :
    (d.put p (.file new)).walk place names = (.file new, p) := by
  obtain ⟨hp, parent, last, rfl, hparent⟩ := exists_parent_of_walk hplace hwalk hfile
  have hput : (d.put (parent ++ [last]) (.file new)).item? (parent ++ [last]) =
      some (.file new) := Item.at?_put hparent
  have hgrows := grows_put hp (.file new)
  induction names generalizing place with
  | nil =>
    cases hwalk
    cases hfile
  | cons name rest ih =>
    rw [walk] at hwalk ⊢
    split_ifs at hwalk ⊢
    · exact ih hplace hwalk
    · exact ih hplace.dropLast hwalk
    · cases hwalk
      cases hfile
    · dsimp only at hwalk ⊢
      split at hwalk
      · next hitem =>
        obtain ⟨entries, hentries⟩ := hasDirectory_iff.1 (hgrows.directories _ ⟨_, hitem⟩)
        rw [hentries]
        exact ih ⟨_, hitem⟩ hwalk
      · rw [(Prod.mk.inj hwalk).2, hput]
      · rw [← (Prod.mk.inj hwalk).1] at hfile
        cases hfile
      · rw [(Prod.mk.inj hwalk).2, hput]
      · rw [← (Prod.mk.inj hwalk).1] at hfile
        cases hfile

theorem hasDirectory_origin (hd : d.HasDirectory d.here) (path : Text) :
    d.HasDirectory (d.origin path) := by
  rw [origin]
  split_ifs
  · exact Item.HasDirectory.of_append (p := []) hd
  · exact hd

/-! ## Paths of files -/

/-- A path that leads to a file, or to where one can be made, is walked to its last name. -/
theorem follow_of_locate (h : (d.locate path).fileBytes = .ok bytes) :
    ∃ p, d.follow path = (d.locate path, p) ∧ d.walk (d.origin path) (names path) =
      (d.locate path, p) ∧ isClosed path = false ∧ path.length ≤ pathLimit := by
  have hfollow : ∃ p, d.follow path = (d.locate path, p) ∧ isClosed path = false := by
    rw [locate] at h ⊢
    rcases hf : d.follow path with ⟨location, p⟩
    rw [hf] at h
    cases location <;> cases hclosed : isClosed path <;> simp_all [Location.fileBytes]
  obtain ⟨p, hp, hclosed⟩ := hfollow
  refine ⟨p, hp, ?_⟩
  rw [follow] at hp
  split_ifs at hp with hempty hlong
  · rw [← (Prod.mk.inj hp).1] at h
    cases h
  · rw [← (Prod.mk.inj hp).1] at h
    cases h
  · exact ⟨hp, hclosed, Nat.le_of_not_lt hlong⟩

theorem write_of_locate (h : (d.locate path).fileBytes = .ok bytes)
    (hfollow : d.follow path = (d.locate path, p)) (new : Text) :
    d.write path new = d.put p (.file new) := by
  rw [write, hfollow]
  cases hlocate : d.locate path <;> rw [hlocate] at h <;> first | rfl | cases h

/-- A file that is written at a path is found there. -/
theorem locate_write (hd : d.HasDirectory d.here) (h : (d.locate path).fileBytes = .ok bytes)
    (new : Text) : (d.write path new).locate path = .file new := by
  obtain ⟨p, hfollow, hwalk, hclosed, hlong⟩ := follow_of_locate h
  have hnonempty : path.isEmpty = false := by
    cases path with
    | nil => cases h
    | cons c path => rfl
  have hput : (d.put p (.file new)).follow path = (.file new, p) := by
    rw [follow, hnonempty, if_neg Bool.false_ne_true, if_neg (Nat.not_lt.2 hlong)]
    exact walk_put (hasDirectory_origin hd path) hwalk h
  rw [write_of_locate h hfollow, locate, hput]
  simp [hclosed]

theorem grows_write (hd : d.HasDirectory d.here) (h : (d.locate path).fileBytes = .ok bytes)
    (new : Text) : d.Grows (d.write path new) := by
  obtain ⟨p, hfollow, hwalk, -⟩ := follow_of_locate h
  rw [write_of_locate h hfollow]
  exact grows_put (exists_parent_of_walk (hasDirectory_origin hd path) hwalk h).1 _

/-! ## Directories of files -/

theorem splitAt_ne_nil (separator : UInt8) (t : Text) : Text.splitAt separator t ≠ [] := by
  cases t with
  | nil => exact List.cons_ne_nil _ _
  | cons c t =>
    rw [Text.splitAt, List.foldr_cons]
    split
    · exact List.cons_ne_nil _ _
    · split <;> exact List.cons_ne_nil _ _

theorem splitAt_append (separator : UInt8) (s t : Text) :
    Text.splitAt separator (s ++ separator :: t) =
      Text.splitAt separator s ++ Text.splitAt separator t := by
  induction s with
  | nil => simp [Text.splitAt]
  | cons c s ih =>
    have hs := splitAt_ne_nil separator s
    simp only [Text.splitAt, List.cons_append, List.foldr_cons] at ih hs ⊢
    rw [ih]
    split
    · rfl
    · cases hparts : List.foldr _ [[]] s with
      | nil => exact absurd hparts hs
      | cons part parts => rfl

theorem splitAt_of_not_mem {separator : UInt8} {t : Text} (h : separator ∉ t) :
    Text.splitAt separator t = [t] := by
  induction t with
  | nil => rfl
  | cons c t ih =>
    obtain ⟨hc, ht⟩ := not_or.1 (mt List.mem_cons.2 h)
    have hne : (c == separator) = false := beq_eq_false_iff_ne.2 (Ne.symm hc)
    have ih := ih ht
    simp only [Text.splitAt, List.foldr_cons] at ih ⊢
    rw [ih, hne]
    rfl

/-- A path with a directory is the path of the directory and a name behind a slash. -/
theorem exists_name_of_directoryOf? {directory : Text} (h : directoryOf? path = some directory) :
    ∃ name, path = directory ++ slash :: name ∧ slash ∉ name ∧ directory ≠ [] := by
  have hpath := List.takeWhile_append_dropWhile (p := (· != slash)) (l := path.reverse)
  have hfirst : ∀ c ∈ (path.reverse.dropWhile (· != slash)).head?, c = slash := fun c hc => by
    have := List.head?_dropWhile_not (· != slash) path.reverse
    rw [Option.mem_def.1 hc] at this
    simpa using this
  rw [directoryOf?] at h
  split at h
  · cases h
  · cases h
  · next first before hne hbehind =>
    cases h
    rw [hbehind] at hpath hfirst
    cases hfirst first rfl
    refine ⟨(path.reverse.takeWhile (· != slash)).reverse, ?_, ?_, ?_⟩
    · conv_lhs => rw [← List.reverse_reverse path, ← hpath]
      simp
    · rw [List.mem_reverse]
      intro hmem
      simpa using List.mem_takeWhile_imp hmem
    · exact fun hnil => hne (List.reverse_eq_nil_iff.1 hnil)

theorem names_append {directory name : Text} (hname : slash ∉ name) (hne : name ≠ []) :
    names (directory ++ slash :: name) = names directory ++ [name] := by
  have hfilter : ([name].filter fun n => !n.isEmpty) = [name] := by simp [hne]
  rw [names, splitAt_append, List.filter_append, splitAt_of_not_mem hname, hfilter, names]

/-- Directories on the way to a file need not be made. -/
theorem makeBehind_of_walk {names : List Text} {name : Text} (closed : Bool)
    (hwalk : d.walk place (names ++ [name]) = (location, p))
    (hfile : location.fileBytes = .ok bytes) : d.makeBehind closed place names = (d, none) := by
  induction names generalizing place with
  | nil => rfl
  | cons step rest ih =>
    rw [List.cons_append, walk] at hwalk
    rw [makeBehind.eq_def]
    dsimp only at hwalk ⊢
    split
    · next hpoint =>
      rw [if_pos hpoint] at hwalk
      exact ih hwalk
    next hpoint =>
    rw [if_neg hpoint] at hwalk
    split
    · next hpoints =>
      rw [if_pos hpoints] at hwalk
      exact ih hwalk
    next hpoints =>
    rw [if_neg hpoints] at hwalk
    split
    · next hlong =>
      rw [if_pos hlong] at hwalk
      cases hwalk
      cases hfile
    next hlong =>
    rw [if_neg hlong] at hwalk
    split at hwalk
    · next hitem =>
      rw [hitem]
      exact ih hwalk
    · next hrest => exact absurd hrest (by simp)
    · cases hwalk
      cases hfile
    · next hrest => exact absurd hrest (by simp)
    · cases hwalk
      cases hfile

/-- The directory of a path that leads to a file, or to where one can be made, need not be made. -/
theorem makeDirectories_of_locate {directory : Text} (h : (d.locate path).fileBytes = .ok bytes)
    (hdirectory : directoryOf? path = some directory) :
    d.makeDirectories directory = (d, none) := by
  obtain ⟨p, -, hwalk, hclosed, hlong⟩ := follow_of_locate h
  obtain ⟨name, rfl, hname, hne⟩ := exists_name_of_directoryOf? hdirectory
  have hlast : name ≠ [] := by
    rintro rfl
    simp [isClosed] at hclosed
  have horigin : d.origin (directory ++ slash :: name) = d.origin directory := by
    rw [origin, origin, List.head?_append_of_ne_nil _ hne]
  have hshort : directory.length ≤ pathLimit := by
    rw [List.length_append] at hlong
    omega
  rw [horigin, names_append hname hlast] at hwalk
  rw [makeDirectories, if_neg (Nat.not_lt.2 hshort)]
  exact makeBehind_of_walk _ hwalk h

end Disk
end FactGraph
