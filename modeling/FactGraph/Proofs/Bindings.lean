import FactGraph.Proofs.Consequence
import FactGraph.Proofs.Lookup
import FactGraph.Search.Bindings

/-!
# Bindings and the valuations that they admit

Bindings stand for the valuations that give their values to variables and equal values to variables
that are identified. Unifying keeps those valuations that satisfy the new equation as well: it
succeeds as long as there is such a valuation (`unify?_isSome`), and afterwards the bindings admit
exactly these (`admits_unify?`). As a wildcard equals everything, an equation with one says nothing.

The references between variables form a forest: every reference was added between two roots, so it
leads from a variable that had none to one that has none, and no circle can arise.
-/

namespace FactGraph.Bindings

/-- Whether bindings admit a valuation. -/
structure Admits (b : Bindings) (σ : Valuation) : Prop where
  /-- Variables have their values. -/
  values : ∀ e ∈ b.values, σ e.1 = e.2
  /-- Variables that are identified have equal values. -/
  aliases : ∀ e ∈ b.aliases, σ e.1 = σ e.2

/-- References each of which was added between two different roots, the latest first. -/
def Forest : List (Text × Text) → Prop
  | [] => True
  | (v, w) :: rest =>
    v ≠ w ∧ v ∉ rest.map Prod.fst ∧ w ∉ rest.map Prod.fst ∧ Forest rest

/-- Bindings in which only roots have values, each at most one. -/
structure WellFormed (b : Bindings) : Prop where
  /-- References make no circles. -/
  forest : Forest b.aliases
  /-- No variable has two values. -/
  nodup : (b.values.map Prod.fst).Nodup
  /-- Variables with a value refer to no other variable. -/
  roots : ∀ e ∈ b.values, e.1 ∉ b.aliases.map Prod.fst

/-! ## Roots -/

/-- The root of a variable, found by going through the references from the oldest to the latest. -/
def rootIn : List (Text × Text) → Text → Text
  | [], v => v
  | (r, s) :: rest, v => if rootIn rest v = r then s else rootIn rest v

variable {aliases : List (Text × Text)} {v w : Text}

theorem rootIn_not_mem (h : Forest aliases) (v : Text) :
    rootIn aliases v ∉ aliases.map Prod.fst := by
  induction aliases with
  | nil => simp
  | cons e rest ih =>
    obtain ⟨r, s⟩ := e
    obtain ⟨hne, hr, hs, hrest⟩ := h
    rw [rootIn, List.map_cons, List.mem_cons]
    split
    · exact fun h => h.elim (fun e => hne e.symm) hs
    · next hroot => exact fun h => h.elim hroot (ih hrest)

theorem rootIn_of_not_mem (h : v ∉ aliases.map Prod.fst) : rootIn aliases v = v := by
  induction aliases with
  | nil => rfl
  | cons e rest ih =>
    rw [List.map_cons, List.mem_cons, not_or] at h
    rw [rootIn, ih h.2, if_neg h.1]

/-- Variables that are identified have one root. -/
theorem rootIn_of_mem (h : Forest aliases) {e : Text × Text} (he : e ∈ aliases) :
    rootIn aliases e.1 = rootIn aliases e.2 := by
  induction aliases with
  | nil => cases he
  | cons e' rest ih =>
    obtain ⟨hne, hr, hs, hrest⟩ := h
    rcases List.mem_cons.1 he with rfl | he
    · rw [rootIn, rootIn, rootIn_of_not_mem hr, rootIn_of_not_mem hs, if_pos rfl,
        if_neg hne.symm]
    · rw [rootIn, rootIn, ih hrest he]

/-- A root refers to no other variable. -/
theorem follow_of_not_mem (h : v ∉ aliases.map Prod.fst) (count : Nat) :
    follow aliases count v = v := by
  cases count with
  | zero => rfl
  | succ count => rw [follow, lookup_eq_none_iff_not_mem.2 h]

/-- With one more reference between roots, a way goes on by one step if it ended where the new
reference begins. -/
theorem follow_cons {r s : Text} {rest : List (Text × Text)} (h : Forest ((r, s) :: rest))
    (count : Nat) (v : Text) (hroot : follow rest count v ∉ rest.map Prod.fst) :
    follow ((r, s) :: rest) (count + 1) v =
      if follow rest count v = r then s else follow rest count v := by
  obtain ⟨hne, hr, hs, -⟩ := h
  have hs' : s ∉ ((r, s) :: rest).map Prod.fst := by simp [hne.symm, hs]
  induction count generalizing v with
  | zero =>
    have hzero : follow rest 0 v = v := rfl
    rw [hzero] at hroot ⊢
    rw [follow, List.lookup_cons]
    by_cases hv : v = r
    · simp [hv, follow]
    · rw [show (v == r) = false from beq_eq_false_iff_ne.2 hv, if_neg hv]
      simp [lookup_eq_none_iff_not_mem.2 hroot]
  | succ count ih =>
    rw [follow, List.lookup_cons]
    by_cases hv : v = r
    · rw [hv, follow_of_not_mem hr]
      simp [follow_of_not_mem hs']
    · rw [follow] at hroot ⊢
      rw [show (v == r) = false from beq_eq_false_iff_ne.2 hv]
      cases hl : rest.lookup v with
      | none => simp [hv]
      | some w =>
        rw [hl] at hroot
        exact ih w hroot

theorem follow_eq_rootIn (h : Forest aliases) (v : Text) :
    follow aliases aliases.length v = rootIn aliases v := by
  induction aliases with
  | nil => rfl
  | cons e rest ih =>
    obtain ⟨r, s⟩ := e
    have ih := ih h.2.2.2
    have hroot := rootIn_not_mem h.2.2.2 v
    rw [List.length_cons, follow_cons h, ih, rootIn]
    rw [ih]
    exact hroot

variable {b b' : Bindings} {σ : Valuation}

theorem root_eq_rootIn (hb : b.WellFormed) (v : Text) : b.root v = rootIn b.aliases v :=
  follow_eq_rootIn hb.forest v

theorem root_not_mem (hb : b.WellFormed) (v : Text) : b.root v ∉ b.aliases.map Prod.fst := by
  rw [root_eq_rootIn hb]
  exact rootIn_not_mem hb.forest v

theorem root_root (hb : b.WellFormed) (v : Text) : b.root (b.root v) = b.root v :=
  follow_of_not_mem (root_not_mem hb v) _

/-- A variable has the value of its root. -/
theorem Admits.root (h : b.Admits σ) (hb : b.WellFormed) (v : Text) : σ (b.root v) = σ v := by
  rw [root_eq_rootIn hb]
  have haliases := h.aliases
  generalize b.aliases = aliases at haliases
  induction aliases with
  | nil => rfl
  | cons e rest ih =>
    obtain ⟨r, s⟩ := e
    have ih := ih fun e he => haliases e (List.mem_cons_of_mem _ he)
    rw [rootIn]
    split
    · next hr =>
      rw [← ih, hr]
      exact (haliases (r, s) (List.mem_cons_self ..)).symm
    · exact ih

/-! ## What a term is under bindings -/

/-- A term and what it is under bindings stand for the same values. -/
theorem Admits.standsFor_resolve (h : b.Admits σ) (hb : b.WellFormed) (t : Term) (x : Value) :
    (b.resolve t).StandsFor σ x ↔ t.StandsFor σ x := by
  cases t with
  | any => rfl
  | constant c => rfl
  | var v =>
    rw [resolve]
    cases hl : b.values.lookup (b.root v) with
    | none => simp only [Term.StandsFor, h.root hb]
    | some y =>
      have : σ v = y := (h.root hb v).symm.trans (h.values _ (mem_of_lookup hl))
      simp only [Term.StandsFor, this]

/-- Bindings admit a valuation that gives any values to variables without a value. -/
theorem WellFormed.exists_admits (hb : b.WellFormed) (ρ : Valuation) :
    ∃ σ, b.Admits σ ∧ ∀ v, b.values.lookup (b.root v) = none → σ v = ρ (b.root v) := by
  refine ⟨fun v => (b.values.lookup (b.root v)).getD (ρ (b.root v)), ⟨?_, ?_⟩, ?_⟩
  · intro e he
    have hroot : b.root e.1 = e.1 := follow_of_not_mem (hb.roots e he) _
    simp only [hroot, lookup_of_mem hb.nodup he, Option.getD_some]
  · intro e he
    have hroot : b.root e.1 = b.root e.2 := by
      rw [root_eq_rootIn hb, root_eq_rootIn hb]
      exact rootIn_of_mem hb.forest he
    simp only [hroot]
  · intro v hv
    simp only [hv, Option.getD_none]

instance : Nontrivial Value := ⟨.boolean true, .boolean false, by simp⟩

/-- A variable that has one value under all valuations that bindings admit is known to have it. -/
theorem WellFormed.resolve_of_fixed (hb : b.WellFormed) {x : Value}
    (h : ∀ σ, b.Admits σ → σ v = x) : b.resolve (.var v) = .constant x := by
  rw [resolve]
  cases hl : b.values.lookup (b.root v) with
  | some y =>
    obtain ⟨σ, hσ, -⟩ := hb.exists_admits fun _ => x
    have hy : σ (b.root v) = y := hσ.values _ (mem_of_lookup hl)
    rw [← hy, hσ.root hb, h σ hσ]
  | none =>
    -- Any value would do for a variable without one, so there is a valuation with another one.
    obtain ⟨other, hne⟩ := exists_ne x
    obtain ⟨σ, hσ, hρ⟩ := hb.exists_admits fun _ => other
    exact absurd ((hρ v hl).symm.trans (h σ hσ)) hne

/-! ## Giving values -/

variable {x : Value}

theorem WellFormed.bind (hb : b.WellFormed) (h : b.bind v x = some b') : b'.WellFormed := by
  rw [Bindings.bind] at h
  split at h
  · next hl =>
    cases h
    refine ⟨hb.forest, List.nodup_cons.2 ⟨lookup_eq_none_iff_not_mem.1 hl, hb.nodup⟩, ?_⟩
    intro e he
    rcases List.mem_cons.1 he with rfl | he
    · exact root_not_mem hb v
    · exact hb.roots e he
  · split at h
    · exact Option.some.inj h ▸ hb
    · cases h

theorem admits_bind (hb : b.WellFormed) (h : b.bind v x = some b') :
    b'.Admits σ ↔ b.Admits σ ∧ σ v = x := by
  rw [Bindings.bind] at h
  split at h
  · cases h
    constructor
    · intro hσ
      have hbσ : b.Admits σ := ⟨fun e he => hσ.values e (List.mem_cons_of_mem _ he), hσ.aliases⟩
      have hv : σ (b.root v) = x := hσ.values _ (List.mem_cons_self ..)
      exact ⟨hbσ, (hbσ.root hb v).symm.trans hv⟩
    · rintro ⟨hσ, hv⟩
      refine ⟨fun e he => ?_, hσ.aliases⟩
      rcases List.mem_cons.1 he with rfl | he
      · exact (hσ.root hb v).trans hv
      · exact hσ.values e he
  · next y hl =>
    split at h
    · next hy =>
      have hy : y = x := beq_iff_eq.1 hy
      cases h
      refine ⟨fun hσ => ⟨hσ, ?_⟩, fun hσ => hσ.1⟩
      rw [← hσ.root hb, ← hy]
      exact hσ.values _ (mem_of_lookup hl)
    · cases h

theorem bind_isSome (hb : b.WellFormed) (hσ : b.Admits σ) (hv : σ v = x) :
    (b.bind v x).isSome := by
  rw [Bindings.bind]
  split
  · rfl
  · next y hl =>
    have hy : y = x := by
      rw [← hv, ← hσ.root hb]
      exact (hσ.values _ (mem_of_lookup hl)).symm
    simp [hy]

/-! ## Identifying variables -/

/-- A reference from a root to another root. -/
theorem forest_cons (hb : b.WellFormed) {r s : Text} (hr : b.root r = r) (hs : b.root s = s)
    (hne : r ≠ s) : Forest ((r, s) :: b.aliases) :=
  ⟨hne, hr ▸ root_not_mem hb r, hs ▸ root_not_mem hb s, hb.forest⟩

theorem WellFormed.join (hb : b.WellFormed) (h : b.join v w = some b') : b'.WellFormed := by
  rw [Bindings.join] at h
  split at h
  · exact Option.some.inj h ▸ hb
  · next hne =>
    have hne : b.root v ≠ b.root w := fun e => hne (beq_iff_eq.2 e)
    have hforest := forest_cons hb (root_root hb v) (root_root hb w) hne
    split at h
    · split at h
      · exact Option.some.inj h ▸ hb
      · cases h
    · next hv hw =>
      cases h
      refine ⟨hforest, ?_, ?_⟩
      · refine List.nodup_cons.2 ⟨fun hm => ?_, hb.nodup.sublist (List.filter_sublist.map _)⟩
        exact lookup_eq_none_iff_not_mem.1 hw (List.map_subset _ (List.filter_sublist.subset) hm)
      · intro e he
        rw [List.map_cons, List.mem_cons, not_or]
        rcases List.mem_cons.1 he with rfl | he
        · exact ⟨hne.symm, root_not_mem hb w⟩
        · obtain ⟨he, her⟩ := List.mem_filter.1 he
          exact ⟨by simpa using her, hb.roots e he⟩
    · next hv =>
      cases h
      refine ⟨hforest, hb.nodup, fun e he => ?_⟩
      rw [List.map_cons, List.mem_cons, not_or]
      refine ⟨fun her => ?_, hb.roots e he⟩
      have hmem : e.1 ∈ b.values.map Prod.fst := List.mem_map_of_mem he
      rw [show e.1 = b.root v from her] at hmem
      exact lookup_eq_none_iff_not_mem.1 hv hmem

theorem admits_refer {r s : Text} : Admits { b with aliases := (r, s) :: b.aliases } σ ↔
    b.Admits σ ∧ σ r = σ s := by
  constructor
  · intro hσ
    exact ⟨⟨hσ.values, fun e he => hσ.aliases e (List.mem_cons_of_mem _ he)⟩,
      hσ.aliases _ (List.mem_cons_self ..)⟩
  · rintro ⟨hσ, hrs⟩
    refine ⟨hσ.values, fun e he => ?_⟩
    rcases List.mem_cons.1 he with rfl | he
    · exact hrs
    · exact hσ.aliases e he

/-- The value of a variable can be given to the one to which it refers. -/
theorem admits_move (hb : b.WellFormed) {r s : Text} (hr : b.values.lookup r = some x) :
    Admits ⟨(s, x) :: b.values.filter (fun e => e.1 != r), (r, s) :: b.aliases⟩ σ ↔
      b.Admits σ ∧ σ r = σ s := by
  constructor
  · intro hσ
    have hrs : σ r = σ s := hσ.aliases _ (List.mem_cons_self ..)
    have hs : σ s = x := hσ.values _ (List.mem_cons_self ..)
    refine ⟨⟨fun e he => ?_, fun e he => hσ.aliases e (List.mem_cons_of_mem _ he)⟩, hrs⟩
    by_cases her : e.1 = r
    · have hex := lookup_of_mem hb.nodup (show (r, e.2) ∈ b.values from her ▸ he)
      rw [hr, Option.some.injEq] at hex
      rw [her, hrs, hs, hex]
    · exact hσ.values e (List.mem_cons_of_mem _ (List.mem_filter.2 ⟨he, by simpa using her⟩))
  · rintro ⟨hσ, hrs⟩
    refine ⟨fun e he => ?_, fun e he => ?_⟩
    · rcases List.mem_cons.1 he with rfl | he
      · exact hrs ▸ hσ.values _ (mem_of_lookup hr)
      · exact hσ.values e (List.mem_filter.1 he).1
    · rcases List.mem_cons.1 he with rfl | he
      · exact hrs
      · exact hσ.aliases e he

theorem admits_join (hb : b.WellFormed) (h : b.join v w = some b') :
    b'.Admits σ ↔ b.Admits σ ∧ σ v = σ w := by
  -- Under the bindings, equal variables are the same as equal roots.
  suffices hroots : b'.Admits σ ↔ b.Admits σ ∧ σ (b.root v) = σ (b.root w) by
    rw [hroots]
    exact and_congr_right fun hσ => by rw [hσ.root hb, hσ.root hb]
  rw [Bindings.join] at h
  split at h
  · next he =>
    cases h
    exact ⟨fun hσ => ⟨hσ, by rw [beq_iff_eq.1 he]⟩, fun hσ => hσ.1⟩
  · split at h
    · next x y hv hw =>
      split at h
      · next hxy =>
        cases h
        refine ⟨fun hσ => ⟨hσ, ?_⟩, fun hσ => hσ.1⟩
        have hx : σ (b.root v) = x := hσ.values _ (mem_of_lookup hv)
        have hy : σ (b.root w) = y := hσ.values _ (mem_of_lookup hw)
        rw [hx, hy, beq_iff_eq.1 hxy]
      · cases h
    · next x hv _ =>
      cases h
      exact admits_move hb hv
    · cases h
      exact admits_refer

theorem join_isSome (hb : b.WellFormed) (hσ : b.Admits σ) (hvw : σ v = σ w) :
    (b.join v w).isSome := by
  rw [Bindings.join]
  split
  · rfl
  · split
    · next x y hv hw =>
      have hx : σ (b.root v) = x := hσ.values _ (mem_of_lookup hv)
      have hy : σ (b.root w) = y := hσ.values _ (mem_of_lookup hw)
      have hxy : x = y := by rw [← hx, ← hy, hσ.root hb, hσ.root hb, hvw]
      simp [hxy]
    · rfl
    · rfl

/-! ## Unifying -/

/-- Whether two terms stand for a common value. -/
def Together (σ : Valuation) (s t : Term) : Prop := ∃ x, s.StandsFor σ x ∧ t.StandsFor σ x

variable {s t : Term}

theorem Together.symm (h : Together σ s t) : Together σ t s := by
  obtain ⟨x, hs, ht⟩ := h
  exact ⟨x, ht, hs⟩

theorem together_comm : Together σ s t ↔ Together σ t s := ⟨Together.symm, Together.symm⟩

theorem together_any (σ : Valuation) (t : Term) : Together σ .any t := by
  cases t with
  | any => exact ⟨default, trivial, trivial⟩
  | var v => exact ⟨σ v, trivial, rfl⟩
  | constant c => exact ⟨c, trivial, rfl⟩

@[simp] theorem together_constant :
    Together σ (.constant x) t ↔ t.StandsFor σ x := by
  simp [Together, Term.StandsFor]

@[simp] theorem together_constant_right : Together σ t (.constant x) ↔ t.StandsFor σ x := by
  rw [together_comm, together_constant]

@[simp] theorem together_var : Together σ (.var v) (.var w) ↔ σ v = σ w := by
  simp [Together, Term.StandsFor, eq_comm]

/-- What goes together with a term that is no wildcard stands for what the term stands for. -/
theorem Together.standsFor (h : Together σ s t) (ht : t.StandsFor σ x) (hany : t.isAny = false) :
    s.StandsFor σ x := by
  obtain ⟨y, hsy, hty⟩ := h
  exact ht.unique hty hany ▸ hsy

theorem Admits.together_resolve (h : b.Admits σ) (hb : b.WellFormed) :
    Together σ (b.resolve s) (b.resolve t) ↔ Together σ s t := by
  simp only [Together, h.standsFor_resolve hb]

theorem WellFormed.unify? (hb : b.WellFormed) (h : b.unify? s t = some b') : b'.WellFormed := by
  rw [Bindings.unify?] at h
  split at h
  · exact Option.some.inj h ▸ hb
  · exact Option.some.inj h ▸ hb
  · split at h
    · exact Option.some.inj h ▸ hb
    · cases h
  · exact hb.join h
  · exact hb.bind h
  · exact hb.bind h

/-- After an equation the bindings admit those valuations as before that satisfy it. -/
theorem admits_unify? (hb : b.WellFormed) (h : b.unify? s t = some b') :
    b'.Admits σ ↔ b.Admits σ ∧ Together σ s t := by
  suffices hr : b'.Admits σ ↔ b.Admits σ ∧ Together σ (b.resolve s) (b.resolve t) by
    rw [hr]
    exact and_congr_right fun hσ => hσ.together_resolve hb
  rw [Bindings.unify?] at h
  split at h
  · next hs =>
    rw [hs, ← Option.some.inj h]
    exact ⟨fun hσ => ⟨hσ, together_any σ _⟩, fun hσ => hσ.1⟩
  · next ht _ =>
    rw [ht, ← Option.some.inj h]
    exact ⟨fun hσ => ⟨hσ, (together_any σ _).symm⟩, fun hσ => hσ.1⟩
  · next x y hs ht =>
    rw [hs, ht]
    split at h
    · next hxy =>
      rw [← Option.some.inj h, beq_iff_eq.1 hxy]
      exact ⟨fun hσ => ⟨hσ, y, rfl, rfl⟩, fun hσ => hσ.1⟩
    · cases h
  · next hs ht =>
    rw [hs, ht, together_var]
    exact admits_join hb h
  · next hs ht =>
    rw [hs, ht, together_constant_right]
    exact admits_bind hb h
  · next hs ht =>
    rw [hs, ht, together_constant]
    exact admits_bind hb h

/-- An equation that a valuation satisfies can be solved. -/
theorem unify?_isSome (hb : b.WellFormed) (hσ : b.Admits σ) (h : Together σ s t) :
    (b.unify? s t).isSome := by
  rw [← hσ.together_resolve hb] at h
  rw [Bindings.unify?]
  split
  · rfl
  · rfl
  · next x y hs ht =>
    rw [hs, ht, together_constant] at h
    simp [show y = x from h]
  · next hs ht =>
    rw [hs, ht, together_var] at h
    exact join_isSome hb hσ h
  · next hs ht =>
    rw [hs, ht, together_constant_right] at h
    exact bind_isSome hb hσ h
  · next hs ht =>
    rw [hs, ht, together_constant] at h
    exact bind_isSome hb hσ h

/-! ## Unifying atoms -/

variable {equations : List (Term × Term)} {a a' : Atom}

theorem WellFormed.unifyEach? (hb : b.WellFormed) (h : b.unifyEach? equations = some b') :
    b'.WellFormed := by
  induction equations generalizing b with
  | nil => exact Option.some.inj h ▸ hb
  | cons e rest ih =>
    obtain ⟨b₁, h₁, h⟩ := Option.bind_eq_some_iff.1 h
    exact ih (hb.unify? h₁) h

theorem admits_unifyEach? (hb : b.WellFormed) (h : b.unifyEach? equations = some b') :
    b'.Admits σ ↔ b.Admits σ ∧ ∀ e ∈ equations, Together σ e.1 e.2 := by
  induction equations generalizing b with
  | nil =>
    rw [Bindings.unifyEach?, Option.some.injEq] at h
    simp [h]
  | cons e rest ih =>
    obtain ⟨b₁, h₁, h⟩ := Option.bind_eq_some_iff.1 h
    rw [ih (hb.unify? h₁) h, admits_unify? hb h₁, List.forall_mem_cons, and_assoc]

theorem unifyEach?_isSome (hb : b.WellFormed) (hσ : b.Admits σ)
    (h : ∀ e ∈ equations, Together σ e.1 e.2) : (b.unifyEach? equations).isSome := by
  induction equations generalizing b with
  | nil => rfl
  | cons e rest ih =>
    rw [List.forall_mem_cons] at h
    obtain ⟨b₁, h₁⟩ := Option.isSome_iff_exists.1 (unify?_isSome hb hσ h.1)
    have := ih (hb.unify? h₁) ((admits_unify? hb h₁).2 ⟨hσ, h.1⟩) h.2
    simpa [Bindings.unifyEach?, h₁] using this

/-- Whether two atoms stand for a common value in every place. -/
def TogetherIn (σ : Valuation) (a a' : Atom) : Prop :=
  ∀ e ∈ a.terms.zip a'.terms, Together σ e.1 e.2

/-- Only the values of the variables that occur in the atoms matter. -/
theorem TogetherIn.congr {τ : Valuation} (h : TogetherIn σ a a')
    (ha : ∀ v, .var v ∈ a.terms → σ v = τ v) (ha' : ∀ v, .var v ∈ a'.terms → σ v = τ v) :
    TogetherIn τ a a' := by
  intro e he
  obtain ⟨x, hs, ht⟩ := h e he
  obtain ⟨hmem, hmem'⟩ := List.of_mem_zip he
  exact ⟨x, hs.congr fun v heq => ha v (heq ▸ hmem), ht.congr fun v heq => ha' v (heq ▸ hmem')⟩

theorem WellFormed.unifyAtoms? (hb : b.WellFormed) (h : b.unifyAtoms? a a' = some b') :
    b'.WellFormed := hb.unifyEach? h

/-- After two atoms were unified the bindings admit those valuations as before under which the
atoms agree in every place. -/
theorem admits_unifyAtoms? (hb : b.WellFormed) (h : b.unifyAtoms? a a' = some b') :
    b'.Admits σ ↔ b.Admits σ ∧ TogetherIn σ a a' := admits_unifyEach? hb h

/-- Atoms that agree under a valuation that is admitted can be unified. -/
theorem unifyAtoms?_isSome (hb : b.WellFormed) (hσ : b.Admits σ) (h : TogetherIn σ a a') :
    (b.unifyAtoms? a a').isSome := unifyEach?_isSome hb hσ h

theorem wellFormed_empty : WellFormed {} := ⟨trivial, List.nodup_nil, by simp⟩

theorem admits_empty (σ : Valuation) : Admits {} σ := ⟨by simp, by simp⟩

/-- An atom agrees with a fact in every place if it stands for the fact. -/
theorem togetherIn_ofFact {f : Fact} : TogetherIn σ a (.ofFact f) ↔ a.StandsFor σ f := by
  simp [TogetherIn, Atom.standsFor_iff, Atom.terms, Atom.ofFact, Term.named]

/-- An atom that agrees in every place with one that stands for a fact and has no wildcards stands
for the fact. -/
theorem TogetherIn.standsFor {f : Fact} (h : TogetherIn σ a a') (hf : a'.StandsFor σ f)
    (ha : a'.hasWildcard = false) : a.StandsFor σ f := by
  simp only [TogetherIn, Atom.terms, List.zip_cons_cons, List.zip_nil_right, List.forall_mem_cons,
    List.not_mem_nil, false_implies, implies_true, and_true] at h
  simp only [Atom.hasWildcard, Atom.terms, List.any_cons, List.any_nil, Bool.or_false,
    Bool.or_eq_false_iff] at ha
  rw [Atom.standsFor_iff] at hf ⊢
  exact ⟨h.1.standsFor hf.1 ha.1, h.2.1.standsFor hf.2.1 ha.2.1, h.2.2.standsFor hf.2.2 ha.2.2⟩

/-- Atoms that stand for one fact agree in every place. -/
theorem togetherIn_of_standsFor {f : Fact} (h : a.StandsFor σ f) (h' : a'.StandsFor σ f) :
    TogetherIn σ a a' := by
  rw [Atom.standsFor_iff] at h h'
  simp only [TogetherIn, Atom.terms, List.zip_cons_cons, List.zip_nil_right, List.forall_mem_cons,
    List.not_mem_nil, false_implies, implies_true, and_true]
  exact ⟨⟨_, h.1, h'.1⟩, ⟨_, h.2.1, h'.2.1⟩, ⟨_, h.2.2, h'.2.2⟩⟩

end FactGraph.Bindings
