import Mathlib.Data.Set.Card
import FactGraph.Proofs.Enumeration
import FactGraph.Proofs.Keys
import FactGraph.Proofs.Resolution
import FactGraph.Proofs.Search

/-!
# Searches that go no deeper

No goal has a key that stands among those above it, so over finitely many values goals get only so
deep: with a greater bound, no rule is left out because of it (`Search.run_of_confined`), and from
there on a search does the same whatever the bound (`Search.run_of_bound`).
-/

namespace FactGraph

namespace Search

variable {s : Search} {t t' : Tally} {b b' : Branch} {g : Goal} {parts : List Branch} {d : Nat}

/-! ## Greater bounds -/

/-- A step that cuts nothing because of the bound does the same with a greater one. -/
theorem next_of_bound (hd : s.bound ≤ d) {r : Except StoreError (List Branch)}
    (h : s.next t b g = (t', r)) (hcut : t'.depthCut = false) :
    Search.next { s with bound := d } t b g = (t', r) ∧ t.depthCut = false := by
  cases g with
  | conclude head guard rule premises =>
    simp only [next, Prod.mk.injEq] at h ⊢
    obtain ⟨rfl, rfl⟩ := h
    exact ⟨⟨rfl, rfl⟩, hcut⟩
  | solve atom guard depth above =>
    have hstored : stored { s with bound := d } b atom guard = s.stored b atom guard := rfl
    have happlicable : applicable { s with bound := d } b atom = s.applicable b atom := rfl
    simp only [next, hstored, happlicable] at h ⊢
    by_cases habove : above.contains (atom.map b.bindings.resolve).key = true
    · simp only [habove, if_true] at h ⊢
      cases h
      exact ⟨rfl, hcut⟩
    · simp only [habove, if_false, Bool.false_eq_true] at h ⊢
      cases hbranches : s.stored b atom guard with
      | error e =>
        simp only [hbranches] at h ⊢
        cases h
        exact ⟨rfl, hcut⟩
      | ok branches =>
        simp only [hbranches] at h ⊢
        by_cases hdepth : s.bound ≤ depth
        · simp only [hdepth, if_true] at h
          cases h
          -- No rule could have been applied, so that there is nothing to cut.
          simp only [Bool.or_eq_false_iff, Bool.not_eq_false', List.isEmpty_iff] at hcut
          refine ⟨?_, hcut.1⟩
          rw [hcut.2]
          split <;> simp
        · have hdepth' : ¬ d ≤ depth := fun h => hdepth (hd.trans h)
          simp only [hdepth, hdepth', if_false] at h ⊢
          cases h
          exact ⟨rfl, hcut⟩

theorem depthCut_of_run {branches : s.Branches} (h : (s.run t branches).1.depthCut = false) :
    t.depthCut = false := by
  fun_induction Search.run s t branches with
  | case1 => exact h
  | case2 => exact h
  | case3 t bindings steps applied rest ih => exact ih h
  | case4 t g goals bindings found steps applied rest t₁ e hnext =>
    exact (next_of_bound (Nat.le_refl s.bound) hnext h).2
  | case5 t g goals bindings found steps applied rest t₁ parts hnext ih =>
    exact (next_of_bound (Nat.le_refl s.bound) hnext (ih h)).2

/-- A search that cut nothing because of the bound does the same with a greater one. -/
theorem run_of_bound (hd : s.bound ≤ d) {branches : s.Branches}
    (h : (s.run t branches).1.depthCut = false) :
    Search.run { s with bound := d } t branches = s.run t branches := by
  fun_induction Search.run s t branches with
  | case1 => rw [run]
  | case2 => rw [run]
  | case3 t bindings steps applied rest ih =>
    rw [run]
    exact ih h
  | case4 t g goals bindings found steps applied rest t₁ e hnext =>
    obtain ⟨hsame, -⟩ := next_of_bound hd hnext h
    rw [run]
    split
    · next heq =>
      rw [hsame] at heq
      cases heq
      rfl
    · next heq =>
      rw [hsame] at heq
      cases heq
  | case5 t g goals bindings found steps applied rest t₁ parts hnext ih =>
    obtain ⟨hsame, -⟩ := next_of_bound hd hnext (depthCut_of_run h)
    rw [run]
    split
    · next heq =>
      rw [hsame] at heq
      cases heq
    · next heq =>
      rw [hsame] at heq
      cases heq
      exact ih h

/-! ## How deep goals get -/

/-- Whether a goal stands as deep as there are goals above it, and these have different keys. -/
def Placed (keys : Set Text) : Goal → Prop
  | .solve _ _ depth above => above.length = depth ∧ above.Nodup ∧ ∀ key ∈ above, key ∈ keys
  | .conclude .. => True

theorem Placed.depth_le {keys : Set Text} (hkeys : keys.Finite) {atom : Atom}
    {guard : Option Guard} {depth : Nat} {above : List Text}
    (h : Placed keys (.solve atom guard depth above)) : depth ≤ keys.ncard := by
  obtain ⟨rfl, hnodup, hmem⟩ := h
  have hsub : (above.toFinset : Set Text) ⊆ keys := fun key hkey =>
    hmem key (List.mem_toFinset.1 hkey)
  rw [← List.toFinset_card_of_nodup hnodup, ← Set.ncard_coe_finset]
  exact Set.ncard_le_ncard hsub hkeys

theorem Placed.below {keys : Set Text} {atom : Atom} {guard : Option Guard} {depth : Nat}
    {above : List Text} {key : Text} (h : Placed keys (.solve atom guard depth above))
    (hkey : key ∈ keys) (hnew : key ∉ above) (atom' : Atom) (guard' : Option Guard) :
    Placed keys (.solve atom' guard' (depth + 1) (key :: above)) := by
  obtain ⟨hlength, hnodup, hmem⟩ := h
  exact ⟨by rw [List.length_cons, hlength], List.nodup_cons.2 ⟨hnew, hnodup⟩,
    List.forall_mem_cons.2 ⟨hkey, hmem⟩⟩

/-! ## Searches over finitely many values -/

/-- Whether a search works with given values only, finitely many of which it can look up. -/
structure Confined (s : Search) (V : Set Value) : Prop where
  /-- There are finitely many values. -/
  finite : V.Finite
  /-- The values are within the limit. -/
  limit : ∀ x ∈ V, x.WithinLimit
  /-- The rules have these values. -/
  constants : ∀ r ∈ s.rules, ∀ x ∈ r.constants, x ∈ V
  /-- Whatever has these values can be looked up, and what is found has them. -/
  find : ∀ q, (∀ x ∈ (Atom.ofQuery q).constants, x ∈ V) →
    ∃ l, s.view.find q = .ok l ∧ ∀ f ∈ l, f ∈ factsOver V

/-- Whether a search works with given facts and values only, finitely many of which it can look
up. -/
structure Over (s : Search) (A : Set Fact) (V : Set Value) : Prop where
  /-- There are finitely many values. -/
  finite : V.Finite
  /-- The values are within the limit. -/
  limit : ∀ x ∈ V, x.WithinLimit
  /-- The facts have these values. -/
  facts : A ⊆ factsOver V
  /-- So have the rules. -/
  constants : ∀ r ∈ s.rules, ∀ x ∈ r.constants, x ∈ V
  /-- The rules make sense. -/
  sound : ∀ r ∈ s.rules, r.Sound
  /-- What is looked up is one of the facts. -/
  faithful : s.view.Faithful A (factsOver V)
  /-- Whatever has these values can be looked up. -/
  find : ∀ q, (∀ x ∈ (Atom.ofQuery q).constants, x ∈ V) → ∃ l, s.view.find q = .ok l

theorem Over.confined {A : Set Fact} {V : Set Value} (h : s.Over A V) : s.Confined V where
  finite := h.finite
  limit := h.limit
  constants := h.constants
  find := fun q hq => by
    obtain ⟨l, hl⟩ := h.find q hq
    exact ⟨l, hl, fun f hf => h.facts
      (h.faithful.find q l hl (fun _ hg => Query.mem_factsOver hq hg) f hf).1⟩

end Search

/-- The atom that a goal is about. -/
def Goal.atom : Goal → Atom
  | .solve atom _ _ _ => atom
  | .conclude head _ _ _ => head

/-- What a branch of a search over given values keeps to. -/
structure Branch.Confined (V : Set Value) (b : Branch) : Prop where
  /-- Variables have these values only. -/
  values : b.bindings.Over V
  /-- So have goals. -/
  constants : ∀ g ∈ b.goals, ∀ x ∈ g.atom.constants, x ∈ V
  /-- Goals stand in their places. -/
  placed : ∀ g ∈ b.goals, Search.Placed (keysOver V) g
  /-- What was found has these values. -/
  found : ∀ f ∈ b.found, f ∈ factsOver V

namespace Search

variable {s : Search} {t t' : Tally} {b b' : Branch} {g : Goal} {parts : List Branch}
  {V : Set Value} {top : Atom}

theorem confined_first (htop : ∀ x ∈ top.constants, x ∈ V) :
    Branch.Confined V { goals := [.solve top none 0 []] } where
  values := by simp [Bindings.Over]
  constants := by simpa [Goal.atom] using htop
  placed := by simp [Placed]
  found := by simp

/-- Every step that is taken leaves branches confined. -/
theorem Takes.confined (h : s.Confined V) (htakes : s.Takes b b') (hb : b.Confined V) :
    b'.Confined V := by
  cases htakes with
  | @fact b _ atom guard depth above q l f _ hq hl hf hwith =>
    obtain ⟨bindings, hunify, -, rfl⟩ := withFact_eq_some.1 hwith
    have hatom := hb.constants _ List.mem_cons_self
    have hconstants := hb.values.constants_resolve hatom
    obtain ⟨l', hl', hover⟩ := h.find q (Atom.constants_mem_of_query? hconstants (by simp) hq)
    cases hl.symm.trans hl'
    exact ⟨hb.values.unifyAtoms? hatom
        (fun x hx => hover f hf x (Bindings.mem_constants_ofFact.1 hx)) hunify,
      fun g hg => hb.constants g (List.mem_cons_of_mem _ hg),
      fun g hg => hb.placed g (List.mem_cons_of_mem _ hg),
      List.forall_mem_cons.2 ⟨hover f hf, hb.found⟩⟩
  | @rule b atom guard depth above a hkey _ ha =>
    obtain ⟨hr, -, ⟨head, hhead, heq⟩, hunify⟩ := mem_applicable.1 ha
    have hatom := hb.constants _ List.mem_cons_self
    have hconstants := hb.values.constants_resolve hatom
    have hplaced := hb.placed _ List.mem_cons_self
    have hrule : ∀ x ∈ a.head.constants, x ∈ V := fun x hx => by
      rw [heq, Atom.constants_rename] at hx
      exact h.constants _ hr x (List.mem_append_right _ (List.mem_flatMap.2 ⟨head, hhead, hx⟩))
    refine ⟨hb.values.unifyAtoms? hatom hrule hunify, fun g hg => ?_, fun g hg => ?_, hb.found⟩
    · rcases List.mem_append.1 hg with hg | hg
      · obtain ⟨c, hc, rfl⟩ := List.mem_map.1 hg
        intro x hx
        rw [Goal.atom, Condition.rename, Atom.constants_rename] at hx
        exact h.constants _ hr x (List.mem_append_left _ (List.mem_flatMap.2 ⟨c, hc, hx⟩))
      · rcases List.mem_cons.1 hg with rfl | hg
        · exact hrule
        · exact hb.constants g (List.mem_cons_of_mem _ hg)
    · rcases List.mem_append.1 hg with hg | hg
      · obtain ⟨c, -, rfl⟩ := List.mem_map.1 hg
        exact hplaced.below (Atom.key_mem_keysOver hconstants) hkey _ _
      · rcases List.mem_cons.1 hg with rfl | hg
        · exact trivial
        · exact hb.placed g (List.mem_cons_of_mem _ hg)
  | @conclude b _ head guard rule premises hconclude =>
    obtain ⟨f, hf, -, rfl⟩ := conclude_eq_ok hconclude
    have hconstants := hb.values.constants_resolve (hb.constants _ List.mem_cons_self)
    exact ⟨hb.values, fun g hg => hb.constants g (List.mem_cons_of_mem _ hg),
      fun g hg => hb.placed g (List.mem_cons_of_mem _ hg),
      List.forall_mem_cons.2 ⟨Atom.mem_factsOver_of_instantiate? hconstants (by simp) hf,
        fun g hg => hb.found g (List.mem_of_mem_drop hg)⟩⟩

/-- The next step of a confined branch runs into no error, and a great bound does not cut it. -/
theorem next_of_confined (h : s.Confined V)
    (hb : Branch.Confined V { b with goals := g :: b.goals }) (t : Tally) :
    ∃ t' parts, s.next t b g = (t', .ok parts) ∧
      ((keysOver V).ncard < s.bound → t'.depthCut = t.depthCut) := by
  cases g with
  | conclude head guard rule premises =>
    have hids : ∃ ids, (b.found.take premises).reverse.mapM Fact.id = .ok ids := by
      refine ⟨_, mapM_id_eq_ok.2 ⟨fun f hf => ?_, rfl⟩⟩
      exact Fact.withinLimit_iff.2 fun x hx =>
        h.limit x (hb.found f (List.mem_of_mem_take (List.mem_reverse.1 hf)) x hx)
    obtain ⟨ids, hids⟩ := hids
    refine ⟨t, ?_⟩
    simp only [next, Branch.conclude, hids]
    split
    · exact ⟨_, rfl, fun _ => trivial⟩
    · split <;> exact ⟨_, rfl, fun _ => trivial⟩
  | solve atom guard depth above =>
    have hdepth := Placed.depth_le (finite_keysOver h.finite) (hb.placed _ List.mem_cons_self)
    have hstored : ∃ branches, s.stored b atom guard = .ok branches := by
      cases hq : (atom.map b.bindings.resolve).query? [] with
      | none => exact ⟨[], by rw [stored, hq]⟩
      | some q =>
        obtain ⟨l, hl, -⟩ := h.find q (Atom.constants_mem_of_query?
          (hb.values.constants_resolve (hb.constants _ List.mem_cons_self)) (by simp) hq)
        simp only [stored, hq, hl]
        exact ⟨_, rfl⟩
    obtain ⟨branches, hstored⟩ := hstored
    simp only [next, hstored]
    split
    · exact ⟨_, _, rfl, fun _ => rfl⟩
    · split
      · next hcut => exact ⟨_, _, rfl, fun hbound => absurd (hcut.trans hdepth) (by omega)⟩
      · exact ⟨_, _, rfl, fun _ => rfl⟩

/-- A search over finitely many values runs into no error, and a great bound does not cut it. -/
theorem run_of_confined (h : s.Confined V) {branches : s.Branches}
    (hbranches : ∀ b ∈ branches, b.Confined V) :
    (∀ e, (s.run t branches).2 ≠ .error e) ∧
      ((keysOver V).ncard < s.bound → (s.run t branches).1.depthCut = t.depthCut) := by
  -- Every branch that is left is confined, so each step succeeds and is not cut by a great bound.
  fun_induction Search.run s t branches with
  | case1 => exact ⟨by simp, fun _ => rfl⟩
  | case2 => exact ⟨by simp, fun _ => rfl⟩
  | case3 t bindings steps applied rest ih =>
    exact ih fun b hb => hbranches b (List.mem_cons_of_mem _ hb)
  | case4 t g goals bindings found steps applied rest t₁ e hnext =>
    obtain ⟨t', parts, hok, -⟩ := next_of_confined
      (b := { goals, bindings, found, steps, applied }) h (hbranches _ List.mem_cons_self) t
    rw [hnext] at hok
    cases hok
  | case5 t g goals bindings found steps applied rest t₁ parts hnext ih =>
    have hfirst := hbranches _ List.mem_cons_self
    obtain ⟨t', parts', hok, hcut⟩ := next_of_confined
      (b := { goals, bindings, found, steps, applied }) h hfirst t
    rw [hnext] at hok
    cases hok
    have hrest := ih fun b hb => (List.mem_append.1 hb).elim
      (fun hb => (takes_of_mem_next hnext hb).confined h hfirst)
      fun hb => hbranches b (List.mem_cons_of_mem _ hb)
    exact ⟨hrest.1, fun hbound => (hrest.2 hbound).trans (hcut hbound)⟩

end Search
end FactGraph
