import FactGraph.Proofs.Join

/-!
# Conditions in another order

Conditions are matched one after the other, and what one of them leaves open decides what is asked
for the next. Yet the matches do not depend on the order: a match of the conditions in another order
has the same values, and its facts stand in that other order (`Condition.matches_in_any_order`). A
guard is no exception, whichever condition binds its variable, as it is tried again in the end.
-/

namespace FactGraph

/-! ## Lists in another order -/

/-- The entries of a list at given positions, in the order of the positions. -/
def rearrange {α : Type} (order : List Nat) (l : List α) : List α := order.filterMap (l[·]?)

section Rearrange

variable {α β : Type} {order : List Nat} {l : List α} {k : List β}

theorem filterMap_range (l : List α) : (List.range l.length).filterMap (l[·]?) = l := by
  induction l with
  | nil => rfl
  | cons a l ih =>
    rw [List.length_cons, List.range_succ_eq_map, List.filterMap_cons_some (by rfl),
      List.filterMap_map]
    exact congrArg (a :: ·) ih

theorem rearrange_perm (h : order.Perm (List.range l.length)) : (rearrange order l).Perm l := by
  have hperm := h.filterMap (l[·]?)
  rwa [filterMap_range] at hperm

theorem length_rearrange (h : order.Perm (List.range l.length)) :
    (rearrange order l).length = l.length :=
  (rearrange_perm h).length_eq

theorem getElem?_rearrange (h : order.Perm (List.range l.length)) (j : Nat) :
    (rearrange order l)[j]? = order[j]?.bind (l[·]?) := by
  have hrange : ∀ i ∈ order, i < l.length := fun i hi => List.mem_range.1 (h.mem_iff.1 hi)
  clear h
  rw [rearrange]
  induction order generalizing j with
  | nil => rfl
  | cons i order ih =>
    rw [List.forall_mem_cons] at hrange
    rw [List.filterMap_cons_some (List.getElem?_eq_getElem hrange.1)]
    cases j with
    | zero => simp [hrange.1]
    | succ j => simpa using ih j hrange.2

theorem rearrange_zip (h : l.length = k.length) :
    rearrange order (l.zip k) = (rearrange order l).zip (rearrange order k) := by
  induction order with
  | nil => rfl
  | cons i order ih =>
    unfold rearrange at ih ⊢
    cases hl : l[i]? with
    | none =>
      have hk : k[i]? = none := by
        rw [List.getElem?_eq_none_iff] at hl ⊢
        omega
      have hz : (l.zip k)[i]? = none := by
        rw [List.getElem?_eq_none_iff, List.length_zip] at *
        omega
      rw [List.filterMap_cons_none hl, List.filterMap_cons_none hk, List.filterMap_cons_none hz, ih]
    | some a =>
      have hi : i < k.length := h ▸ (List.getElem?_eq_some_iff.1 hl).1
      have hk : k[i]? = some k[i] := List.getElem?_eq_getElem hi
      have hz : (l.zip k)[i]? = some (a, k[i]) := List.getElem?_zip_eq_some.2 ⟨hl, hk⟩
      rw [List.filterMap_cons_some hl, List.filterMap_cons_some hk, List.filterMap_cons_some hz, ih,
        List.zip_cons_cons]

theorem forall₂_rearrange {R : α → β → Prop} (h : order.Perm (List.range l.length))
    (hlength : l.length = k.length) :
    List.Forall₂ R (rearrange order l) (rearrange order k) ↔ List.Forall₂ R l k := by
  have hzip : ((rearrange order l).zip (rearrange order k)).Perm (l.zip k) := by
    rw [← rearrange_zip hlength]
    refine rearrange_perm ?_
    rwa [List.length_zip, ← hlength, Nat.min_self]
  rw [List.forall₂_iff_zip, List.forall₂_iff_zip, length_rearrange h,
    length_rearrange (hlength ▸ h)]
  simp only [hzip.mem_iff]

/-- Where every position goes in an order. -/
def inverse (order : List Nat) : List Nat := (List.range order.length).map fun i => order.idxOf i

theorem map_idxOf (h : order.Nodup) :
    (order.map fun i => order.idxOf i) = List.range order.length := by
  refine List.ext_getElem (by simp) fun j hj _ => ?_
  rw [List.getElem_map, List.getElem_range, h.idxOf_getElem]

theorem inverse_perm (h : order.Perm (List.range order.length)) :
    (inverse order).Perm (List.range order.length) := by
  have hperm := h.symm.map fun i => order.idxOf i
  rwa [map_idxOf (h.nodup_iff.2 List.nodup_range)] at hperm

/-- Every list comes from a list by a rearrangement. -/
theorem rearrange_inverse (h : order.Perm (List.range l.length)) :
    rearrange order (rearrange (inverse order) l) = l := by
  have hlength : order.length = l.length := by simpa using h.length_eq
  have hentry : ∀ i ∈ order, (rearrange (inverse order) l)[i]? = l[order.idxOf i]? := by
    intro i hi
    have hlt : i < order.length := hlength ▸ List.mem_range.1 (h.mem_iff.1 hi)
    rw [getElem?_rearrange (hlength ▸ inverse_perm (hlength.symm ▸ h)), inverse,
      List.getElem?_map, List.getElem?_range hlt]
    rfl
  calc rearrange order (rearrange (inverse order) l)
      = order.filterMap fun i => l[order.idxOf i]? := List.filterMap_congr hentry
    _ = (order.map fun i => order.idxOf i).filterMap (l[·]?) := by
      rw [List.filterMap_map]
      rfl
    _ = l := by rw [map_idxOf (h.nodup_iff.2 List.nodup_range), hlength, filterMap_range]

theorem rearrange_inj {l' : List α} (h : order.Perm (List.range l.length))
    (hlength : l.length = l'.length) (heq : rearrange order l = rearrange order l') : l = l' := by
  refine List.ext_getElem? fun i => ?_
  by_cases hi : i < l.length
  · obtain ⟨j, hj⟩ := List.getElem?_of_mem (h.mem_iff.2 (List.mem_range.2 hi))
    have hsame : (rearrange order l)[j]? = (rearrange order l')[j]? := by rw [heq]
    rwa [getElem?_rearrange h, getElem?_rearrange (hlength ▸ h), hj] at hsame
  · rw [List.getElem?_eq_none (by omega), List.getElem?_eq_none (by omega)]

end Rearrange
namespace Condition

variable {conditions conditions' : List Condition} {facts facts' : List Fact}
  {s s' : Substitution} {order : List Nat}

/-! ## Unifying in another order -/

theorem unifyEach_of_standsFor (hs : s.Ascending)
    (hstands : ∀ σ, List.Forall₂ (fun c f => c.atom.StandsFor σ f) conditions facts →
      List.Forall₂ (fun c f => c.atom.StandsFor σ f) conditions' facts')
    (hbound : ∀ v, v ∈ Rule.boundVariables conditions ↔ v ∈ Rule.boundVariables conditions')
    (h : unifyEach conditions facts s = some s') : unifyEach conditions' facts' s = some s' := by
  have hs' := ascending_unifyEach hs h
  obtain ⟨σ, hσ⟩ := hs'.exists_agrees
  obtain ⟨hbase, hfacts⟩ := (agrees_unifyEach h).1 hσ
  obtain ⟨u, hu⟩ := Option.isSome_iff_exists.1 (unifyEach_isSome hbase (hstands σ hfacts))
  have huσ : u.Agrees σ := (agrees_unifyEach hu).2 ⟨hbase, hstands σ hfacts⟩
  rw [hu, (ascending_unifyEach hs hu).ext hs' huσ hσ fun v => ?_]
  rw [binds_unifyEach hu, binds_unifyEach h, hbound]

/-- What comes of unifying conditions with facts is known by the variables of the conditions and by
the valuations under which their atoms stand for the facts. -/
theorem unifyEach_congr (hs : s.Ascending)
    (hstands : ∀ σ, List.Forall₂ (fun c f => c.atom.StandsFor σ f) conditions facts ↔
      List.Forall₂ (fun c f => c.atom.StandsFor σ f) conditions' facts')
    (hbound : ∀ v, v ∈ Rule.boundVariables conditions ↔ v ∈ Rule.boundVariables conditions') :
    unifyEach conditions facts s = unifyEach conditions' facts' s :=
  Option.ext fun _ => ⟨unifyEach_of_standsFor hs (fun σ => (hstands σ).1) hbound,
    unifyEach_of_standsFor hs (fun σ => (hstands σ).2) fun v => (hbound v).symm⟩

theorem length_eq_of_unifyEach (hs : s.Ascending) (h : unifyEach conditions facts s = some s') :
    conditions.length = facts.length := by
  obtain ⟨σ, hσ⟩ := (ascending_unifyEach hs h).exists_agrees
  exact ((agrees_unifyEach h).1 hσ).2.length_eq

theorem unifyEach_rearrange (hs : s.Ascending)
    (horder : order.Perm (List.range conditions.length))
    (hlength : conditions.length = facts.length) :
    unifyEach (rearrange order conditions) (rearrange order facts) s =
      unifyEach conditions facts s :=
  unifyEach_congr hs (fun _ => forall₂_rearrange horder hlength) fun _ =>
    ((rearrange_perm horder).flatMap_right _).mem_iff

theorem allHold_rearrange (horder : order.Perm (List.range conditions.length)) :
    allHold (rearrange order conditions) s = allHold conditions s :=
  (rearrange_perm horder).all_eq

/-! ## Matching in another order -/

variable {view : View} {A : Set Fact} {V : Set Value}

/-- In a view that answers exactly, conditions have the same matches in whatever order they are
joined, from given values on: there are as many matches with the same values, and the facts of a
match stand in the order of the conditions. -/
theorem matches_in_any_order (hview : view.Exact A V) (hA : A ⊆ factsOver V)
    (hc : ∀ c ∈ conditions, ∀ x ∈ c.atom.constants, x ∈ V) (hs : Orderly V ⟨s, []⟩)
    (horder : order.Perm (List.range conditions.length)) :
    ∃ found found', allMatches view conditions s = .ok found ∧
      allMatches view (rearrange order conditions) s = .ok found' ∧
      found'.Perm (found.map fun m => ⟨m.bindings, rearrange order m.premises⟩) := by
  have hc' : ∀ c ∈ rearrange order conditions, ∀ x ∈ c.atom.constants, x ∈ V :=
    fun c hmem => hc c ((rearrange_perm horder).mem_iff.1 hmem)
  obtain ⟨found, hfound, nodup, hmem⟩ := exists_allMatches_of_exact hview hA hc hs
  obtain ⟨found', hfound', nodup', hmem'⟩ := exists_allMatches_of_exact hview hA hc' hs
  refine ⟨found, found', hfound, hfound', ?_⟩
  have hlength {m : Match} (hm : m ∈ found) : conditions.length = m.premises.length :=
    length_eq_of_unifyEach hs.ascending ((hmem m).1 hm).2.1
  have nodup_map :
      (found.map fun m => (⟨m.bindings, rearrange order m.premises⟩ : Match)).Nodup := by
    refine nodup.map_on fun m hm m' hm' heq => ?_
    obtain ⟨hbindings, hpremises⟩ := Match.mk.inj heq
    have hsame : m.premises = m'.premises :=
      rearrange_inj (hlength hm ▸ horder) ((hlength hm).symm.trans (hlength hm')) hpremises
    cases m
    cases m'
    exact congrArg₂ Match.mk hbindings hsame
  rw [List.perm_ext_iff_of_nodup nodup' nodup_map]
  intro m'
  rw [hmem', allHold_rearrange horder, List.mem_map]
  constructor
  · rintro ⟨hfacts, hunify, hhold⟩
    have hcount : m'.premises.length = conditions.length := by
      rw [← length_eq_of_unifyEach hs.ascending hunify, length_rearrange horder]
    have hperm : order.Perm (List.range m'.premises.length) := hcount ▸ horder
    -- The facts of the match in the order in which the conditions stood.
    have hback := rearrange_inverse hperm
    have hinverse : (inverse order).Perm (List.range m'.premises.length) := by
      have hsame : order.length = m'.premises.length := by simpa using hperm.length_eq
      exact hsame ▸ inverse_perm (hsame.symm ▸ hperm)
    refine ⟨⟨m'.bindings, rearrange (inverse order) m'.premises⟩, (hmem _).2 ⟨?_, ?_, hhold⟩, ?_⟩
    · exact fun f hf => hfacts f ((rearrange_perm hinverse).mem_iff.1 hf)
    · rw [← unifyEach_rearrange hs.ascending horder, hback]
      · exact hunify
      · rw [length_rearrange hinverse, hcount]
    · rw [hback]
  · rintro ⟨m, hm, rfl⟩
    obtain ⟨hfacts, hunify, hhold⟩ := (hmem m).1 hm
    refine ⟨fun f hf => ?_, ?_, hhold⟩
    · exact hfacts f ((rearrange_perm (hlength hm ▸ horder)).mem_iff.1 hf)
    · rwa [unifyEach_rearrange hs.ascending horder (hlength hm)]

/-- A chain of two facts, the other way round, with a guard on a variable that is bound last. -/
theorem matches_in_any_order_chain :
    let f : Fact := ⟨.named "a", "p", .named "p"⟩
    let g : Fact := ⟨.named "p", "p", .named "a"⟩
    let view := (Store.insertAll { storage := .memory {} } [f, g]).1.view
    let first : Condition := { atom := ⟨.var "x", .var "r", .var "y"⟩ }
    let second : Condition :=
      { atom := ⟨.var "y", .var "r", .var "z"⟩, guard := some ⟨"x", .equal, .named "a"⟩ }
    let start : Substitution := [("z", .named "a")]
    ∃ found found', allMatches view [first, second] start = .ok found ∧
      allMatches view [second, first] start = .ok found' ∧ found.length = 1 ∧
      found'.Perm (found.map fun m => ⟨m.bindings, rearrange [1, 0] m.premises⟩) := by
  intro f g view first second start
  have inj : Set.InjOn Fact.digest (factsOver {x | x ∈ [.named "a", .named "p"]}) :=
    injOn_digest_of_nodup (by decide +kernel)
  have hover : ∀ x ∈ [f, g], x ∈ factsOver {x | x ∈ [.named "a", .named "p"]} := by
    simp [f, g, Value.named]
  have hs : (Store.insertAll { storage := .memory {} } [f, g]).1.Represents [f, g].toFinset :=
    Store.represents_insertAll (by decide +kernel) (inj.mono hover)
  have hlimit : ∀ x ∈ [Value.named "a", .named "p"], x.WithinLimit := by
    show ∀ x ∈ [Value.named "a", .named "p"], ∀ t ∈ x.fields, t.length ≤ fieldLimit
    decide +kernel
  have hstart : Orderly {x | x ∈ [.named "a", .named "p"]} ⟨start, []⟩ :=
    ⟨List.pairwise_singleton _ _, show ∀ e ∈ start, e.2 ∈ [Value.named "a", .named "p"] by decide⟩
  have hconstants : ∀ c ∈ [first, second], ∀ x ∈ c.atom.constants,
      x ∈ [Value.named "a", .named "p"] := by decide
  have horder : [1, 0].Perm (List.range [first, second].length) := by decide
  obtain ⟨found, found', hfound, hfound', hperm⟩ := matches_in_any_order
    (hs.exact_view (fun x hx => hover x (List.mem_toFinset.1 hx)) inj hlimit)
    (fun x hx => hover x (List.mem_toFinset.1 hx)) hconstants hstart horder
  have hcount : (allMatches view [first, second] start).toOption.map List.length = some 1 := by
    decide +kernel
  rw [hfound] at hcount
  exact ⟨found, found', hfound, hfound', Option.some.inj hcount, hperm⟩

end Condition
end FactGraph
