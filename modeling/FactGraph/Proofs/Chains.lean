import Mathlib.Data.List.Chain
import Mathlib.Data.List.Nodup
import Mathlib.Order.Bounds.Basic
import FactGraph.Proof
import FactGraph.Proofs.Encoding

/-!
# Chains of steps

The depth of a proof is found in one pass over its steps, in which every step gets a level and every
digest the level of the step that derives it. A digest that is derived again gets a new level, be it
lower than the old one. So the depth is the length of the longest chain in which every step uses
what the one before it derives and no step between the two derives it again
(`Proof.depth_isGreatest`). It may fall short of the longest chain of all, unless no two steps
derive one fact.
-/

namespace FactGraph

namespace Proof

variable {steps : List ProofStep} {step : ProofStep} {levels : Levels} {deepest i j m n : Nat}
  {id : Digest} {l : List Nat}

/-! ## Levels of steps -/

/-- A step stands on the first level, or one level above the highest of its premises. -/
theorem isGreatest_stepLevel (levels : Levels) (premises : List Digest) :
    IsGreatest {n | n = 1 ∨ ∃ id ∈ premises, ∃ l, levels.lookup id = some l ∧ n = l + 1}
      (stepLevel levels premises) := by
  have hfold (d : Nat) :
      IsGreatest {n | n = d ∨ ∃ id ∈ premises, ∃ l, levels.lookup id = some l ∧ n = l + 1}
        (premises.foldl (fun d id => (levels.lookup id).elim d fun l => max d (l + 1)) d) := by
    induction premises generalizing d with
    | nil => simp
    | cons id premises ih =>
      rw [List.foldl_cons]
      cases hl : levels.lookup id with
      | none => simpa [hl] using ih d
      | some l =>
        obtain ⟨hmem, hle⟩ := ih (max d (l + 1))
        simp only [Option.elim]
        constructor
        · rcases hmem with heq | ⟨id', hid, l', hl', heq⟩
          · rcases Nat.le_total (l + 1) d with hd | hd
            · exact .inl (heq.trans (Nat.max_eq_left hd))
            · exact .inr ⟨id, List.mem_cons_self, l, hl, heq.trans (Nat.max_eq_right hd)⟩
          · exact .inr ⟨id', List.mem_cons_of_mem _ hid, l', hl', heq⟩
        · rintro n (rfl | ⟨id', hid, l', hl', rfl⟩)
          · exact (Nat.le_max_left ..).trans (hle (.inl rfl))
          · rcases List.mem_cons.1 hid with rfl | hid
            · rw [hl, Option.some.injEq] at hl'
              subst hl'
              exact (Nat.le_max_right ..).trans (hle (.inl rfl))
            · exact hle (.inr ⟨id', hid, l', hl', rfl⟩)
  exact hfold 1

theorem depthFrom_cons (h : step.derived.WithinLimit) (rest : List ProofStep) :
    depthFrom levels deepest (step :: rest) =
      depthFrom ((step.derived.digest, stepLevel levels step.premises) :: levels)
        (max deepest (stepLevel levels step.premises)) rest := by
  simp only [depthFrom, h.id]
  rfl

/-! ## Chains -/

/-- Whether a step uses what an earlier one derives. Steps are known by their positions. -/
def Uses (steps : List ProofStep) (i j : Nat) : Prop :=
  i < j ∧ ∃ s t, steps[i]? = some s ∧ steps[j]? = some t ∧ s.derived.digest ∈ t.premises

/-- Whether a step is the last one in front of a position that derives a digest. -/
def DerivesLast (steps : List ProofStep) (m : Nat) (id : Digest) (i : Nat) : Prop :=
  i < m ∧ (∃ s, steps[i]? = some s ∧ s.derived.digest = id) ∧
    ∀ k, i < k → k < m → ∀ s, steps[k]? = some s → s.derived.digest ≠ id

/-- Whether a step uses what an earlier one derives and no step between them derives again. -/
def UsesLatest (steps : List ProofStep) (i j : Nat) : Prop :=
  ∃ t, steps[j]? = some t ∧ ∃ id ∈ t.premises, DerivesLast steps j id i

/-- Whether positions of steps, in their order, are linked by uses. -/
structure Chain (uses : Nat → Nat → Prop) (steps : List ProofStep) (l : List Nat) : Prop where
  /-- There are steps at the positions. -/
  inside : ∀ i ∈ l, i < steps.length
  /-- Every step uses the one before it. -/
  linked : l.IsChain uses

theorem UsesLatest.toUses (h : UsesLatest steps i j) : Uses steps i j := by
  obtain ⟨t, ht, id, hid, hij, ⟨s, hs, rfl⟩, -⟩ := h
  exact ⟨hij, s, t, hs, ht, hid⟩

/-- Where no two steps derive one fact, every use is one of the latest derivation. -/
theorem Uses.latest (h : Uses steps i j)
    (hnodup : (steps.map fun s => s.derived.digest).Nodup) : UsesLatest steps i j := by
  obtain ⟨hij, s, t, hs, ht, hid⟩ := h
  refine ⟨t, ht, _, hid, hij, ⟨s, hs, rfl⟩, fun k hik _ u hu heq => ?_⟩
  have hi : (steps.map fun s => s.derived.digest)[i]? = some s.derived.digest := by simp [hs]
  have hk : (steps.map fun s => s.derived.digest)[k]? = some s.derived.digest := by simp [hu, heq]
  have hlt : i < (steps.map fun s => s.derived.digest).length :=
    (List.getElem?_eq_some_iff.1 hi).1
  exact absurd ((List.getElem?_inj hlt hnodup).1 (hi.trans hk.symm)) (Nat.ne_of_lt hik)

namespace Chain

variable {uses uses' : Nat → Nat → Prop}

theorem imp (h : Chain uses steps l) (himp : ∀ i j, uses i j → uses' i j) : Chain uses' steps l :=
  ⟨h.inside, h.linked.imp himp⟩

theorem append_singleton_iff : Chain uses steps (l ++ [m]) ↔
    Chain uses steps l ∧ m < steps.length ∧ ∀ i ∈ l.getLast?, uses i m := by
  constructor
  · rintro ⟨hinside, hlinked⟩
    obtain ⟨hl, -, hlast⟩ := List.isChain_append.1 hlinked
    exact ⟨⟨fun i hi => hinside i (by simp [hi]), hl⟩, hinside m (by simp),
      fun i hi => hlast i hi m rfl⟩
  · rintro ⟨⟨hinside, hlinked⟩, hm, hlast⟩
    refine ⟨?_, List.isChain_append.2 ⟨hlinked, List.isChain_singleton m, ?_⟩⟩
    · exact List.forall_mem_append.2 ⟨hinside, by simpa using hm⟩
    · rintro i hi j hj
      cases hj
      exact hlast i hi

/-- The positions of a chain go up. -/
theorem lt_of_mem (h : Chain (UsesLatest steps) steps (l ++ [m])) (hi : i ∈ l) : i < m := by
  have hup : (l ++ [m]).Pairwise (· < ·) :=
    List.isChain_iff_pairwise.1 (h.linked.imp fun _ _ huse => huse.toUses.1)
  exact (List.pairwise_append.1 hup).2.2 i hi m (List.mem_singleton_self m)

end Chain

/-! ## The pass over the steps -/

theorem DerivesLast.unique (h : DerivesLast steps m id i) (h' : DerivesLast steps m id j) :
    i = j := by
  obtain ⟨hi, ⟨s, hs, hsid⟩, hlast⟩ := h
  obtain ⟨hj, ⟨t, ht, htid⟩, hlast'⟩ := h'
  rcases Nat.lt_trichotomy i j with hij | hij | hij
  · exact absurd htid (hlast j hij hj t ht)
  · exact hij
  · exact absurd hsid (hlast' i hij hi s hs)

theorem derivesLast_succ (hstep : steps[m]? = some step) : DerivesLast steps (m + 1) id i ↔
    (i = m ∧ step.derived.digest = id) ∨
      (step.derived.digest ≠ id ∧ DerivesLast steps m id i) := by
  constructor
  · rintro ⟨hi, ⟨s, hs, hsid⟩, hlast⟩
    rcases Nat.lt_succ_iff_lt_or_eq.1 hi with him | rfl
    · exact .inr ⟨hlast m him (Nat.lt_succ_self m) step hstep, him, ⟨s, hs, hsid⟩,
        fun k hik hkm => hlast k hik (Nat.lt_succ_of_lt hkm)⟩
    · rw [hstep, Option.some.injEq] at hs
      subst hs
      exact .inl ⟨rfl, hsid⟩
  · rintro (⟨rfl, hid⟩ | ⟨hne, him, hs, hlast⟩)
    · exact ⟨Nat.lt_succ_self i, ⟨step, hstep, hid⟩, fun k hik hki => by omega⟩
    · refine ⟨Nat.lt_succ_of_lt him, hs, fun k hik hk u hu => ?_⟩
      rcases Nat.lt_succ_iff_lt_or_eq.1 hk with hkm | rfl
      · exact hlast k hik hkm u hu
      · rw [hstep, Option.some.injEq] at hu
        subst hu
        exact hne

/-- Whether the longest chains that end with a step have a number of steps. -/
def Height (steps : List ProofStep) (i n : Nat) : Prop :=
  IsGreatest {n | ∃ l, Chain (UsesLatest steps) steps (l ++ [i]) ∧ n = l.length + 1} n

/-- What is known when the steps in front of a position were gone through. -/
structure Leveled (steps : List ProofStep) (m : Nat) (levels : Levels) (deepest : Nat) : Prop where
  /-- A digest has the level of the step that derived it last. -/
  height : ∀ id i, DerivesLast steps m id i → ∃ n, levels.lookup id = some n ∧ Height steps i n
  /-- Only digests that were derived have a level. -/
  derived : ∀ id n, levels.lookup id = some n → ∃ i, DerivesLast steps m id i
  /-- The chains so far are no longer than the highest level. -/
  deepest : IsGreatest {n | ∃ l, Chain (UsesLatest steps) steps l ∧ (∀ i ∈ l, i < m) ∧
    n = l.length} deepest

theorem leveled_zero (steps : List ProofStep) : Leveled steps 0 [] 0 where
  height := fun _ i h => absurd h.1 (Nat.not_lt_zero i)
  derived := fun _ _ h => by cases h
  deepest := by
    refine ⟨⟨[], ⟨by simp, .nil⟩, by simp, rfl⟩, ?_⟩
    rintro n ⟨l, -, hl, rfl⟩
    cases l with
    | nil => exact Nat.le_refl 0
    | cons i l => exact absurd (hl i List.mem_cons_self) (Nat.not_lt_zero i)

namespace Leveled

variable (h : Leveled steps m levels deepest) (hstep : steps[m]? = some step)

include h hstep

/-- The level of a step is the length of the longest chains that it ends. -/
theorem height_stepLevel : Height steps m (stepLevel levels step.premises) := by
  have hm : m < steps.length := (List.getElem?_eq_some_iff.1 hstep).1
  obtain ⟨hmem, hle⟩ := isGreatest_stepLevel levels step.premises
  constructor
  · rcases hmem with heq | ⟨id, hid, n, hn, heq⟩
    · exact ⟨[], Chain.append_singleton_iff.2 ⟨⟨by simp, .nil⟩, hm, by simp⟩, by simp [heq]⟩
    · obtain ⟨i, hi⟩ := h.derived id n hn
      obtain ⟨n', hn', ⟨l, hl, hlength⟩, -⟩ := h.height id i hi
      rw [hn, Option.some.injEq] at hn'
      subst hn'
      refine ⟨l ++ [i], Chain.append_singleton_iff.2 ⟨hl, hm, ?_⟩, by simp [heq, hlength]⟩
      simpa using ⟨step, hstep, id, hid, hi⟩
  · rintro n ⟨l, hl, rfl⟩
    obtain ⟨hchain, -, hlast⟩ := Chain.append_singleton_iff.1 hl
    rcases List.eq_nil_or_concat l with rfl | ⟨l, i, rfl⟩
    · exact hle (.inl rfl)
    · rw [List.concat_eq_append] at hchain hlast ⊢
      obtain ⟨t, ht, id, hid, hi⟩ := hlast i (by simp)
      rw [hstep, Option.some.injEq] at ht
      subst ht
      obtain ⟨n, hn, -, hgreatest⟩ := h.height id i hi
      have hlength : l.length + 1 ≤ n := hgreatest ⟨l, hchain, rfl⟩
      have hlevel : n + 1 ≤ stepLevel levels step.premises := hle (.inr ⟨id, hid, n, hn, rfl⟩)
      rw [List.length_append, List.length_singleton]
      omega

theorem succ : Leveled steps (m + 1)
    ((step.derived.digest, stepLevel levels step.premises) :: levels)
    (max deepest (stepLevel levels step.premises)) := by
  have hlevel := h.height_stepLevel hstep
  refine ⟨fun id i hi => ?_, fun id n hn => ?_, ?_, ?_⟩
  · rcases (derivesLast_succ hstep).1 hi with ⟨rfl, rfl⟩ | ⟨hne, hi⟩
    · exact ⟨_, by simp, hlevel⟩
    · obtain ⟨n, hn, hheight⟩ := h.height id i hi
      exact ⟨n, by rw [List.lookup_cons, beq_eq_false_iff_ne.2 (Ne.symm hne), hn], hheight⟩
  · rw [List.lookup_cons] at hn
    split at hn
    · next heq => exact ⟨m, (derivesLast_succ hstep).2 (.inl ⟨rfl, (beq_iff_eq.1 heq).symm⟩)⟩
    · next hne =>
      obtain ⟨i, hi⟩ := h.derived id n hn
      exact ⟨i, (derivesLast_succ hstep).2 (.inr ⟨Ne.symm (beq_eq_false_iff_ne.1 hne), hi⟩)⟩
  · rcases Nat.le_total (stepLevel levels step.premises) deepest with hle | hle
    · obtain ⟨l, hl, hbelow, hlength⟩ := h.deepest.1
      refine ⟨l, hl, fun i hi => Nat.lt_succ_of_lt (hbelow i hi), ?_⟩
      rw [Nat.max_eq_left hle, hlength]
    · obtain ⟨l, hl, hlength⟩ := hlevel.1
      refine ⟨l ++ [m], hl, fun i hi => ?_, ?_⟩
      · rcases List.mem_append.1 hi with hi | hi
        · exact Nat.lt_succ_of_lt (hl.lt_of_mem hi)
        · exact List.mem_singleton.1 hi ▸ Nat.lt_succ_self m
      · rw [Nat.max_eq_right hle, hlength, List.length_append, List.length_singleton]
  · rintro n ⟨l, hl, hbelow, rfl⟩
    rcases List.eq_nil_or_concat l with rfl | ⟨l, i, rfl⟩
    · exact Nat.zero_le _
    · rw [List.concat_eq_append] at hl hbelow ⊢
      -- The last position is the greatest, so either the new step ends the chain or all were known.
      rcases Nat.lt_succ_iff_lt_or_eq.1 (hbelow i (by simp)) with hi | rfl
      · refine (h.deepest.2 ⟨l ++ [i], hl, fun k hk => ?_, rfl⟩).trans (Nat.le_max_left ..)
        rcases List.mem_append.1 hk with hk | hk
        · exact (hl.lt_of_mem hk).trans hi
        · exact List.mem_singleton.1 hk ▸ hi
      · rw [List.length_append, List.length_singleton]
        exact (hlevel.2 ⟨l, hl, rfl⟩).trans (Nat.le_max_right ..)

end Leveled

/-- The pass ends with the length of the longest chain. -/
theorem Leveled.exists_depthFrom (h : Leveled steps m levels deepest)
    (hlimit : ∀ s ∈ steps, s.derived.WithinLimit) : ∃ k,
      depthFrom levels deepest (steps.drop m) = .ok k ∧
      IsGreatest {n | ∃ l, Chain (UsesLatest steps) steps l ∧ n = l.length} k := by
  generalize hrest : steps.drop m = rest
  induction rest generalizing m levels deepest with
  | nil =>
    refine ⟨deepest, rfl, ?_, ?_⟩
    · obtain ⟨l, hl, -, hlength⟩ := h.deepest.1
      exact ⟨l, hl, hlength⟩
    · rintro n ⟨l, hl, rfl⟩
      exact h.deepest.2 ⟨l, hl,
        fun i hi => (hl.inside i hi).trans_le (List.drop_eq_nil_iff.1 hrest), rfl⟩
  | cons step rest ih =>
    have hstep : steps[m]? = some step := by
      rw [← List.head?_drop, hrest, List.head?_cons]
    have hnext : steps.drop (m + 1) = rest := by
      rw [← List.tail_drop, hrest, List.tail_cons]
    rw [depthFrom_cons (hlimit step (List.mem_of_getElem? hstep))]
    exact ih (h.succ hstep) hnext

/-- The depth of a proof is the length of the longest chain of steps each of which uses what the one
before it derives and no step between them derives again. It is zero only without steps. If no two
steps derive one fact, it is the length of the longest chain of steps each of which uses what the
one before it derives. -/
theorem depth_isGreatest {p : Proof} (hlimit : ∀ s ∈ p.steps, s.derived.WithinLimit) :
    ∃ k, p.depth = .ok k ∧
      IsGreatest {n | ∃ l, Chain (UsesLatest p.steps) p.steps l ∧ n = l.length} k ∧
      (k = 0 ↔ p.steps = []) ∧
      (∃ l, Chain (Uses p.steps) p.steps l ∧ k = l.length) ∧
      ((p.steps.map fun s => s.derived.digest).Nodup →
        IsGreatest {n | ∃ l, Chain (Uses p.steps) p.steps l ∧ n = l.length} k) := by
  obtain ⟨k, hk, hgreatest⟩ := (leveled_zero p.steps).exists_depthFrom hlimit
  obtain ⟨l, hl, hlength⟩ := hgreatest.1
  have huses : Chain (Uses p.steps) p.steps l := hl.imp fun _ _ huse => huse.toUses
  refine ⟨k, hk, hgreatest, ⟨fun hzero => ?_, fun hnil => ?_⟩, ⟨l, huses, hlength⟩,
    fun hnodup => ⟨⟨l, huses, hlength⟩, ?_⟩⟩
  · by_contra hne
    have hfirst : Chain (UsesLatest p.steps) p.steps [0] :=
      ⟨by simpa using List.length_pos_iff.2 hne, .singleton 0⟩
    have hle : 1 ≤ k := hgreatest.2 ⟨[0], hfirst, rfl⟩
    omega
  · cases l with
    | nil => exact hlength
    | cons i l =>
      have hi := hl.inside i List.mem_cons_self
      rw [hnil] at hi
      cases hi
  · rintro n ⟨l, hl, rfl⟩
    exact hgreatest.2 ⟨l, hl.imp fun _ _ huse => huse.latest hnodup, rfl⟩

/-- A fact that is derived from another one and then without premises. The last step uses it, and
from there the chain back has two steps, while one of three steps goes by way of the earlier
derivation. -/
theorem depth_isGreatest_rederived :
    let f : Fact := ⟨.named "a", "p", .named "b"⟩
    let g : Fact := ⟨.named "a", "p", .named "c"⟩
    let h : Fact := ⟨.named "a", "p", .named "d"⟩
    let steps : List ProofStep :=
      [⟨"r", [], f⟩, ⟨"r", [f.digest], g⟩, ⟨"r", [], g⟩, ⟨"r", [g.digest], h⟩]
    let p : Proof := ⟨h, steps⟩
    (∀ s ∈ p.steps, s.derived.WithinLimit) ∧ p.depth = .ok 2 ∧
      IsGreatest {n | ∃ l, Chain (UsesLatest p.steps) p.steps l ∧ n = l.length} 2 ∧
      Chain (Uses p.steps) p.steps [0, 1, 3] := by
  intro f g h steps p
  have hlimit : ∀ s ∈ p.steps, s.derived.WithinLimit := by
    have hfields : ∀ s ∈ p.steps, ∀ t ∈ s.derived.fields, t.length ≤ fieldLimit := by decide +kernel
    exact hfields
  have htwo : p.depth = .ok 2 := by decide +kernel
  obtain ⟨k, hk, hgreatest, -⟩ := depth_isGreatest hlimit
  rw [htwo, Except.ok.injEq] at hk
  subst hk
  have hfirst : Uses p.steps 0 1 := ⟨by decide, _, _, rfl, rfl, List.mem_singleton_self _⟩
  have hsecond : Uses p.steps 1 3 := ⟨by decide, _, _, rfl, rfl, List.mem_singleton_self _⟩
  refine ⟨hlimit, htwo, hgreatest, by decide, ?_⟩
  exact .cons_cons hfirst (.cons_cons hsecond (.singleton 3))

end Proof

end FactGraph
