import Mathlib.Data.List.Perm.Subperm
import Mathlib.Logic.Relation
import FactGraph.Proofs.Overlay
import FactGraph.Validation

/-!
# Which nodes are reached from a node

Facts with a predicate are the edges of a graph of nodes. The search for a node along such edges
keeps the nodes that it has met and those that it still has to follow (`Explored`): all nodes met
are reached from the first one, and the edges of those that were followed lead to nodes met. As
there are not more edges than the view says, the search comes to its end before it has to stop, so
that its answer is the right one (`Schema.reaches_iff`).
-/

namespace FactGraph

open Relation

variable {v : View} {A asked : Set Fact} {p : Text} {m n start target : Node}

/-- Whether a member of a set leads from a node to another one by a predicate. -/
def Edge (A : Set Fact) (p : Text) (m n : Node) : Prop := (⟨m, p, .node n⟩ : Fact) ∈ A

theorem Edge.mono {B : Set Fact} (h : A ⊆ B) (hedge : Edge A p m n) : Edge B p m n := h hedge

/-- What is reached by steps along edges is the first node or the object of a fact. -/
theorem View.Bounds.exists_reached (hbounds : v.Bounds A) {R : Node → Node → Prop}
    (hR : ∀ m n, R m n → ∃ p, Edge A p m n) (start : Node) :
    ∃ nodes : List Node, nodes.length ≤ v.extent + 1 ∧
      ∀ n, ReflTransGen R start n → n ∈ nodes := by
  obtain ⟨facts, hfacts, hextent⟩ := hbounds
  refine ⟨start :: facts.filterMap fun f => f.object.node?, ?_, fun n hn => ?_⟩
  · have hlength := List.length_filterMap_le (fun f : Fact => f.object.node?) facts
    simp only [List.length_cons]
    omega
  · rcases hn.cases_tail with rfl | ⟨m, -, hstep⟩
    · exact List.mem_cons_self
    · obtain ⟨p, hedge⟩ := hR m n hstep
      exact List.mem_cons_of_mem _ (List.mem_filterMap.2 ⟨_, hfacts _ hedge, rfl⟩)

namespace Schema

/-! ## Meeting nodes -/

/-- Of several nodes, those that were not met are met and pending, each once. -/
theorem foldl_meet (nodes : List Node) (s : List Node × List Node) :
    ∃ new, nodes.foldl meet s = (new ++ s.1, new ++ s.2) ∧ new.Nodup ∧
      ∀ n, n ∈ new ↔ n ∈ nodes ∧ n ∉ s.1 := by
  induction nodes generalizing s with
  | nil => exact ⟨[], rfl, List.nodup_nil, by simp⟩
  | cons m nodes ih =>
    rw [List.foldl_cons]
    by_cases hm : m ∈ s.1
    · have hmeet : meet s m = s := by simp [meet, hm]
      obtain ⟨new, hnew, nodup, hmem⟩ := ih s
      refine ⟨new, by rw [hmeet, hnew], nodup, fun n => ?_⟩
      rw [hmem, List.mem_cons]
      constructor
      · rintro ⟨hn, hout⟩
        exact ⟨Or.inr hn, hout⟩
      · rintro ⟨rfl | hn, hout⟩
        · exact absurd hm hout
        · exact ⟨hn, hout⟩
    · have hmeet : meet s m = (m :: s.1, m :: s.2) := by simp [meet, hm]
      obtain ⟨new, hnew, nodup, hmem⟩ := ih (m :: s.1, m :: s.2)
      simp only [List.mem_cons, not_or] at hmem
      refine ⟨new ++ [m], by simp [hmeet, hnew], ?_, fun n => ?_⟩
      · rw [List.nodup_append]
        refine ⟨nodup, List.nodup_singleton m, ?_⟩
        rintro a ha b hb rfl
        exact ((hmem a).1 ha).2.1 (List.mem_singleton.1 hb)
      · rw [List.mem_append, List.mem_singleton, hmem, List.mem_cons]
        constructor
        · rintro (⟨hn, -, hout⟩ | rfl)
          · exact ⟨Or.inr hn, hout⟩
          · exact ⟨Or.inl rfl, hm⟩
        · rintro ⟨rfl | hn, hout⟩
          · exact Or.inr rfl
          · by_cases heq : n = m
            · exact Or.inr heq
            · exact Or.inl ⟨hn, heq, hout⟩

/-! ## The state of a search -/

/-- What holds of the nodes met and the nodes pending in a search from one node for another. -/
structure Explored (A : Set Fact) (p : Text) (start target : Node) (met pending : List Node) :
    Prop where
  /-- No node is met twice. -/
  nodup : met.Nodup
  /-- The first node is met. -/
  start_mem : start ∈ met
  /-- Pending nodes are met. -/
  pending_mem : ∀ n ∈ pending, n ∈ met
  /-- Nodes met are reached. -/
  reached : ∀ n ∈ met, ReflTransGen (Edge A p) start n
  /-- A node that is not pending any more is not the target, and its edges lead to nodes met. -/
  followed : ∀ n ∈ met, n ∉ pending → n ≠ target ∧ ∀ m, Edge A p n m → m ∈ met

variable {met pending : List Node}

theorem explored_start : Explored A p start target [start] [start] where
  nodup := List.nodup_singleton start
  start_mem := List.mem_singleton_self start
  pending_mem := fun _ hn => hn
  reached := fun n hn => by rw [List.mem_singleton.1 hn]
  followed := fun _ hn hout => absurd hn hout

namespace Explored

/-- Without pending nodes, what is reached was met, and the target is not. -/
theorem not_reached (h : Explored A p start target met []) :
    ¬ ReflTransGen (Edge A p) start target := by
  intro hreach
  have hmet : ∀ n, ReflTransGen (Edge A p) start n → n ∈ met := by
    intro n hn
    induction hn with
    | refl => exact h.start_mem
    | tail _ hedge ih => exact (h.followed _ ih List.not_mem_nil).2 _ hedge
  exact (h.followed target (hmet target hreach) List.not_mem_nil).1 rfl

/-- A pending node that is not the target is followed: the ends of its edges that were not met are
met and pending. -/
theorem follow {new edges : List Node} (h : Explored A p start target met (n :: pending))
    (hn : n ≠ target) (hedges : ∀ m, m ∈ edges ↔ Edge A p n m) (nodup : new.Nodup)
    (hnew : ∀ m, m ∈ new ↔ m ∈ edges ∧ m ∉ met) :
    Explored A p start target (new ++ met) (new ++ pending) where
  nodup := by
    rw [List.nodup_append]
    refine ⟨nodup, h.nodup, ?_⟩
    rintro a ha b hb rfl
    exact ((hnew a).1 ha).2 hb
  start_mem := List.mem_append_right new h.start_mem
  pending_mem := by
    intro m hm
    rcases List.mem_append.1 hm with hm | hm
    · exact List.mem_append_left met hm
    · exact List.mem_append_right new (h.pending_mem m (List.mem_cons_of_mem n hm))
  reached := by
    intro m hm
    rcases List.mem_append.1 hm with hm | hm
    · have hedge : Edge A p n m := (hedges m).1 ((hnew m).1 hm).1
      exact (h.reached n (h.pending_mem n List.mem_cons_self)).tail hedge
    · exact h.reached m hm
  followed := by
    intro m hm hout
    rw [List.mem_append, not_or] at hout
    have hmet : m ∈ met := (List.mem_append.1 hm).resolve_left hout.1
    by_cases heq : m = n
    · subst heq
      refine ⟨hn, fun k hk => List.mem_append.2 ?_⟩
      by_cases hkmet : k ∈ met
      · exact Or.inr hkmet
      · exact Or.inl ((hnew k).2 ⟨(hedges k).2 hk, hkmet⟩)
    · have hpending : m ∉ n :: pending := by
        rw [List.mem_cons, not_or]
        exact ⟨heq, hout.2⟩
      obtain ⟨hne, hclosed⟩ := h.followed m hmet hpending
      exact ⟨hne, fun k hk => List.mem_append_right new (hclosed k hk)⟩

end Explored

/-! ## The search -/

/-- What is found of a node are the edges that leave it. -/
theorem mem_ends_of_find (hv : v.Shows A asked) {edges : List Fact}
    (h : v.find (.leaving n (some p)) = .ok edges) (m : Node) :
    m ∈ edges.filterMap (fun e => e.object.node?) ↔ Edge A p n m := by
  rw [List.mem_filterMap]
  constructor
  · rintro ⟨⟨subject, predicate, object⟩, he, hm⟩
    obtain ⟨hA, haccepts⟩ := hv.find _ _ h (fun f hf => by cases hf) _ he
    simp only [Query.accepts, Query.leaving, Query.agrees, Bool.and_true, Bool.and_eq_true,
      beq_iff_eq] at haccepts
    obtain ⟨rfl, rfl⟩ := haccepts
    cases object with
    | node k =>
      cases hm
      exact hA
    | _ => cases hm
  · intro hedge
    refine ⟨_, hv.mem_find _ _ h _ hedge ?_, rfl⟩
    simp [Query.accepts, Query.leaving, Query.agrees]

/-- A search that can still follow as many nodes as there are pending ones and ones not met finds
out whether the target is reached. -/
theorem Explored.reaches_iff (hv : v.Shows A asked) {nodes : List Node}
    (hnodes : ∀ n, ReflTransGen (Edge A p) start n → n ∈ nodes) {count : Nat}
    (h : Explored A p start target met pending)
    (hcount : pending.length + nodes.length ≤ count + met.length) {b : Bool}
    (hb : reaches v p target count met pending = .ok b) :
    b = true ↔ ReflTransGen (Edge A p) start target := by
  have hmet : met.length ≤ nodes.length :=
    (h.nodup.subperm fun n hn => hnodes n (h.reached n hn)).length_le
  induction count generalizing met pending with
  | zero =>
    -- All nodes are met, and none is pending.
    have hempty : pending = [] := List.length_eq_zero_iff.1 (by omega)
    subst hempty
    cases hb
    simpa using h.not_reached
  | succ count ih =>
    cases pending with
    | nil =>
      cases hb
      simpa using h.not_reached
    | cons n pending =>
      rw [reaches] at hb
      split at hb
      · next heq =>
        rw [beq_iff_eq] at heq
        cases hb
        subst heq
        simpa using h.reached n (h.pending_mem n List.mem_cons_self)
      · next hne =>
        have hn : n ≠ target := fun heq => hne (beq_iff_eq.2 heq)
        obtain ⟨edges, hedges, hb⟩ := bind_eq_ok.1 hb
        obtain ⟨new, hnew, nodup, hmem⟩ :=
          foldl_meet (edges.filterMap fun e => e.object.node?) (met, pending)
        simp only [hnew] at hb
        have hnext := h.follow hn (mem_ends_of_find hv hedges) nodup hmem
        refine ih hnext ?_ hb ?_
        · simp only [List.length_append, List.length_cons] at hcount ⊢
          omega
        · exact (hnext.nodup.subperm fun n hn => hnodes n (hnext.reached n hn)).length_le

theorem exists_reached (hbounds : v.Bounds A) (p : Text) (start : Node) :
    ∃ nodes : List Node, nodes.length ≤ v.extent + 1 ∧
      ∀ n, ReflTransGen (Edge A p) start n → n ∈ nodes :=
  hbounds.exists_reached (fun _ _ hedge => ⟨p, hedge⟩) start

/-- A search that may follow one node more than the view has edges finds out whether the target is
reached. -/
theorem reaches_iff (hv : v.Shows A asked) (hbounds : v.Bounds A) {b : Bool}
    (hb : reaches v p target (v.extent + 1) [start] [start] = .ok b) :
    b = true ↔ ReflTransGen (Edge A p) start target := by
  obtain ⟨nodes, hlength, hnodes⟩ := exists_reached hbounds p start
  refine explored_start.reaches_iff hv hnodes ?_ hb
  simp only [List.length_singleton]
  omega

/-- A search goes through if the edges of all nodes that are reached can be looked up. -/
theorem exists_reaches (hv : v.Shows A asked) {P : Node → Prop}
    (hfind : ∀ n, P n → ∃ l, v.find (.leaving n (some p)) = .ok l)
    (hedge : ∀ m n, P m → Edge A p m n → P n) (count : Nat) (hpending : ∀ n ∈ pending, P n) :
    ∃ b, reaches v p target count met pending = .ok b := by
  induction count generalizing met pending with
  | zero => exact ⟨false, rfl⟩
  | succ count ih =>
    cases pending with
    | nil => exact ⟨false, rfl⟩
    | cons n pending =>
      rw [List.forall_mem_cons] at hpending
      rw [reaches]
      split
      · exact ⟨true, rfl⟩
      · obtain ⟨edges, hedges⟩ := hfind n hpending.1
        obtain ⟨new, hnew, -, hmem⟩ :=
          foldl_meet (edges.filterMap fun e => e.object.node?) (met, pending)
        simp only [hedges, bind, Except.bind, hnew]
        refine ih fun m hm => ?_
        rcases List.mem_append.1 hm with hm | hm
        · exact hedge n m hpending.1 ((mem_ends_of_find hv hedges m).1 ((hmem m).1 hm).1)
        · exact hpending.2 m hm

end Schema
end FactGraph
