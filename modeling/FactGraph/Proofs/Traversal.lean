import FactGraph.Proofs.Materialization
import FactGraph.Proofs.Reachability
import FactGraph.Proofs.Ties
import FactGraph.Store.Traversal

/-!
# What a traversal reaches

A traversal follows facts depth first and marks a node when it is met, so that no node is pending
twice. The nodes met are reached from the start, and the facts of every node met lead to nodes met
unless the node is still pending (`Traversal.Explored`); with nothing pending, everything that can
be reached was met. `Traversal.Ends` is the loop without a bound on the number of rounds: it comes
to its end on every graph, and before the bound (`Traversal.Explored.ends`).

The facts of a node are sorted before they are followed, and facts that lead to nodes do not tie, so
that the order in which they are found does not matter (`Traversal.follow_congr`).
-/

namespace FactGraph

open Relation

variable {v v' : View} {A asked : Set Fact} {predicates : List Text} {m n start : Node}

/-- Whether a member of a set leads from a node to another one, by any of some predicates, or by any
predicate if none is given. -/
def Leads (A : Set Fact) (predicates : List Text) (m n : Node) : Prop :=
  ∃ p, (predicates = [] ∨ p ∈ predicates) ∧ Edge A p m n

/-- Where two steps are tried on all members of a list, what comes of each member is related if what
comes of the steps is. -/
theorem forall₂_of_mapM_mapM {ε α β : Type} {step step' : α → Except ε β} {R : β → β → Prop}
    {l : List α} {l₁ l₂ : List β} (h₁ : l.mapM step = .ok l₁) (h₂ : l.mapM step' = .ok l₂)
    (h : ∀ a ∈ l, ∀ b b', step a = .ok b → step' a = .ok b' → R b b') : List.Forall₂ R l₁ l₂ := by
  have hall₁ := forall₂_of_mapM h₁
  have hall₂ := forall₂_of_mapM h₂
  clear h₁ h₂
  induction hall₁ generalizing l₂ with
  | nil =>
    cases hall₂
    exact .nil
  | cons hb _ ih =>
    rw [List.forall_mem_cons] at h
    cases hall₂ with
    | cons hb' hrest => exact .cons (h.1 _ _ hb hb') (ih h.2 hrest)

namespace Traversal

variable {t t' : Traversal} {R : Node → Node → Prop} {nodes : List Node} {rounds rounds' : Nat}

/-! ## Meeting nodes -/

/-- A traversal that has met some more nodes, the latest one first. -/
def grow (t : Traversal) (new : List Node) : Traversal :=
  ⟨t.reached ++ new.reverse, new ++ t.met, new ++ t.pending⟩

theorem exists_grow (nodes : List Node) (t : Traversal) :
    ∃ new, nodes.foldl meet t = t.grow new := by
  induction nodes generalizing t with
  | nil => exact ⟨[], by simp [grow]⟩
  | cons n nodes ih =>
    rw [List.foldl_cons, meet]
    split
    · exact ih t
    · obtain ⟨new, hnew⟩ := ih (t.grow [n])
      refine ⟨new ++ [n], Eq.trans hnew ?_⟩
      simp [grow]

theorem schema_meet_eq (t : Traversal) (n : Node) :
    Schema.meet (t.met, t.pending) n = ((meet t n).met, (meet t n).pending) := by
  rw [Schema.meet, meet]
  split <;> rfl

/-- Of several nodes, those that were not met are met, each once. -/
theorem foldl_meet (nodes : List Node) (t : Traversal) : ∃ new,
    nodes.foldl meet t = t.grow new ∧ new.Nodup ∧ ∀ n, n ∈ new ↔ n ∈ nodes ∧ n ∉ t.met := by
  obtain ⟨new, hnew⟩ := exists_grow nodes t
  -- The nodes met and those pending are the same as in the search for a single node.
  obtain ⟨met, hmet, nodup, hmem⟩ := Schema.foldl_meet nodes (t.met, t.pending)
  rw [List.foldl_hom (fun t : Traversal => (t.met, t.pending)) schema_meet_eq, hnew] at hmet
  obtain rfl := List.append_cancel_right (Prod.mk.inj hmet).1
  exact ⟨new, hnew, nodup, hmem⟩

/-! ## The state of a traversal -/

/-- What holds of the nodes of a traversal from a node along a relation. -/
structure Explored (R : Node → Node → Prop) (start : Node) (t : Traversal) : Prop where
  /-- The nodes met are the start and those reached, the latest one first. -/
  met_eq : t.met = t.reached.reverse ++ [start]
  /-- No node is met twice. -/
  nodup : t.met.Nodup
  /-- Pending nodes are met. -/
  pending_mem : ∀ n ∈ t.pending, n ∈ t.met
  /-- Nodes met are reached. -/
  reached : ∀ n ∈ t.met, ReflTransGen R start n
  /-- What a node leads to that is not pending any more is met. -/
  followed : ∀ n ∈ t.met, n ∉ t.pending → ∀ m, R n m → m ∈ t.met

theorem explored_start : Explored R start (.start start) where
  met_eq := rfl
  nodup := List.nodup_singleton start
  pending_mem := fun _ hn => hn
  reached := fun n hn => by rw [List.mem_singleton.1 hn]
  followed := fun _ hn hout => absurd hn hout

namespace Explored

/-- Following a pending node keeps what holds of a traversal. -/
theorem follow {pending : List Node} (h : Explored R start t) (hpending : t.pending = n :: pending)
    (hnodes : ∀ m, m ∈ nodes ↔ R n m) :
    Explored R start (nodes.foldl meet { t with pending := pending }) := by
  obtain ⟨new, hnew, nodup, hmem⟩ := foldl_meet nodes { t with pending := pending }
  have hn : n ∈ t.met := h.pending_mem n (by simp [hpending])
  rw [hnew, grow]
  refine ⟨?_, ?_, ?_, ?_, ?_⟩
  · simp [h.met_eq]
  · exact List.nodup_append.2 ⟨nodup, h.nodup, fun a ha b hb hab => ((hmem a).1 ha).2 (hab ▸ hb)⟩
  · intro m hm
    rcases List.mem_append.1 hm with hm | hm
    · exact List.mem_append_left t.met hm
    · exact List.mem_append_right new (h.pending_mem m (by simp [hpending, hm]))
  · intro m hm
    rcases List.mem_append.1 hm with hm | hm
    · exact (h.reached n hn).tail ((hnodes m).1 ((hmem m).1 hm).1)
    · exact h.reached m hm
  · intro m hm hout k hk
    rw [List.mem_append, not_or] at hout
    have hmet := (List.mem_append.1 hm).resolve_left hout.1
    by_cases heq : m = n
    · subst heq
      by_cases hkmet : k ∈ t.met
      · exact List.mem_append_right new hkmet
      · exact List.mem_append_left t.met ((hmem k).2 ⟨(hnodes k).2 hk, hkmet⟩)
    · have hpending' : m ∉ t.pending := by simp [hpending, heq, hout.2]
      exact List.mem_append_right new (h.followed m hmet hpending' k hk)

/-- Without pending nodes, the nodes reached are those other than the start to which some steps
lead. -/
theorem mem_reached_iff (h : Explored R start t) (hpending : t.pending = []) :
    n ∈ t.reached ↔ n ≠ start ∧ TransGen R start n := by
  have hmet : ∀ n, n ∈ t.met ↔ n ∈ t.reached ∨ n = start := by simp [h.met_eq]
  have hstart : start ∉ t.reached := by
    have nodup := h.nodup
    rw [h.met_eq, List.nodup_append] at nodup
    intro hmem
    exact nodup.2.2 start (List.mem_reverse.2 hmem) start (List.mem_singleton_self start) rfl
  have hclosed : ∀ n, ReflTransGen R start n → n ∈ t.met := by
    intro n hn
    induction hn with
    | refl => exact (hmet start).2 (.inr rfl)
    | tail _ hstep ih => exact h.followed _ ih (by simp [hpending]) _ hstep
  constructor
  · intro hn
    have hne : n ≠ start := fun heq => hstart (heq ▸ hn)
    have hreach := h.reached n ((hmet n).2 (.inl hn))
    exact ⟨hne, (reflTransGen_iff_eq_or_transGen.1 hreach).resolve_left hne⟩
  · rintro ⟨hne, hreach⟩
    exact ((hmet n).1 (hclosed n hreach.to_reflTransGen)).resolve_right hne

theorem nodup_reached (h : Explored R start t) : t.reached.Nodup := by
  have nodup := h.nodup
  rw [h.met_eq, List.nodup_append, List.nodup_reverse] at nodup
  exact nodup.1

end Explored

/-! ## Following facts -/

/-- The fact of an edge is accepted by the query for what leaves its subject. -/
theorem accepts_leaving_iff {f : Fact} {p : Option Text} :
    (Query.leaving n p).accepts f = true ↔ f.subject = n ∧ ∀ q ∈ p, f.predicate = q := by
  cases p with
  | none => simp [Query.accepts, Query.leaving, Query.agrees, eq_comm (a := n)]
  | some p =>
    simp [Query.accepts, Query.leaving, Query.agrees, eq_comm (a := n), eq_comm (a := p)]

/-- What is found of a node are the facts that leave it. -/
theorem mem_edges_iff (hv : v.Shows A asked) {found : List Fact}
    (h : edges v predicates n = .ok found) (f : Fact) : f ∈ found ↔
      f ∈ A ∧ f.subject = n ∧ (predicates = [] ∨ f.predicate ∈ predicates) := by
  have hfind : ∀ p l, v.find (.leaving n p) = .ok l →
      (f ∈ l ↔ f ∈ A ∧ f.subject = n ∧ ∀ q ∈ p, f.predicate = q) := by
    intro p l hl
    rw [← accepts_leaving_iff]
    refine ⟨fun hf => hv.find _ _ hl (fun g hg => ?_) f hf,
      fun hf => hv.mem_find _ _ hl f hf.1 hf.2⟩
    cases p <;> cases hg
  rw [edges] at h
  split at h
  · next hempty =>
    rw [List.isEmpty_iff] at hempty
    subst hempty
    simpa using hfind none found h
  · next hempty =>
    rw [List.isEmpty_iff] at hempty
    obtain ⟨each, heach, h⟩ := bind_eq_ok.1 h
    rw [← pure_eq_ok.1 h, mem_flatten_of_mapM heach]
    constructor
    · rintro ⟨p, hp, l, hl, hf⟩
      obtain ⟨hA, hsubject, hpredicate⟩ := (hfind (some p) l hl).1 hf
      exact ⟨hA, hsubject, .inr (hpredicate p rfl ▸ hp)⟩
    · rintro ⟨hA, hsubject, hpredicate⟩
      have hmem := hpredicate.resolve_left hempty
      obtain ⟨l, hl⟩ := exists_of_mapM heach hmem
      exact ⟨f.predicate, hmem, l, hl, (hfind _ l hl).2 ⟨hA, hsubject, by simp⟩⟩

/-- The nodes to which a node leads are the objects of what is found of it. -/
theorem mem_ends_iff (hv : v.Shows A asked) {found : List Fact}
    (h : edges v predicates n = .ok found) (m : Node) :
    m ∈ (Fact.sort found).filterMap (fun f => f.object.node?) ↔ Leads A predicates n m := by
  simp only [List.mem_filterMap, Fact.mem_sort, mem_edges_iff hv h]
  constructor
  · rintro ⟨⟨subject, p, object⟩, ⟨hA, rfl, hp⟩, hm⟩
    cases object with
    | node k =>
      cases hm
      exact ⟨p, hp, hA⟩
    | _ => cases hm
  · rintro ⟨p, hp, hedge⟩
    exact ⟨_, ⟨hedge, rfl, hp⟩, rfl⟩

theorem follow_of_edges {found : List Fact} (h : edges v predicates n = .ok found) :
    follow v predicates t n =
      .ok (((Fact.sort found).filterMap fun f => f.object.node?).foldl meet t) := by
  rw [follow, h]
  rfl

/-! ## The loop -/

/-- How a traversal ends: with nothing pending, or as it ends after the facts of the first pending
node were followed. The last number counts the nodes that are followed. -/
inductive Ends (v : View) (predicates : List Text) : Traversal → List Node → Nat → Prop
  /-- Nothing is pending. -/
  | exhausted {t : Traversal} (hpending : t.pending = []) : Ends v predicates t t.reached 0
  /-- The facts of a node are followed. -/
  | follow {t t' : Traversal} {n : Node} {pending reached : List Node} {rounds : Nat}
    (hpending : t.pending = n :: pending)
    (hfollow : follow v predicates { t with pending := pending } n = .ok t')
    (hrest : Ends v predicates t' reached rounds) : Ends v predicates t reached (rounds + 1)

/-- A traversal that may follow as many nodes as the loop follows reaches what the loop reaches. -/
theorem Ends.run_eq {reached : List Node} (h : Ends v predicates t reached rounds) {count : Nat}
    (hcount : rounds ≤ count) : Traversal.reached <$> run v predicates count t = .ok reached := by
  induction h generalizing count with
  | exhausted hpending =>
    cases count with
    | zero => rfl
    | succ count => simp only [run, hpending]; rfl
  | follow hpending hfollow _ ih =>
    obtain ⟨count, rfl⟩ := Nat.exists_eq_add_of_le' (Nat.le_of_add_left_le hcount)
    simp only [run, hpending, hfollow, bind, Except.bind]
    exact ih (by omega)

theorem Ends.reached_eq {reached reached' : List Node} (h : Ends v predicates t reached rounds)
    (h' : Ends v predicates t reached' rounds') : reached = reached' := by
  have hrun := h.run_eq (le_max_left rounds rounds')
  rw [h'.run_eq (le_max_right rounds rounds'), Except.ok.injEq] at hrun
  exact hrun.symm

/-- The loop ends before as many nodes were followed as are pending or not met yet, if the facts of
all nodes that are reached can be looked up. -/
theorem Explored.ends (hv : v.Shows A asked)
    (hnodes : ∀ n, ReflTransGen (Leads A predicates) start n → n ∈ nodes)
    (hfind : ∀ n, ReflTransGen (Leads A predicates) start n → ∃ l, edges v predicates n = .ok l)
    {count : Nat} (h : Explored (Leads A predicates) start t)
    (hcount : t.pending.length + nodes.length ≤ count + t.met.length) :
    ∃ t' rounds, rounds ≤ count ∧ Ends v predicates t t'.reached rounds ∧
      Explored (Leads A predicates) start t' ∧ t'.pending = [] := by
  have hmet : t.met.length ≤ nodes.length :=
    (h.nodup.subperm fun n hn => hnodes n (h.reached n hn)).length_le
  induction count generalizing t with
  | zero =>
    -- All nodes are met, and none is pending.
    have hempty : t.pending = [] := List.length_eq_zero_iff.1 (by omega)
    exact ⟨t, 0, le_rfl, .exhausted hempty, h, hempty⟩
  | succ count ih =>
    cases hpending : t.pending with
    | nil => exact ⟨t, 0, Nat.zero_le _, .exhausted hpending, h, hpending⟩
    | cons n pending =>
      obtain ⟨found, hfound⟩ := hfind n (h.reached n (h.pending_mem n (by simp [hpending])))
      have hnext := h.follow hpending (mem_ends_iff hv hfound)
      obtain ⟨new, hnew, -⟩ := foldl_meet
        ((Fact.sort found).filterMap fun f => f.object.node?) { t with pending := pending }
      have hfollow : Traversal.follow v predicates { t with pending := pending } n =
          .ok (grow { t with pending := pending } new) := by
        rw [follow_of_edges hfound, hnew]
      rw [hnew] at hnext
      have hmet' : (new ++ t.met).length ≤ nodes.length :=
        (hnext.nodup.subperm fun n hn => hnodes n (hnext.reached n hn)).length_le
      have hlength : (new ++ pending).length + nodes.length ≤ count + (new ++ t.met).length := by
        simp only [hpending, List.length_append, List.length_cons] at hcount ⊢
        omega
      obtain ⟨t', rounds, hrounds, hends, hexplored, hdone⟩ := ih hnext hlength hmet'
      exact ⟨t', rounds + 1, Nat.succ_le_succ hrounds, .follow hpending hfollow hends, hexplored,
        hdone⟩

/-! ## Facts that are found in another order -/

/-- Facts that lead to nodes are no twins, so that the order in which they are found does not
matter. -/
theorem filterMap_sort_congr {found found' : List Fact} (hperm : found'.Perm found) :
    (Fact.sort found').filterMap (fun f => f.object.node?) =
      (Fact.sort found).filterMap fun f => f.object.node? := by
  have hsorted : (Fact.sort found').filter (fun f => f.object.node?.isSome) =
      (Fact.sort found).filter fun f => f.object.node?.isSome := by
    refine Fact.filter_sort_congr hperm fun f _ g _ hf _ htwins => ?_
    obtain ⟨x, y, hx, -⟩ := htwins.object
    rw [hx] at hf
    cases hf
  have hends : ∀ l : List Fact, (l.filter fun f => f.object.node?.isSome).filterMap
      (fun f => f.object.node?) = l.filterMap fun f => f.object.node? := by
    intro l
    rw [List.filterMap_filter]
    refine List.filterMap_congr fun f _ => ?_
    cases f.object.node? <;> rfl
  rw [← hends, hsorted, hends]

theorem follow_congr {found found' : List Fact} (hfound : edges v predicates n = .ok found)
    (hfound' : edges v' predicates n = .ok found') (hperm : found'.Perm found) :
    follow v' predicates t n = follow v predicates t n := by
  rw [follow_of_edges hfound, follow_of_edges hfound', filterMap_sort_congr hperm]

/-- The loop ends in the same way wherever the same facts are found of all nodes that are
reached. -/
theorem Ends.congr (hv : v.Shows A asked) {reached : List Node}
    (hsame : ∀ n, ReflTransGen (Leads A predicates) start n → ∀ found,
      edges v predicates n = .ok found →
        ∃ found', edges v' predicates n = .ok found' ∧ found'.Perm found)
    (h : Explored (Leads A predicates) start t) (hends : Ends v predicates t reached rounds) :
    Ends v' predicates t reached rounds := by
  induction hends with
  | exhausted hpending => exact .exhausted hpending
  | @follow t t' n pending reached rounds hpending hfollow _ ih =>
    obtain ⟨found, hfound, hmeet⟩ := bind_eq_ok.1 hfollow
    obtain rfl := pure_eq_ok.1 hmeet
    obtain ⟨found', hfound', hperm⟩ :=
      hsame n (h.reached n (h.pending_mem n (by simp [hpending]))) found hfound
    refine .follow hpending ?_ (ih (h.follow hpending (mem_ends_iff hv hfound)))
    rw [follow_congr hfound hfound' hperm]
    exact hfollow

end Traversal

/-! ## Traversing stores -/

namespace Store

variable {s s' : Store}

/-- What holds of a view of a store and of its size. -/
theorem Coherent.bounds_view (hs : s.Coherent) (ho : s.storage.isOpen = true) :
    s.view.Bounds s.content := by
  obtain ⟨l, hl, hlength⟩ := hs.bounds_overlay ho []
  exact ⟨l, fun f hf => hl f (.inl hf), hlength⟩

theorem fact?_leaving (n : Node) (p : Option Text) : (Query.leaving n p).fact? = none := by
  cases p <;> rfl

/-- Of a node within the limit the facts can be looked up. -/
theorem exists_edges (hs : s.storage.Addressed) (ho : s.storage.isOpen = true)
    (hn : (Value.node n).WithinLimit) (predicates : List Text) :
    ∃ found, Traversal.edges s.view predicates n = .ok found := by
  have hfind : ∀ p, ∃ l, s.view.find (.leaving n p) = .ok l := by
    intro p
    refine exists_find_of_fields hs ho ?_ ?_ fun f hf => ?_
    · rintro _ ⟨⟩
      exact hn
    · rintro _ ⟨⟩
    · cases (fact?_leaving n p).symm.trans hf
  rw [Traversal.edges]
  split
  · exact hfind none
  · exact exists_bind (mapM_of_forall_exists fun p _ => hfind (some p)) fun _ _ => ⟨_, rfl⟩

theorem perm_edges (hs : s.Coherent) (hs' : s'.Coherent) (hcontent : s.content = s'.content)
    {found found' : List Fact} (h : Traversal.edges s.view predicates n = .ok found)
    (h' : Traversal.edges s'.view predicates n = .ok found') : found.Perm found' := by
  have hfind : ∀ p l l', s.view.find (.leaving n p) = .ok l →
      s'.view.find (.leaving n p) = .ok l' → l.Perm l' := by
    intro p l l'
    refine hs.perm_find hs' hcontent fun f hf => ?_
    cases (fact?_leaving n p).symm.trans hf
  rw [Traversal.edges] at h h'
  split at h
  · next hempty =>
    rw [if_pos hempty] at h'
    exact hfind none found found' h h'
  · next hempty =>
    rw [if_neg hempty] at h'
    obtain ⟨each, heach, h⟩ := bind_eq_ok.1 h
    obtain ⟨each', heach', h'⟩ := bind_eq_ok.1 h'
    rw [← pure_eq_ok.1 h, ← pure_eq_ok.1 h']
    exact .flatten_congr (forall₂_of_mapM_mapM heach heach' fun p _ => hfind (some p))

/-- What is reached from a node within the limit is within the limit. -/
theorem withinLimit_of_reached (hstart : (Value.node start).WithinLimit)
    (h : ReflTransGen (Leads s.content predicates) start n) : (Value.node n).WithinLimit := by
  rcases h.cases_tail with rfl | ⟨m, -, p, -, hedge⟩
  · exact hstart
  · exact Fact.withinLimit_iff.1 (Storage.withinLimit_of_mem hedge) _ (by simp [Fact.values])

/-- From a node within the limit, the loop ends with the nodes that are reached. -/
theorem exists_ends_view (hs : s.Coherent) (ho : s.storage.isOpen = true)
    (hstart : (Value.node start).WithinLimit) (predicates : List Text) :
    ∃ nodes rounds, rounds ≤ s.view.extent + 1 ∧
      Traversal.Ends s.view predicates (.start start) nodes rounds ∧ nodes.Nodup ∧
      ∀ n, n ∈ nodes ↔ n ≠ start ∧ TransGen (Leads s.content predicates) start n := by
  obtain ⟨nodes, hlength, hnodes⟩ := (hs.bounds_view ho).exists_reached
    (R := Leads s.content predicates) (fun _ _ ⟨p, _, hedge⟩ => ⟨p, hedge⟩) start
  have hv := hs.shows_view hs.addressed.injOn_digest subset_rfl
  have hcount : (Traversal.start start).pending.length + nodes.length ≤
      s.view.extent + 1 + (Traversal.start start).met.length := by
    simp only [Traversal.start, List.length_singleton]
    omega
  obtain ⟨t, rounds, hrounds, hends, hexplored, hdone⟩ :=
    Traversal.explored_start.ends hv hnodes
      (fun n hn => exists_edges hs.addressed ho (withinLimit_of_reached hstart hn) predicates)
      hcount
  exact ⟨t.reached, rounds, hrounds, hends, hexplored.nodup_reached,
    fun n => hexplored.mem_reached_iff hdone⟩

/-- A name over the limit is refused before anything is looked up. -/
theorem traverse_over_limit {name : Text} (hname : fieldLimit < name.length)
    (predicates : List Text) :
    s.traverse (.named name) predicates = .error (.fieldOverLimit name.length) := by
  have hkey : Encoding.nodeKey (.named name) = .error (.fieldOverLimit name.length) := by
    simp [Encoding.nodeKey, Encoding.checkFields, Node.fields, hname, bind, Except.bind]
  have hfind : ∀ p, s.find (.leaving (.named name) p) = .error (.fieldOverLimit name.length) := by
    intro p
    have hany : (Query.leaving (.named name) p).isAny = false := by cases p <;> rfl
    have hcandidates : s.index.candidates (.leaving (.named name) p) =
        .error (.fieldOverLimit name.length) := by
      cases p <;> simp [Index.candidates, Index.buckets?, Query.leaving, hkey, bind, Except.bind]
    simp [find, hany, fact?_leaving, hcandidates, bind, Except.bind]
  have hedges : Traversal.edges s.view predicates (.named name) =
      .error (.fieldOverLimit name.length) := by
    cases predicates with
    | nil => exact hfind none
    | cons p predicates =>
      have hview : s.view.find (.leaving (.named name) (some p)) =
          .error (.fieldOverLimit name.length) := hfind (some p)
      simp [Traversal.edges, List.mapM_cons, hview, bind, Except.bind]
  simp [traverse, Traversal.run, Traversal.start, Traversal.follow, hedges, bind, Except.bind,
    Functor.map, Except.map]

/-- From a node within the limit, a traversal ends, cycles or not, and reaches each node once that
is not the start and to which one or more facts lead, in an order which is that of any other store
with the same facts. A name over the limit is refused, whatever is stored. -/
theorem traverse_reaches (hs : s.Coherent) (ho : s.storage.isOpen = true) (start : Node)
    (predicates : List Text) :
    ((Value.node start).WithinLimit → ∃ nodes, s.traverse start predicates = .ok nodes ∧
      (∃ rounds, rounds ≤ s.view.extent + 1 ∧
        Traversal.Ends s.view predicates (.start start) nodes rounds) ∧
      nodes.Nodup ∧
      (∀ n, n ∈ nodes ↔ n ≠ start ∧ TransGen (Leads s.content predicates) start n) ∧
      ∀ s' : Store, s'.Coherent → s'.storage.isOpen = true → s'.content = s.content →
        s'.traverse start predicates = .ok nodes) ∧
    ∀ name, start = .named name → fieldLimit < name.length →
      s.traverse start predicates = .error (.fieldOverLimit name.length) := by
  refine ⟨fun hstart => ?_, ?_⟩
  · obtain ⟨nodes, rounds, hrounds, hends, nodup, hmem⟩ := exists_ends_view hs ho hstart predicates
    refine ⟨nodes, hends.run_eq hrounds, ⟨rounds, hrounds, hends⟩, nodup, hmem, ?_⟩
    intro s' hs' ho' hcontent
    obtain ⟨nodes', rounds', hrounds', hends', -⟩ := exists_ends_view hs' ho' hstart predicates
    have hv' := hs'.shows_view hs'.addressed.injOn_digest subset_rfl
    have hsame : Traversal.Ends s.view predicates (.start start) nodes' rounds' := by
      refine Traversal.Ends.congr hv' (fun n hn found' hfound' => ?_) Traversal.explored_start
        hends'
      obtain ⟨found, hfound⟩ :=
        exists_edges hs.addressed ho (withinLimit_of_reached hstart hn) predicates
      exact ⟨found, hfound, perm_edges hs hs' hcontent.symm hfound hfound'⟩
    rw [hends.reached_eq hsame]
    exact hends'.run_eq hrounds'
  · rintro name rfl hname
    exact traverse_over_limit hname predicates

/-- Three nodes in a circle, one of which leads to itself too, and another one to a number and, by a
predicate that is not followed, to a fourth node. Two stores of different kinds to which the facts
came in opposite orders agree, and it makes no difference that the predicate is given twice. -/
theorem traverse_reaches_circle :
    let facts : List Fact := [⟨.named "a", "next", .named "b"⟩, ⟨.named "b", "next", .named "b"⟩,
      ⟨.named "b", "next", .named "c"⟩, ⟨.named "c", "next", .named "a"⟩,
      ⟨.named "a", "skip", .named "d"⟩, ⟨.named "a", "next", .integer 1⟩]
    let s := (insertAll { storage := .memory {} } facts).1
    let s' := (insertAll { storage := .table { path := "facts.db" } } facts.reverse).1
    let start : Node := .named "a"
    let predicates : List Text := ["next", "next"]
    (∃ rounds, rounds ≤ s.view.extent + 1 ∧ Traversal.Ends s.view predicates (.start start)
        [.named "b", .named "c"] rounds) ∧
      (∀ n, n ∈ [.named "b", .named "c"] ↔
        n ≠ start ∧ TransGen (Leads s.content predicates) start n) ∧
      s'.traverse start predicates = .ok [.named "b", .named "c"] := by
  intro facts s s' start predicates
  have hfacts : ∀ f ∈ facts, Storable f := by decide +kernel
  have hnodup : (facts.map Fact.digest).Nodup := by decide +kernel
  have inj : Set.InjOn Fact.digest {f | f ∈ facts} := fun f hf g hg =>
    List.inj_on_of_nodup_map hnodup hf hg
  have hreverse : {f | f ∈ facts.reverse} = {f | f ∈ facts} := Set.ext fun f => List.mem_reverse
  have hs : s.Represents facts.toFinset := represents_insertAll hfacts inj
  have hs' : s'.Represents facts.reverse.toFinset :=
    represents_insertAll_over ⟨rfl, rfl, rfl⟩ rfl
      (fun f hf => hfacts f (List.mem_reverse.1 hf)) (hreverse ▸ inj)
  have hcontent : s'.content = s.content := by
    rw [hs.content_eq, hs'.content_eq, List.toFinset_reverse]
  have hstart : (Value.node start).WithinLimit := by
    simp [start, Value.WithinLimit, Value.fields, Node.fields]
    decide
  obtain ⟨nodes, hnodes, hends, -, hmem, hsame⟩ :=
    (traverse_reaches hs.coherent hs.writable.isOpen start predicates).1 hstart
  -- What leaves each node, twice because its predicate is given twice.
  have ha : Traversal.edges s.view predicates (.named "a") = .ok
      [⟨.named "a", "next", .integer 1⟩, ⟨.named "a", "next", .named "b"⟩,
        ⟨.named "a", "next", .integer 1⟩, ⟨.named "a", "next", .named "b"⟩] := by decide +kernel
  have hb : Traversal.edges s.view predicates (.named "b") = .ok
      [⟨.named "b", "next", .named "c"⟩, ⟨.named "b", "next", .named "b"⟩,
        ⟨.named "b", "next", .named "c"⟩, ⟨.named "b", "next", .named "b"⟩] := by decide +kernel
  have hc : Traversal.edges s.view predicates (.named "c") = .ok
      [⟨.named "c", "next", .named "a"⟩, ⟨.named "c", "next", .named "a"⟩] := by decide +kernel
  have hfollow_a : Traversal.follow s.view predicates ⟨[], [.named "a"], []⟩ (.named "a") =
      .ok ⟨[.named "b"], [.named "b", .named "a"], [.named "b"]⟩ := by
    rw [Traversal.follow_of_edges ha]
    cbv
  have hfollow_b : Traversal.follow s.view predicates ⟨[.named "b"], [.named "b", .named "a"], []⟩
      (.named "b") = .ok ⟨[.named "b", .named "c"], [.named "c", .named "b", .named "a"],
        [.named "c"]⟩ := by
    rw [Traversal.follow_of_edges hb]
    cbv
  have hfollow_c : Traversal.follow s.view predicates
      ⟨[.named "b", .named "c"], [.named "c", .named "b", .named "a"], []⟩ (.named "c") =
      .ok ⟨[.named "b", .named "c"], [.named "c", .named "b", .named "a"], []⟩ := by
    rw [Traversal.follow_of_edges hc]
    cbv
  have hloop : Traversal.Ends s.view predicates (.start start) [.named "b", .named "c"] 3 :=
    .follow rfl hfollow_a (.follow rfl hfollow_b (.follow rfl hfollow_c (.exhausted rfl)))
  have hrun : s.traverse start predicates = .ok [.named "b", .named "c"] :=
    hloop.run_eq (by decide +kernel)
  rw [hnodes, Except.ok.injEq] at hrun
  subst hrun
  exact ⟨hends, hmem, hsame s' hs'.coherent hs'.writable.isOpen hcontent⟩

/-- From a name over the limit no node is reached, but the traversal is refused; and after the store
was closed a traversal is refused from a node to which a fact was attached. -/
theorem traverse_refuses_long_name :
    let f : Fact := ⟨.named "a", "p", .named "b"⟩
    let s := (insertAll { storage := .memory {} } [f]).1
    let start : Node := .named (List.replicate 16777217 97)
    s.Coherent ∧ s.storage.isOpen = true ∧ (∀ n, ¬ TransGen (Leads s.content []) start n) ∧
      s.traverse start [] = .error (.fieldOverLimit 16777217) ∧
      (¬ ∃ nodes, s.traverse start [] = .ok nodes) ∧
      s.close.traverse (.named "a") [] = .error (.closed "memory backend is closed") := by
  intro f s start
  have hs : s.Represents {f} :=
    represents_insertAll_singleton ⟨rfl, rfl, rfl⟩ rfl (by decide +kernel)
  have hlength : (List.replicate 16777217 (97 : UInt8)).length = 16777217 := List.length_replicate
  have hrefused : s.traverse start [] = .error (.fieldOverLimit 16777217) := by
    have hlong : fieldLimit < (List.replicate 16777217 (97 : UInt8)).length := by
      rw [hlength]
      decide
    rw [traverse_over_limit hlong, hlength]
  refine ⟨hs.coherent, hs.writable.isOpen, fun n hn => ?_, hrefused, ?_, by decide +kernel⟩
  · obtain ⟨m, ⟨p, -, hedge⟩, -⟩ := TransGen.head'_iff.1 hn
    have hsubject : start = .named "a" :=
      congrArg Fact.subject (Finset.mem_singleton.1 ((hs.content _).1 hedge))
    have hsame := congrArg List.length (Node.named.inj hsubject)
    rw [hlength] at hsame
    exact absurd hsame (by decide)
  · rintro ⟨nodes, hnodes⟩
    cases hrefused.symm.trans hnodes

end Store
end FactGraph
