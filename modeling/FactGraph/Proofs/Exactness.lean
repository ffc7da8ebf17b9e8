import FactGraph.Proofs.Candidates

/-!
# The checks without rules are exact

Without rules, candidates are found valid if and only if none of them violates what is known about
predicates, as the stored facts and all candidates together stand (`Schema.Violates`): no conflict
is missed, and none is found that is not there (`Store.validate_exact`).

The search along temporal edges is a loop that goes on as long as nodes are pending. Here it has a
number of rounds after which it would give up. `Schema.Ends` is the loop without such a number; it
comes to its end on every graph, and before the search would give up (`Schema.Explored.ends`).
-/

namespace FactGraph

open Relation

namespace Schema

variable {schema : Schema} {v : View} {A asked : Set Fact} {f : Fact} {p : Text}
  {n start target : Node} {met pending : List Node} {b : Bool} {rounds : Nat}

/-! ## Violations -/

/-- Whether a fact violates what is known about predicates, as given facts stand. -/
inductive Violates (schema : Schema) (A : Set Fact) (f : Fact) : Prop
  /-- Its predicate is functional and has another object. -/
  | functional (hpredicate : f.predicate ∈ schema.functional) (g : Fact) (hg : g ∈ A)
    (hsame : g.subject = f.subject ∧ g.predicate = f.predicate) (hobject : g.object ≠ f.object)
  /-- Its predicate is one side of an exclusive pair, and the other side holds as well. -/
  | exclusive (pair : Text × Text) (hpair : pair ∈ schema.exclusive) (other : Text)
    (hsides : f.predicate = pair.1 ∧ other = pair.2 ∨ f.predicate = pair.2 ∧ other = pair.1)
    (hother : ⟨f.subject, other, f.object⟩ ∈ A)
  /-- It orders nodes in time, and its subject is reached from its object. -/
  | temporal (hpredicate : f.predicate = schema.temporal) (n : Node) (hobject : f.object = .node n)
    (hreach : ReflTransGen (Edge A schema.temporal) n f.subject)

/-- Where a predicate is one side of a pair, the pair excludes the other side. -/
theorem excluded?_of_sides {predicate other : Text} {pair : Text × Text}
    (h : predicate = pair.1 ∧ other = pair.2 ∨ predicate = pair.2 ∧ other = pair.1) :
    excluded? predicate pair = some other := by
  rw [excluded?]
  rcases h with ⟨rfl, rfl⟩ | ⟨rfl, rfl⟩
  · simp
  · split
    · next heq => rw [beq_iff_eq.1 heq]
    · simp

/-- A fact violates what is known if and only if it is not admitted. -/
theorem violates_iff_not_admits : schema.Violates A f ↔ ¬ schema.Admits A f := by
  constructor
  · rintro (⟨hpredicate, g, hg, hsame, hobject⟩ | ⟨pair, hpair, other, hsides, hother⟩ |
      ⟨hpredicate, n, hobject, hreach⟩) h
    · exact hobject (h.functional hpredicate g hg hsame.1 hsame.2)
    · exact h.exclusive pair hpair other (excluded?_of_sides hsides) hother
    · exact h.temporal hpredicate n hobject hreach
  · intro hnot
    by_contra hfree
    refine hnot ⟨fun hpredicate g hg hsubject heq => ?_, fun pair hpair other hother hmem => ?_,
      fun hpredicate n hobject hreach => ?_⟩
    · by_contra hobject
      exact hfree (.functional hpredicate g hg ⟨hsubject, heq⟩ hobject)
    · exact hfree (.exclusive pair hpair other (excluded?_eq_some hother) hmem)
    · exact hfree (.temporal hpredicate n hobject hreach)

/-! ## The loop of the search -/

/-- How the search for a node ends: with nothing pending, at the node, or as it ends after the edges
of the first pending node were followed. The last number counts the rounds. -/
inductive Ends (v : View) (p : Text) (target : Node) :
    List Node → List Node → Bool → Nat → Prop
  /-- Nothing is pending. -/
  | exhausted (met : List Node) : Ends v p target met [] false 0
  /-- The node is reached. -/
  | found (met pending : List Node) : Ends v p target met (target :: pending) true 1
  /-- The edges of a node are followed. -/
  | follow {met pending met' pending' : List Node} {n : Node} {edges : List Fact} {b : Bool}
    {rounds : Nat} (hn : n ≠ target) (hedges : v.find (.leaving n (some p)) = .ok edges)
    (hmeet : (edges.filterMap fun e => e.object.node?).foldl meet (met, pending) =
      (met', pending'))
    (hrest : Ends v p target met' pending' b rounds) :
    Ends v p target met (n :: pending) b (rounds + 1)

/-- The loop ends in one way only. -/
theorem Ends.unique {b' : Bool} {rounds' : Nat} (h : Ends v p target met pending b rounds)
    (h' : Ends v p target met pending b' rounds') : b = b' ∧ rounds = rounds' := by
  induction h generalizing b' rounds' with
  | exhausted met =>
    cases h'
    exact ⟨rfl, rfl⟩
  | found met pending =>
    cases h' with
    | found => exact ⟨rfl, rfl⟩
    | follow hn => exact absurd rfl hn
  | follow hn hedges hmeet _ ih =>
    cases h' with
    | found => exact absurd rfl hn
    | follow _ hedges' hmeet' hrest' =>
      cases hedges.symm.trans hedges'
      cases hmeet.symm.trans hmeet'
      obtain ⟨rfl, rfl⟩ := ih hrest'
      exact ⟨rfl, rfl⟩

/-- A search that may take as many rounds as the loop takes says what the loop says. -/
theorem Ends.reaches_eq (h : Ends v p target met pending b rounds) {count : Nat}
    (hcount : rounds ≤ count) : reaches v p target count met pending = .ok b := by
  induction h generalizing count with
  | exhausted met => cases count <;> rfl
  | found met pending =>
    obtain ⟨count, rfl⟩ := Nat.exists_eq_add_of_le' hcount
    rw [reaches, if_pos (beq_self_eq_true target)]
  | @follow met pending met' pending' n edges b rounds hn hedges hmeet _ ih =>
    obtain ⟨count, rfl⟩ := Nat.exists_eq_add_of_le' (Nat.le_of_add_left_le hcount)
    rw [reaches, if_neg (fun heq => hn (beq_iff_eq.1 heq)), hedges]
    simp only [bind, Except.bind, hmeet]
    exact ih (by omega)

/-- The loop ends before as many nodes were followed as are pending or not met yet, if the edges of
all nodes that are reached can be looked up. -/
theorem Explored.ends (hv : v.Shows A asked) {nodes : List Node}
    (hnodes : ∀ n, ReflTransGen (Edge A p) start n → n ∈ nodes)
    (hfind : ∀ n, ReflTransGen (Edge A p) start n → ∃ l, v.find (.leaving n (some p)) = .ok l)
    {count : Nat} (h : Explored A p start target met pending)
    (hcount : pending.length + nodes.length ≤ count + met.length) :
    ∃ b rounds, rounds ≤ count ∧ Ends v p target met pending b rounds := by
  have hmet : met.length ≤ nodes.length :=
    (h.nodup.subperm fun n hn => hnodes n (h.reached n hn)).length_le
  induction count generalizing met pending with
  | zero =>
    -- All nodes are met, and none is pending.
    have hempty : pending = [] := List.length_eq_zero_iff.1 (by omega)
    subst hempty
    exact ⟨false, 0, le_rfl, .exhausted met⟩
  | succ count ih =>
    cases pending with
    | nil => exact ⟨false, 0, Nat.zero_le _, .exhausted met⟩
    | cons n pending =>
      by_cases hn : n = target
      · exact ⟨true, 1, Nat.le_add_left 1 count, hn ▸ .found met pending⟩
      · have hreached := h.reached n (h.pending_mem n List.mem_cons_self)
        obtain ⟨edges, hedges⟩ := hfind n hreached
        obtain ⟨new, hnew, nodup, hmem⟩ :=
          foldl_meet (edges.filterMap fun e => e.object.node?) (met, pending)
        have hnext := h.follow hn (mem_ends_of_find hv hedges) nodup hmem
        have hlength : (new ++ pending).length + nodes.length ≤ count + (new ++ met).length := by
          simp only [List.length_append, List.length_cons] at hcount ⊢
          omega
        have hmet' : (new ++ met).length ≤ nodes.length :=
          (hnext.nodup.subperm fun n hn => hnodes n (hnext.reached n hn)).length_le
        obtain ⟨b, rounds, hrounds, hends⟩ := ih hnext hlength hmet'
        exact ⟨b, rounds + 1, Nat.succ_le_succ hrounds, .follow hn hedges hnew hends⟩

/-- The loop from a node ends after at most one round more than the view has edges, and then it is
known whether the target is reached. -/
theorem exists_ends (hv : v.Shows A asked) (hbounds : v.Bounds A)
    (hfind : ∀ n, ReflTransGen (Edge A p) start n → ∃ l, v.find (.leaving n (some p)) = .ok l)
    (target : Node) : ∃ b rounds, rounds ≤ v.extent + 1 ∧
      Ends v p target [start] [start] b rounds ∧
      (b = true ↔ ReflTransGen (Edge A p) start target) := by
  obtain ⟨nodes, hlength, hnodes⟩ := exists_reached hbounds p start
  have hexplored : Explored A p start target [start] [start] := explored_start
  have hcount : [start].length + nodes.length ≤ v.extent + 1 + [start].length := by
    simp only [List.length_singleton]
    omega
  obtain ⟨b, rounds, hrounds, hends⟩ := hexplored.ends hv hnodes hfind hcount
  exact ⟨b, rounds, hrounds, hends, reaches_iff hv hbounds (hends.reaches_eq hrounds)⟩

/-- No node is reached outside of nodes that are closed under the edges. -/
theorem mem_of_closed {facts : List Fact} {nodes : List Node}
    (hclosed : ∀ f ∈ facts, f.predicate = p → f.subject ∈ nodes → ∀ m ∈ f.object.node?, m ∈ nodes)
    (hstart : start ∈ nodes) (hreach : ReflTransGen (Edge {f | f ∈ facts} p) start n) :
    n ∈ nodes := by
  induction hreach with
  | refl => exact hstart
  | tail _ hedge ih => exact hclosed _ hedge rfl ih _ rfl

end Schema

/-! ## Candidates without rules -/

namespace Store

variable {s : Store} {schema : Schema} {batch : List Fact}

/-- Without rules, candidates can be validated if they and the predicates that are excluded are
within the limit. -/
theorem exists_validate_without_rules (hs : s.Coherent) (ho : s.storage.isOpen = true)
    (hbatch : ∀ f ∈ batch, f.WithinLimit) (hlimit : schema.ExclusionsWithinLimit {f | f ∈ batch}) :
    ∃ report, s.validate schema {} batch = .ok report := by
  refine exists_bind (mapM_of_forall_exists fun f hf => ?_) fun _ _ => ⟨_, rfl⟩
  obtain ⟨a, ha⟩ := exists_checkFunctional hs ho schema (hbatch f hf) batch
  obtain ⟨b, hb⟩ := exists_checkExclusive ho (hbatch f hf) (hlimit f hf) batch
  obtain ⟨c, hc⟩ := exists_checkTemporal hs ho schema hbatch (hbatch f hf)
  exact ⟨_, Schema.findings_eq_ok.2 ⟨a, b, c, [], ha, hb, hc, rfl, rfl⟩⟩

/-- From a node within the limit, the search along temporal edges of stored facts and candidates
ends. -/
theorem exists_ends_overlay (hs : s.Coherent) (ho : s.storage.isOpen = true)
    (hbatch : ∀ f ∈ batch, f.WithinLimit) {start : Node} (hstart : (Value.node start).WithinLimit)
    (p : Text) (target : Node) : ∃ b rounds, rounds ≤ (s.overlay batch).extent + 1 ∧
      Schema.Ends (s.overlay batch) p target [start] [start] b rounds ∧
      (b = true ↔ ReflTransGen (Edge (s.contentWith batch) p) start target) := by
  refine Schema.exists_ends (hs.shows_overlay batch) (hs.bounds_overlay ho batch)
    (fun n hn => exists_find_leaving hs ho ?_ p batch) target
  rcases hn.cases_tail with rfl | ⟨m, -, hedge⟩
  · exact hstart
  · exact Fact.withinLimit_iff.1 (withinLimit_of_mem_contentWith hbatch hedge) _
      (by simp [Fact.values])

/-- Without rules, candidates are found valid if and only if none of them violates what is known
about predicates, as the stored facts and all candidates stand; and the search along edges ends,
whether they make a cycle or not, with the right answer. -/
theorem validate_exact (hs : s.Coherent) (ho : s.storage.isOpen = true)
    (hbatch : ∀ f ∈ batch, f.WithinLimit) (hlimit : schema.ExclusionsWithinLimit {f | f ∈ batch})
    (inj : ∀ f ∈ batch, ∀ pair ∈ schema.exclusive, ∀ p, Schema.excluded? f.predicate pair = some p →
      ∀ g ∈ s.content, g.digest = ({ f with predicate := p } : Fact).digest →
        g = { f with predicate := p }) :
    (∃ report, s.validate schema {} batch = .ok report ∧ (report.isValid = true ↔
      ¬ ∃ f ∈ batch, schema.Violates (s.contentWith batch) f)) ∧
    ∀ start, (Value.node start).WithinLimit → ∀ target,
      ∃ b rounds, rounds ≤ (s.overlay batch).extent + 1 ∧
        Schema.Ends (s.overlay batch) schema.temporal target [start] [start] b rounds ∧
        (b = true ↔ ReflTransGen (Edge (s.contentWith batch) schema.temporal) start target) := by
  refine ⟨?_, fun start hstart => exists_ends_overlay hs ho hbatch hstart schema.temporal⟩
  obtain ⟨report, hreport⟩ := exists_validate_without_rules hs ho hbatch hlimit
  refine ⟨report, hreport, fun hvalid => ?_, fun hnone => ?_⟩
  · rintro ⟨f, hf, hviolates⟩
    exact Schema.violates_iff_not_admits.1 hviolates
      ((admits_of_validate hs ho hreport hvalid).1 f hf)
  · have hadmits : ∀ f ∈ batch, schema.Admits (s.contentWith batch) f := by
      intro f hf
      by_contra hnot
      exact hnone ⟨f, hf, Schema.violates_iff_not_admits.2 hnot⟩
    have hempty := validate_of_admits hs ho hbatch hadmits hlimit inj
    rw [hreport, Except.ok.injEq] at hempty
    rw [hempty]
    rfl

/-- Of three nodes in a circle, two edges of which are candidates, and two nodes in a line with a
text at its end: the search for a node that is not in the circle goes round it once and ends. -/
theorem validate_exact_circle :
    let f : Fact := ⟨.named "a", "before", .node (.named "b")⟩
    let g : Fact := ⟨.named "b", "before", .node (.named "c")⟩
    let h : Fact := ⟨.named "c", "before", .node (.named "a")⟩
    let t : Fact := ⟨.named "c", "before", .string "a"⟩
    let schema : Schema := { exclusive := [("before", "after")] }
    let s := (insertAll { storage := .memory {} } [f]).1
    (∃ report, s.validate schema {} [g, h] = .ok report ∧ report.isValid = false) ∧
      (∃ report, s.validate schema {} [g, t] = .ok report ∧ report.isValid = true) ∧
      ∃ rounds, rounds ≤ (s.overlay [g, h]).extent + 1 ∧
        Schema.Ends (s.overlay [g, h]) "before" (.named "d") [.named "a"] [.named "a"] false
          rounds := by
  intro f g h t schema s
  have hs : s.Represents {f} :=
    represents_insertAll_singleton ⟨rfl, rfl, rfl⟩ rfl (by decide +kernel)
  have hcontent : ∀ batch, s.contentWith batch = {x | x ∈ f :: batch} := by
    intro batch
    ext x
    simp [mem_contentWith, hs.content]
  have hbatch : ∀ x ∈ [g, h, t], Storable x := by decide +kernel
  have hlimit : ∀ batch : List Fact, schema.ExclusionsWithinLimit {x | x ∈ batch} := by
    intro batch x hx pair hpair p hp
    rw [List.mem_singleton.1 hpair] at hp
    rcases Schema.excluded?_eq_some hp with ⟨-, rfl⟩ | ⟨-, rfl⟩
    · decide
    · decide
  have hdigests : ∀ x ∈ [g, h, t], ∀ p ∈ [("before" : Text), "after"],
      f.digest ≠ ({ x with predicate := p } : Fact).digest := by decide +kernel
  have inj : ∀ x ∈ [g, h, t], ∀ pair ∈ schema.exclusive, ∀ p,
      Schema.excluded? x.predicate pair = some p → ∀ y ∈ s.content,
        y.digest = ({ x with predicate := p } : Fact).digest → y = { x with predicate := p } := by
    intro x hx pair hpair p hp y hy heq
    have hyf : y = f := Finset.mem_singleton.1 ((hs.content y).1 hy)
    rw [hyf] at heq
    rw [List.mem_singleton.1 hpair] at hp
    refine absurd heq (hdigests x hx p ?_)
    rcases Schema.excluded?_eq_some hp with ⟨-, rfl⟩ | ⟨-, rfl⟩
    · exact List.mem_cons_of_mem _ (List.mem_singleton_self _)
    · exact List.mem_cons_self
  have hcircle : [g, h] ⊆ [g, h, t] := List.sublist_append_left [g, h] [t] |>.subset
  have hline : [g, t] ⊆ [g, h, t] := by decide
  obtain ⟨⟨report, hreport, hvalid⟩, hends⟩ := validate_exact hs.coherent hs.writable.isOpen
    (fun x hx => (hbatch x (hcircle hx)).withinLimit) (hlimit [g, h])
    fun x hx => inj x (hcircle hx)
  obtain ⟨⟨report', hreport', hvalid'⟩, -⟩ := validate_exact hs.coherent hs.writable.isOpen
    (fun x hx => (hbatch x (hline hx)).withinLimit) (hlimit [g, t]) fun x hx => inj x (hline hx)
  rw [hcontent] at hvalid hvalid'
  simp only [hcontent] at hends
  refine ⟨⟨report, hreport, ?_⟩, ⟨report', hreport', hvalid'.2 ?_⟩, ?_⟩
  · -- From the object of the first candidate the other one and the stored fact lead back.
    have hback : ReflTransGen (Edge {x | x ∈ f :: [g, h]} "before") (.named "c") (.named "b") :=
      .head (show h ∈ [f, g, h] by decide) (.single (show f ∈ [f, g, h] by decide))
    have hviolates : schema.Violates {x | x ∈ f :: [g, h]} g := .temporal rfl _ rfl hback
    rw [← Bool.not_eq_true, hvalid]
    exact fun hnone => hnone ⟨g, List.mem_cons_self, hviolates⟩
  · rintro ⟨x, hx, hviolates⟩
    cases hviolates with
    | functional hpredicate => cases hpredicate
    | exclusive pair hpair other hsides hother =>
      have hnone : ∀ x ∈ [g, t], ∀ p ∈ [("before" : Text), "after"], x.predicate = "before" ∧
          ((⟨x.subject, "after", x.object⟩ : Fact) ∉ f :: [g, t]) := by decide
      obtain ⟨hpredicate, hout⟩ := hnone x hx "after" (by decide)
      rw [List.mem_singleton.1 hpair] at hsides
      rcases hsides with ⟨-, rfl⟩ | ⟨hafter, -⟩
      · exact hout hother
      · rw [hpredicate] at hafter
        exact absurd hafter (by decide)
    | temporal hpredicate n hobject hreach =>
      rcases List.mem_cons.1 hx with rfl | hx
      · -- No edge leaves the object of the first candidate.
        cases hobject
        have hreached : Node.named "b" ∈ [Node.named "c"] :=
          Schema.mem_of_closed (by decide) (by decide) hreach
        exact absurd hreached (by decide)
      · rw [List.mem_singleton.1 hx] at hobject
        cases hobject
  · have hstart : (Value.node (.named "a")).WithinLimit := by
      show ∀ t ∈ (Value.node (.named "a")).fields, t.length ≤ fieldLimit
      decide
    obtain ⟨b, rounds, hrounds, hends, hb⟩ := hends (.named "a") hstart (.named "d")
    have hfalse : b = false := by
      rw [← Bool.not_eq_true, hb]
      intro hreach
      have hreached : Node.named "d" ∈ [Node.named "a", .named "b", .named "c"] :=
        Schema.mem_of_closed (by decide) (by decide) hreach
      exact absurd hreached (by decide)
    exact ⟨rounds, hrounds, hfalse ▸ hends⟩

end Store
end FactGraph
