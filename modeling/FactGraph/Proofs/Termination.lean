import Mathlib.Algebra.Order.BigOperators.Group.List
import FactGraph.Proofs.Recursion

/-!
# Searches come to an end

A branch is weighed with the bound on the depth in mind, and with a great bound it weighs much. But
over finitely many values no goal stands deeper than there are keys: weighed as if the bound was the
number of keys, branches get lighter too (`Search.Takes.lighter`). A step leaves no more branches
than there are facts to be found for a goal and heads of rules (`Search.length_le_of_next`). So the
steps of a search are bounded by a number that has nothing to do with the bound on the depth
(`Search.exists_runFor`).
-/

namespace FactGraph

variable {V : Set Value}

/-! ## Finitely many queries -/

/-- The queries that ask for given values. -/
def queriesOver (V : Set Value) : Set Query := {q | ∀ x ∈ (Atom.ofQuery q).constants, x ∈ V}

theorem finite_queriesOver (hV : V.Finite) : (queriesOver V).Finite := by
  have hfield : {o : Option Value | ∀ x ∈ o, x ∈ V}.Finite := by
    refine ((hV.image some).insert none).subset fun o ho => ?_
    cases o with
    | none => exact Set.mem_insert _ _
    | some x => exact Set.mem_insert_of_mem _ ⟨x, ho x rfl, rfl⟩
  refine ((hfield.prod (hfield.prod hfield)).image fun e =>
    (⟨e.1.bind Value.node?, e.2.1.bind Value.name?, e.2.2⟩ : Query)).subset ?_
  rintro ⟨subject, predicate, object⟩ hq
  obtain ⟨hsubject, hpredicate, hobject⟩ := Atom.forall_constants_ofQuery.1 hq
  refine ⟨(subject.map .node, predicate.map .named, object), ⟨?_, ?_, hobject⟩, ?_⟩
  · rintro _ hx
    obtain ⟨n, hn, rfl⟩ := Option.map_eq_some_iff.1 hx
    exact hsubject n hn
  · rintro _ hx
    obtain ⟨p, hp, rfl⟩ := Option.map_eq_some_iff.1 hx
    exact hpredicate p hp
  · cases subject <;> cases predicate <;> rfl

namespace Search

variable {s : Search} {t t' : Tally} {b b' : Branch} {g : Goal} {parts : List Branch}
  {d width n : Nat}

/-! ## How many branches a step leaves -/

/-- How many heads the rules have. -/
def heads (s : Search) : Nat := (s.rules.flatMap Rule.heads).length

theorem length_applicable_le (s : Search) (b : Branch) (atom : Atom) :
    (s.applicable b atom).length ≤ s.heads := by
  rw [applicable, heads]
  induction s.rules with
  | nil => simp
  | cons r rest ih =>
    rw [List.flatMap_cons, List.length_append, List.filter_cons]
    split
    · rw [List.flatMap_cons, List.length_append]
      exact Nat.add_le_add (List.length_filterMap_le _ _) ih
    · exact Nat.le_add_left_of_le ih

theorem length_le_of_stored {atom : Atom} {guard : Option Guard}
    (hatom : ∀ x ∈ (atom.map b.bindings.resolve).constants, x ∈ V)
    (hfind : ∀ q ∈ queriesOver V, ∀ l, s.view.find q = .ok l → l.length ≤ n)
    (h : s.stored b atom guard = .ok parts) : parts.length ≤ n := by
  rw [stored] at h
  split at h
  · cases h
    exact Nat.zero_le n
  · next q hq =>
    obtain ⟨l, hl, h⟩ := bind_eq_ok.1 h
    rw [← pure_eq_ok.1 h]
    have hsort : (Fact.sort l).length = l.length := (List.mergeSort_perm ..).length_eq
    exact (List.length_filterMap_le _ _).trans
      (hsort ▸ hfind q (Atom.constants_mem_of_query? hatom (by simp) hq) l hl)

/-- A step leaves no more branches than there are facts to be found for a goal and heads of rules,
or one where a head is concluded. -/
theorem length_le_of_next (hfind : ∀ q ∈ queriesOver V, ∀ l, s.view.find q = .ok l → l.length ≤ n)
    (hb : Branch.Confined V { b with goals := g :: b.goals })
    (h : s.next t b g = (t', .ok parts)) : parts.length ≤ n + s.heads + 1 := by
  cases g with
  | conclude head guard rule premises =>
    simp only [next, Prod.mk.injEq] at h
    obtain ⟨r, -, hparts⟩ := map_eq_ok.1 h.2
    rw [← hparts]
    cases r with
    | none => exact Nat.zero_le _
    | some b' => exact Nat.le_add_left 1 _
  | solve atom guard depth above =>
    simp only [next] at h
    split at h
    · cases h
      exact Nat.zero_le _
    · split at h
      · cases h
      · next branches hbranches =>
        have hatom : ∀ x ∈ (atom.map b.bindings.resolve).constants, x ∈ V :=
          hb.values.constants_resolve (hb.constants _ List.mem_cons_self)
        have hstored := length_le_of_stored hatom hfind hbranches
        have happlicable := s.length_applicable_le b atom
        split at h
        · cases h
          omega
        · cases h
          rw [List.length_append, List.length_map]
          omega

/-! ## Weights without the bound -/

/-- Weighed as if the bound was greater than the depth of any goal, a branch leads to lighter ones.
-/
theorem Takes.lighter (htakes : s.Takes b b') (hV : V.Finite) (hb : b.Confined V)
    (hd : (keysOver V).ncard < d) :
    weight { s with bound := d } b' < weight { s with bound := d } b := by
  cases htakes with
  | @fact b _ atom guard depth above _ _ _ _ _ _ _ hwith =>
    have := goalWeight_pos { s with bound := d } (.solve atom guard depth above)
    simp only [weight, goals_withFact hwith, goalsWeight]
    omega
  | @rule b atom guard depth above a _ _ ha =>
    have hdepth := Placed.depth_le (finite_keysOver hV) (hb.placed _ List.mem_cons_self)
    exact weight_withRule (s := { s with bound := d }) ha (by dsimp only; omega)
  | @conclude b _ head guard rule premises hconclude =>
    have := goalWeight_pos { s with bound := d } (.conclude head guard rule premises)
    simp only [weight, goals_conclude hconclude, goalsWeight]
    omega

/-- A number that gets smaller when a branch is replaced by few lighter ones. -/
def potential (s : Search) (width : Nat) (branches : List Branch) : Nat :=
  (branches.map fun b => (width + 1) ^ s.weight b).sum

theorem potential_cons (s : Search) (width : Nat) (b : Branch) (rest : List Branch) :
    s.potential width (b :: rest) = (width + 1) ^ s.weight b + s.potential width rest := by
  simp [potential]

theorem potential_append (s : Search) (width : Nat) (parts rest : List Branch) :
    s.potential width (parts ++ rest) = s.potential width parts + s.potential width rest := by
  simp [potential]

theorem potential_lt (hlength : parts.length ≤ width)
    (hlighter : ∀ b' ∈ parts, s.weight b' < s.weight b) :
    s.potential width parts < (width + 1) ^ s.weight b := by
  cases hw : s.weight b with
  | zero =>
    have hnil : parts = [] := List.eq_nil_iff_forall_not_mem.2 fun b' hb' => by
      have := hlighter b' hb'
      omega
    simp [hnil, potential]
  | succ w =>
    have heach : ∀ k ∈ parts.map fun b' => (width + 1) ^ s.weight b', k ≤ (width + 1) ^ w := by
      intro k hk
      obtain ⟨b', hb', rfl⟩ := List.mem_map.1 hk
      have := hlighter b' hb'
      exact Nat.pow_le_pow_right (Nat.succ_pos _) (by omega)
    calc s.potential width parts
        ≤ parts.length * (width + 1) ^ w := by
          simpa [potential] using List.sum_le_card_nsmul _ _ heach
      _ ≤ width * (width + 1) ^ w := Nat.mul_le_mul_right _ hlength
      _ < (width + 1) * (width + 1) ^ w :=
          Nat.mul_lt_mul_of_pos_right (Nat.lt_succ_self _) (Nat.pow_pos (Nat.succ_pos _))
      _ = (width + 1) ^ (w + 1) := (Nat.pow_succ').symm

/-! ## How many steps a search takes -/

/-- A search over given values takes no more steps than the potential of its branches, weighed as if
the bound was greater than the depth of any goal. -/
theorem runFor_of_confined (h : s.Confined V) (hd : (keysOver V).ncard < d)
    (hwidth : ∀ t t' b g parts, Branch.Confined V { b with goals := g :: b.goals } →
      s.next t b g = (t', .ok parts) → parts.length ≤ width) {branches : List Branch}
    (hbranches : ∀ b ∈ branches, b.Confined V)
    (hn : potential { s with bound := d } width branches < n) :
    ∃ r, s.runFor n t branches = some r := by
  fun_induction runFor s n t branches with
  | case1 => omega
  | case2 => exact ⟨_, rfl⟩
  | case3 => exact ⟨_, rfl⟩
  | case4 n t bindings steps applied rest ih =>
    rw [potential_cons] at hn
    have : 0 < (width + 1) ^ weight { s with bound := d }
      { goals := [], bindings, found := [], steps, applied } := Nat.pow_pos (Nat.succ_pos _)
    exact ih (fun b hb => hbranches b (List.mem_cons_of_mem _ hb)) (by omega)
  | case5 => exact ⟨_, rfl⟩
  | case6 n t g goals bindings found steps applied rest t₁ parts hnext ih =>
    have hfirst := hbranches _ List.mem_cons_self
    have htakes (b' : Branch) (hb' : b' ∈ parts) := takes_of_mem_next hnext hb'
    have hlighter (b' : Branch) (hb' : b' ∈ parts) := (htakes b' hb').lighter h.finite hfirst hd
    have hlength := hwidth t t₁ { goals, bindings, found, steps, applied } g parts hfirst hnext
    have hparts := potential_lt (s := { s with bound := d })
      (b := { goals := g :: goals, bindings, found, steps, applied }) hlength hlighter
    rw [potential_cons] at hn
    refine ih (fun b hb => ?_) ?_
    · rcases List.mem_append.1 hb with hb | hb
      · exact (htakes b hb).confined h hfirst
      · exact hbranches b (List.mem_cons_of_mem _ hb)
    · rw [potential_append]
      omega

/-- There is a number of steps within which a search over given values comes to its end, whatever
the bound on the depth. -/
theorem exists_runFor (h : s.Confined V) {branches : List Branch}
    (hbranches : ∀ b ∈ branches, b.Confined V) :
    ∃ n, ∀ bound t, ∃ r, runFor { s with bound } n t branches = some r := by
  obtain ⟨most, hmost⟩ := ((finite_queriesOver h.finite).image fun q =>
    (s.view.find q).toOption.elim 0 List.length).bddAbove
  have hfind : ∀ q ∈ queriesOver V, ∀ l, s.view.find q = .ok l → l.length ≤ most := by
    intro q hq l hl
    exact hmost ⟨q, hq, by simp [hl, Except.toOption]⟩
  let high : Search := { s with bound := (keysOver V).ncard + 1 }
  refine ⟨high.potential (most + s.heads + 1) branches + 1, fun bound t => ?_⟩
  refine runFor_of_confined (s := { s with bound }) ⟨h.finite, h.limit, h.constants, h.find⟩
    (Nat.lt_succ_self _) (fun _ _ _ _ _ hb hnext => ?_) hbranches (Nat.lt_succ_self _)
  exact length_le_of_next (s := { s with bound }) hfind hb hnext

end Search

/-! ## Proving -/

theorem Tally.failure_cases (t : Tally) (bound : Nat) (goal : Query) :
    t.failure bound goal = .depthReached bound ∨ t.failure bound goal = .circularGoal goal ∨
      t.failure bound goal = .notEstablished goal := by
  rw [failure]
  split
  · exact Or.inl rfl
  · split
    · exact Or.inr (Or.inl rfl)
    · exact Or.inr (Or.inr rfl)

namespace Store

variable {s : Store} {rules : Rulebook} {goal q : Query} {f : Fact}

/-- What is found for given values has these values if the stored facts have. -/
theorem mem_factsOver_of_mem_find (hs : s.storage.Addressed) (hcontent : s.content ⊆ factsOver V)
    (hq : ∀ x ∈ (Atom.ofQuery q).constants, x ∈ V) {l : List Fact} (h : s.find q = .ok l)
    (hf : f ∈ l) : f ∈ factsOver V := by
  rcases find_cases h with ⟨-, hl⟩ | ⟨g, b, hg, -, rfl⟩ | ⟨-, ids, -, hl⟩
  · exact hcontent (((hs.of_facts hl).2 f).1 hf)
  · split at hf
    · exact List.mem_singleton.1 hf ▸ Query.mem_factsOver hq hg
    · cases hf
  · obtain ⟨-, id, -, hid⟩ := (mem_select hl).1 hf
    exact hcontent ((hs.of_get hid).1 rfl).1

/-- A search in a store for a goal works with the values that are stored or occur in rules or in the
goal. -/
theorem confined_view (hs : s.storage.Addressed) (ho : s.storage.isOpen = true)
    (hlimit : ∀ r ∈ rules.rules, ∀ x ∈ r.constants, x.WithinLimit)
    (hgoal : ∀ x ∈ (Atom.ofQuery goal).constants, x.WithinLimit) (bound : Nat) :
    Search.Confined { view := s.view, rules := rules.rules, bound }
      (vocabulary rules.rules s.content ∪ {x | x ∈ (Atom.ofQuery goal).constants}) := by
  have hwithin : ∀ x ∈ vocabulary rules.rules s.content ∪ {x | x ∈ (Atom.ofQuery goal).constants},
      x.WithinLimit := by
    rintro x (hx | hx)
    · exact withinLimit_vocabulary hlimit s x hx
    · exact hgoal x hx
  refine ⟨(finite_vocabulary _ s.storage.finite_content).union (List.finite_toSet _), hwithin,
    fun r hr x hx => Or.inl (Or.inr ⟨r, hr, hx⟩), fun q hq => ?_⟩
  obtain ⟨l, hl⟩ := answers_view hs ho hwithin q hq
  exact ⟨l, hl, fun f hf =>
    mem_factsOver_of_mem_find hs (subset_factsOver Set.subset_union_left) hq hl hf⟩

/-- Proving a goal comes to an end within a number of steps that does not depend on the bound on the
depth: there is a proof, or the bound was reached, or a goal stood above itself, or nothing
establishes the goal. -/
theorem prove_ends (hs : s.storage.Addressed) (ho : s.storage.isOpen = true)
    (hlimit : ∀ r ∈ rules.rules, ∀ x ∈ r.constants, x.WithinLimit)
    (hgoal : ∀ x ∈ (Atom.ofQuery goal).constants, x.WithinLimit) :
    ∃ n, ∀ bound, ∃ outcome, s.proveFor n rules bound goal = some outcome ∧
      (∀ c, (s.prove c rules bound goal).2 = outcome) ∧
      ((∃ p, outcome = .ok p) ∨ ∃ e, outcome = .error (.logic e) ∧
        (e = .depthReached bound ∨ e = .circularGoal goal ∨ e = .notEstablished goal)) := by
  have hfirst := List.forall_mem_singleton.2
    (Search.confined_first (V := vocabulary rules.rules s.content ∪
      {x | x ∈ (Atom.ofQuery goal).constants}) fun x hx => Or.inr hx)
  obtain ⟨n, hn⟩ := Search.exists_runFor (confined_view hs ho hlimit hgoal 0) hfirst
  refine ⟨n, fun bound => ?_⟩
  obtain ⟨⟨t, outcome⟩, hr⟩ := hn bound {}
  obtain ⟨herror, -⟩ := Search.run_of_confined (t := {}) (confined_view hs ho hlimit hgoal bound)
    hfirst
  rw [Search.run_of_runFor hr] at herror
  match outcome with
  | .error e => exact absurd rfl (herror e)
  | .ok (some p) =>
    have hproveFor : s.proveFor n rules bound goal = some (.ok p) := by simp [proveFor, hr]
    exact ⟨_, hproveFor, prove_of_proveFor hproveFor, Or.inl ⟨p, rfl⟩⟩
  | .ok none =>
    have hproveFor : s.proveFor n rules bound goal =
        some (.error (.logic (t.failure bound goal))) := by simp [proveFor, hr]
    exact ⟨_, hproveFor, prove_of_proveFor hproveFor,
      Or.inr ⟨_, rfl, t.failure_cases bound goal⟩⟩

/-- A rule that turns facts around asks for what it derives, so that with a great bound nothing but
the goals above a goal ends a search. -/
theorem prove_ends_turn :
    let f : Fact := ⟨.named "a", "near", .named "b"⟩
    let turn : Rule := {
      name := "turn"
      conditions := [{ atom := ⟨.var "x", .named "near", .var "y"⟩ }]
      actions := [.derive ⟨.var "y", .named "near", .var "x"⟩] }
    let rules : Rulebook := { rules := [turn] }
    let goal : Query := { subject := some (.named "c"), predicate := some "near" }
    let s := (insertAll { storage := .memory {} } [f]).1
    (s.Represents {f} ∧ (∀ r ∈ rules.rules, ∀ x ∈ r.constants, x.WithinLimit) ∧
      ∀ x ∈ (Atom.ofQuery goal).constants, x.WithinLimit) ∧
    ∃ n, ∀ bound, ∃ outcome, s.proveFor n rules bound goal = some outcome ∧
      (∀ c, (s.prove c rules bound goal).2 = outcome) ∧
      ((∃ p, outcome = .ok p) ∨ ∃ e, outcome = .error (.logic e) ∧
        (e = .depthReached bound ∨ e = .circularGoal goal ∨ e = .notEstablished goal)) := by
  intro f turn rules goal s
  have hs : s.Represents {f} :=
    represents_insertAll_singleton ⟨rfl, rfl, rfl⟩ rfl (by decide +kernel)
  have hlimit : ∀ r ∈ rules.rules, ∀ x ∈ r.constants, ∀ t ∈ x.fields, t.length ≤ fieldLimit := by
    decide +kernel
  have hgoal : ∀ x ∈ (Atom.ofQuery goal).constants, ∀ t ∈ x.fields, t.length ≤ fieldLimit := by
    decide +kernel
  exact ⟨⟨hs, hlimit, hgoal⟩,
    prove_ends hs.coherent.addressed hs.writable.isOpen hlimit hgoal⟩

end Store
end FactGraph
