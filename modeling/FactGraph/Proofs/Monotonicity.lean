import FactGraph.Proofs.Loops
import FactGraph.Proofs.Termination

/-!
# What can be proved stays provable

More facts, more rules and a greater bound only add to the steps that a search can take. A step that
the smaller search takes is open to the greater one as well and leads to the same branch, with the
same bindings and the same goals (`Search.Takes.reaches`). So the way on which the smaller search
found a proof leads the greater one to a proof, and as that comes to an end without an error, it
finds a proof, though maybe another one on a branch that it tries before (`Store.prove_mono`).
-/

namespace FactGraph

namespace Search

variable {s s' : Search} {b b' : Branch} {atom : Atom} {guard : Option Guard} {depth : Nat}
  {above : List Text} {q : Query} {f : Fact}

/-- Whether a search can do whatever another one can. -/
structure Includes (s' s : Search) : Prop where
  /-- What is found stays to be found, unless nothing can be looked up any more. -/
  find : ∀ q l l', s.view.find q = .ok l → s'.view.find q = .ok l' → ∀ f ∈ l, f ∈ l'
  /-- The rules are there. -/
  rules : ∀ r ∈ s.rules, r ∈ s'.rules
  /-- The bound on the depth is no smaller. -/
  bound : s.bound ≤ s'.bound

theorem Includes.mem_applicable (h : s'.Includes s) {a : Application}
    (ha : a ∈ s.applicable b atom) : a ∈ s'.applicable b atom := by
  obtain ⟨hr, hrest⟩ := Search.mem_applicable.1 ha
  exact Search.mem_applicable.2 ⟨h.rules _ hr, hrest⟩

/-- A goal that does not stand above itself leads to a proof if a fact does that is found for it,
however deep it stands. -/
theorem reaches_of_fact (hkey : (atom.map b.bindings.resolve).key ∉ above)
    (hq : (atom.map b.bindings.resolve).query? [] = some q)
    (hf : ∀ l, s.view.find q = .ok l → f ∈ l) (hwith : b.withFact atom guard f = some b')
    (hb' : s.Reaches b') :
    s.Reaches { b with goals := .solve atom guard depth above :: b.goals } := by
  have hcontains : ¬ above.contains (atom.map b.bindings.resolve).key = true := fun h =>
    hkey (List.contains_iff_mem.1 h)
  cases hl : s.view.find q with
  | error e =>
    have hstored : s.stored b atom guard = .error e := by
      simp only [stored, hq, hl]
      rfl
    have hnext : (s.next {} b (.solve atom guard depth above)).2 = .error e := by
      simp only [next, if_neg hcontains, hstored]
    exact .failed hnext
  | ok l =>
    have hstored : s.stored b atom guard =
        .ok ((Fact.sort l).filterMap (b.withFact atom guard)) := by
      simp only [stored, hq, hl]
      rfl
    have hmem := (mem_of_stored hstored).2 ⟨q, l, f, hq, hl, hf l hl, hwith⟩
    by_cases hdepth : s.bound ≤ depth
    · have hnext : (s.next {} b (.solve atom guard depth above)).2 =
          .ok ((Fact.sort l).filterMap (b.withFact atom guard)) := by
        simp only [next, if_neg hcontains, hstored, if_pos hdepth]
      exact .step hnext hmem hb'
    · exact reaches_of_leads hkey (Nat.lt_of_not_le hdepth) (.fact depth above hq hl (hf l hl) hwith)
        hb'

/-- A step that a search takes does not lead a search that can do as much away from a proof. -/
theorem Takes.reaches (h : s'.Includes s) (htakes : s.Takes b b') (hb' : s'.Reaches b') :
    s'.Reaches b := by
  cases htakes with
  | fact depth hkey hq hl hf hwith =>
    exact reaches_of_fact hkey hq (fun l' hl' => h.find _ _ l' hl hl' _ hf) hwith hb'
  | rule guard hkey hdepth ha =>
    exact reaches_of_leads hkey (Nat.lt_of_lt_of_le hdepth h.bound)
      (.rule guard _ _ (h.mem_applicable ha)) hb'
  | @conclude b _ head guard rule premises hconclude =>
    have hnext : (s'.next {} b (.conclude head guard rule premises)).2 = .ok [b'] := by
      simp only [next, hconclude]
      rfl
    exact .step hnext (List.mem_singleton_self _) hb'

/-- Where a search finds a proof, one that can do as much has a branch that leads to a proof or to an
error. -/
theorem Includes.reaches (h : s'.Includes s) {t t' : Tally} {p : Proof}
    (hrun : s.run t [b] = (t', .ok (some p))) : s'.Reaches b := by
  obtain ⟨last, hway, hgoals, ⟨rest, hfound⟩, -⟩ := run_found (P := Relation.ReflTransGen s.Takes b)
    (fun _ _ htakes hway => hway.tail htakes) (List.forall_mem_singleton.2 .refl) hrun
  have hlast : s'.Reaches last := .found hgoals (by simp [hfound])
  exact hway.head_induction_on hlast fun htakes _ ih => htakes.reaches h ih

end Search

namespace Store

variable {s s' : Store} {rules rules' : Rulebook} {bound bound' : Nat} {goal q : Query} {p : Proof}
  {c : Counters}

/-- What is found stays to be found when more facts are stored. -/
theorem mem_find_of_mem_find (hs : s.storage.Addressed) (hs' : s'.Coherent)
    (hfacts : s.content ⊆ s'.content) {l l' : List Fact} (h : s.find q = .ok l)
    (h' : s'.find q = .ok l') {f : Fact} (hf : f ∈ l) : f ∈ l' := by
  rcases find_cases h with ⟨hany, hl⟩ | ⟨g, b, hg, hb, rfl⟩ | ⟨-, ids, -, hl⟩
  · exact hs'.mem_find h' (hfacts (((hs.of_facts hl).2 f).1 hf)) (Query.accepts_of_isAny hany f)
  · -- The fact that is asked for counts as stored because of its digest.
    split at hf
    · next hstored =>
      obtain rfl := List.mem_singleton.1 hf
      obtain ⟨g, hcontent, hdigest⟩ := (of_contains hs hb).1 hstored
      rcases find_cases h' with ⟨hany, -⟩ | ⟨f', b', hf', hb', rfl⟩ | ⟨⟨-, hnone⟩, -⟩
      · exact absurd hany (Bool.eq_false_iff.1 (Query.isAny_of_fact? hg))
      · cases hg.symm.trans hf'
        rw [if_pos ((of_contains hs'.addressed hb').2 ⟨g, hfacts hcontent, hdigest⟩)]
        exact hf
      · rw [hg] at hnone
        cases hnone
    · cases hf
  · obtain ⟨haccepts, id, -, hid⟩ := (mem_select hl).1 hf
    exact hs'.mem_find h' (hfacts ((hs.of_get hid).1 rfl).1) haccepts

/-- What can be proved stays provable with more facts, more rules and a greater bound on the depth.
-/
theorem prove_mono (hs : s.storage.Addressed) (hs' : s'.Coherent)
    (ho : s'.storage.isOpen = true) (hfacts : s.content ⊆ s'.content)
    (hrules : ∀ r ∈ rules.rules, r ∈ rules'.rules) (hbound : bound ≤ bound')
    (hlimit : ∀ r ∈ rules'.rules, ∀ x ∈ r.constants, x.WithinLimit)
    (hgoal : ∀ x ∈ (Atom.ofQuery goal).constants, x.WithinLimit)
    (h : (s.prove c rules bound goal).2 = .ok p) (c' : Counters) :
    ∃ p', (s'.prove c' rules' bound' goal).2 = .ok p' := by
  obtain ⟨t, hrun⟩ := prove_eq_ok h
  have hincludes : Search.Includes { view := s'.view, rules := rules'.rules, bound := bound' }
      { view := s.view, rules := rules.rules, bound } :=
    ⟨fun _ _ _ hl hl' _ hf => mem_find_of_mem_find hs hs' hfacts hl hl' hf, hrules, hbound⟩
  have hreaches := hincludes.reaches hrun
  obtain ⟨herror, -⟩ := Search.run_of_confined (t := {})
    (confined_view hs'.addressed ho hlimit hgoal bound')
    (List.forall_mem_singleton.2 (Search.confined_first fun x hx => Or.inr hx))
  generalize hrun' : Search.run { view := s'.view, rules := rules'.rules, bound := bound' } {}
    [{ goals := [.solve (.ofQuery goal) none 0 []] }] = r at herror
  match r, hrun', herror with
  | (t', .error e), _, herror => exact absurd rfl (herror e)
  | (t', .ok none), hrun', _ =>
    exact absurd hreaches (Search.not_reaches_of_run hrun' _ (List.mem_singleton_self _))
  | (t', .ok (some p')), hrun', _ => exact ⟨p', by simp only [prove, hrun']⟩

/-- A fact that is proved by turning another one around stays provable when one more fact is stored
and a rule that chains facts is tried first. -/
theorem prove_mono_turn :
    let f : Fact := ⟨.named "a", "near", .named "b"⟩
    let g : Fact := ⟨.named "b", "near", .named "c"⟩
    let turn : Rule := {
      name := "turn"
      conditions := [{ atom := ⟨.var "x", .named "near", .var "y"⟩ }]
      actions := [.derive ⟨.var "y", .named "near", .var "x"⟩] }
    let chain : Rule := {
      name := "chain"
      conditions := [{ atom := ⟨.var "x", .named "near", .var "y"⟩ },
        { atom := ⟨.var "y", .named "near", .var "z"⟩ }]
      actions := [.derive ⟨.var "x", .named "near", .var "z"⟩] }
    let goal : Query := { subject := some (.named "b"), predicate := some "near",
                          object := some (.named "a") }
    let s := (insertAll { storage := .memory {} } [f]).1
    let s' := (insertAll { storage := .memory {} } [g, f]).1
    (s.Represents {f} ∧ s'.Represents {g, f} ∧
      ∃ p, (s.prove {} { rules := [turn] } 1 goal).2 = .ok p) ∧
    ∀ c, ∃ p, (s'.prove c { rules := [chain, turn] } 9 goal).2 = .ok p := by
  intro f g turn chain goal s s'
  have hs : s.Represents {f} :=
    represents_insertAll_singleton ⟨rfl, rfl, rfl⟩ rfl (by decide +kernel)
  have hnodup : ([g, f].map Fact.digest).Nodup := by decide +kernel
  have hs' : s'.Represents [g, f].toFinset :=
    represents_insertAll (by decide +kernel) fun x hx y hy => List.inj_on_of_nodup_map hnodup hx hy
  have hsame' : [g, f].toFinset = {g, f} := by decide
  rw [hsame'] at hs'
  have hproved : (s.proveFor 10 { rules := [turn] } 1 goal).any
      (fun r => r.toOption.any fun _ => true) = true := by decide +kernel
  obtain ⟨p, hp, -⟩ := exists_of_proveFor hproved {}
  have hfacts : s.content ⊆ s'.content := by
    intro x hx
    rw [hs.content] at hx
    rw [hs'.content]
    exact Finset.mem_insert_of_mem hx
  have hlimit : ∀ r ∈ [chain, turn], ∀ x ∈ r.constants, ∀ t ∈ x.fields, t.length ≤ fieldLimit := by
    decide +kernel
  have hgoal : ∀ x ∈ (Atom.ofQuery goal).constants, ∀ t ∈ x.fields, t.length ≤ fieldLimit := by
    decide +kernel
  have hmore : ∀ r ∈ [turn], r ∈ [chain, turn] := fun r hr => List.mem_cons_of_mem _ hr
  exact ⟨⟨hs, hs', p, hp⟩, prove_mono hs.coherent.addressed hs'.coherent hs'.writable.isOpen hfacts
    hmore (by decide) hlimit hgoal hp⟩

end Store
end FactGraph
