import FactGraph.Proofs.Forward
import FactGraph.Proofs.Loops
import FactGraph.Proofs.Progress

/-!
# Proving what forward chaining derives

For a goal that accepts a fact which forward chaining stores, a great enough bound comes to the same
as any greater one: there is a proof, or the search was cut off because a goal has the key of one
above it. The search is cut off in this way indeed where a rule asks first for what it derives, but
never if the fact has a derivation without loops (`Search.run_of_mem_consequences`).
-/

namespace FactGraph

variable {rules : List Rule} {A : Set Fact} {f : Fact} {q : Query}

/-! ## Finitely many values -/

theorem Storage.mem_content_of_any {s : Storage}
    (h : (s.cells.items.any fun e => Encoding.decode e.2 == .ok f) = true) : f ∈ s.content := by
  obtain ⟨e, he, hf⟩ := List.any_eq_true.1 h
  exact ⟨e, he, beq_iff_eq.1 hf⟩

theorem finite_vocabulary (rules : List Rule) (hA : A.Finite) : (vocabulary rules A).Finite := by
  have hfacts : (⋃ f ∈ A, {x | x ∈ f.values}).Finite :=
    hA.biUnion fun f _ => f.values.finite_toSet
  have hrules : {x | x ∈ rules.flatMap Rule.constants}.Finite := List.finite_toSet _
  refine (hfacts.union hrules).subset ?_
  rintro x (⟨f, hf, hx⟩ | ⟨r, hr, hx⟩)
  · exact Or.inl (Set.mem_biUnion hf hx)
  · exact Or.inr (List.mem_flatMap.2 ⟨r, hr, hx⟩)

/-- With a great bound, a search for something that follows runs into no error and is not cut
because of the bound. If it finds nothing, it was cut because of a loop, and there is no derivation
without loops. -/
theorem Search.run_of_mem_consequences {s : Search} {V : Set Value} (hover : s.Over A V)
    (hview : s.view.Exhaustive A) (hbound : (keysOver V).ncard < s.bound)
    (hf : f ∈ consequences s.rules A) (hvalues : ∀ x ∈ f.values, x ∈ V)
    (haccepts : q.accepts f = true) :
    ∃ t outcome, s.run {} [{ goals := [.solve (.ofQuery q) none 0 []] }] = (t, .ok outcome) ∧
      t.depthCut = false ∧ (outcome = none → t.loopCut = true ∧ (Legible V →
        ∀ g, q.accepts g = true → ¬ Unlooped s.rules A [] (Atom.ofQuery q).instances g)) := by
  have hstands : (Atom.ofQuery q).StandsFor (fun _ => default) f :=
    Atom.standsFor_ofQuery.2 haccepts
  have hquery : ∀ x ∈ (Atom.ofQuery q).constants, x ∈ V := fun x hx =>
    hvalues x (hstands.constant_mem hx)
  obtain ⟨herror, hcut⟩ := run_of_confined (t := {}) hover.confined
    (List.forall_mem_singleton.2 (confined_first hquery))
  have hcut := hcut hbound
  generalize hrun : s.run {} [{ goals := [.solve (.ofQuery q) none 0 []] }] = r at hcut herror
  obtain ⟨t, e | outcome⟩ := r
  · exact absurd rfl (herror e)
  · refine ⟨t, outcome, rfl, hcut, ?_⟩
    rintro rfl
    refine ⟨?_, fun hV g hg hunlooped => ?_⟩
    · rw [← Bool.not_eq_false]
      intro hloop
      obtain ⟨-, -, hfinds⟩ := run_none hrun hcut hloop
      exact hfinds _ (List.mem_singleton_self _)
        (finds_of_mem_consequences hview hover.sound hf haccepts)
    · exact not_reaches_of_run hrun _ (List.mem_singleton_self _)
        (reaches_of_unlooped hover hview hV hbound hquery hg hunlooped)

namespace Store

variable {s : Store} {rules : Rulebook} {bound d : Nat} {goal : Query}

/-- A search in a store works with the values that are stored or occur in rules. -/
theorem over_view (hs : s.Coherent) (ho : s.storage.isOpen = true) (hrules : rules.Made)
    (hlimit : ∀ r ∈ rules.rules, ∀ x ∈ r.constants, x.WithinLimit)
    (inj : Set.InjOn Fact.digest (factsOver (vocabulary rules.rules s.content))) (bound : Nat) :
    Search.Over { view := s.view, rules := rules.rules, bound } s.content
      (vocabulary rules.rules s.content) := by
  have hwithin := withinLimit_vocabulary hlimit s
  have hfacts := subset_factsOver_vocabulary rules.rules s.content
  refine ⟨finite_vocabulary _ s.storage.finite_content, hwithin, hfacts,
    fun r hr x hx => Or.inr ⟨r, hr, hx⟩, hrules.sound, faithful_view hs.addressed inj hfacts,
    answers_view hs.addressed ho hwithin⟩

/-- A search that cut nothing because of the bound settles what proving comes to with any greater
one. -/
theorem prove_of_run {t : Tally} {outcome : Option Proof}
    (h : Search.run { view := s.view, rules := rules.rules, bound } {}
      [{ goals := [.solve (.ofQuery goal) none 0 []] }] = (t, .ok outcome))
    (hcut : t.depthCut = false) (hd : bound ≤ d) (c : Counters) :
    (s.prove c rules d goal).2 = outcome.elim (.error (.logic (t.failure bound goal))) .ok := by
  have hcut' : (Search.run { view := s.view, rules := rules.rules, bound } {}
      [{ goals := [.solve (.ofQuery goal) none 0 []] }]).1.depthCut = false := by
    rw [h]
    exact hcut
  have hrun := Search.run_of_bound (s := { view := s.view, rules := rules.rules, bound }) hd hcut'
  have hfailure : t.failure d goal = t.failure bound goal := by
    rw [Tally.failure, Tally.failure, hcut]
    rfl
  simp only [prove, hrun, h]
  cases outcome with
  | none => rw [hfailure]; rfl
  | some p => rfl

/-- Where forward chaining stores a fact that a goal accepts, proving the goal comes to the same
with every great bound: there is a proof, or a loop was cut off. There is a proof if texts tell the
values apart and some such fact has a derivation without loops. -/
theorem prove_settles (hs : s.Coherent) (ho : s.storage.isOpen = true) (hrules : rules.Made)
    (hlimit : ∀ r ∈ rules.rules, ∀ x ∈ r.constants, x.WithinLimit)
    (inj : Set.InjOn Fact.digest (factsOver (vocabulary rules.rules s.content)))
    {c : Counters} {derived : List Fact} {f : Fact}
    (hinfer : (s.infer c rules bound).outcome = .ok derived)
    (hf : f ∈ (s.infer c rules bound).store.content) (haccepts : goal.accepts f = true) :
    ∃ D outcome, (∀ d, D ≤ d → ∀ c', (s.prove c' rules d goal).2 = outcome) ∧
      ((∃ p, outcome = .ok p) ∨ outcome = .error (.logic (.circularGoal goal))) ∧
      (Legible (vocabulary rules.rules s.content) → ∀ g, goal.accepts g = true →
        Unlooped rules.rules s.content [] (Atom.ofQuery goal).instances g →
        ∃ p, outcome = .ok p) := by
  obtain ⟨r, hr, hstore, -⟩ := infer_eq_ok hinfer
  obtain ⟨hkeeps, -⟩ := (Run.keeps_start rules.rules hs).toFixpoint
    (Run.injOn_encountered hrules.sound inj) hrules.sound hr
  have hmem : f ∈ consequences rules.rules s.content := hkeeps.content_subset (hstore ▸ hf)
  have hvalues := consequences_subset_factsOver hrules.sound Set.Subset.rfl hmem
  have hover := over_view hs ho hrules hlimit inj
    ((keysOver (vocabulary rules.rules s.content)).ncard + 1)
  obtain ⟨t, outcome, hrun, hcut, hnone⟩ := Search.run_of_mem_consequences hover
    hs.exhaustive_view (Nat.lt_succ_self _) hmem hvalues haccepts
  refine ⟨_, _, fun d hd c' => prove_of_run hrun hcut hd c', ?_, fun hV g hg hunlooped => ?_⟩
  · cases outcome with
    | some p => exact Or.inl ⟨p, rfl⟩
    | none =>
      obtain ⟨hloop, -⟩ := hnone rfl
      refine Or.inr ?_
      simp [Tally.failure, hcut, hloop]
  · cases outcome with
    | some p => exact ⟨p, rfl⟩
    | none => exact absurd hunlooped ((hnone rfl).2 hV g hg)

/-- A rule that turns facts around proves what it derives with every great bound. -/
theorem prove_settles_turn :
    let f : Fact := ⟨.named "a", "b", .named "b"⟩
    let g : Fact := ⟨.named "b", "a", .named "a"⟩
    let turn : Rule := {
      name := "turn"
      conditions := [{ atom := ⟨.var "x", .named "b", .var "y"⟩ }]
      actions := [.derive ⟨.var "y", .named "a", .var "x"⟩] }
    let rules : Rulebook := { rules := [turn] }
    let goal : Query := { subject := some (.named "b"), predicate := some "a" }
    let s := (insertAll { storage := .memory {} } [f]).1
    (s.infer {} rules 2).outcome = .ok [g] ∧
      Unlooped rules.rules s.content [] (Atom.ofQuery goal).instances g ∧
      ∃ D p, ∀ d, D ≤ d → ∀ c, (s.prove c rules d goal).2 = .ok p := by
  intro f g turn rules goal s
  have hmade : rules.Made := Rulebook.made_of_addAll rfl (by decide)
  have hs : s.Represents {f} :=
    represents_insertAll_singleton ⟨rfl, rfl, rfl⟩ rfl (by decide +kernel)
  have hcontent : s.content = {f} := Set.ext fun x => by simp [hs.content]
  have hinfer : (s.infer {} rules 2).outcome = .ok [g] := by decide +kernel
  have hlimit : ∀ r ∈ rules.rules, ∀ x ∈ r.constants, ∀ t ∈ x.fields, t.length ≤ fieldLimit := by
    decide +kernel
  have hvocabulary : vocabulary rules.rules s.content ⊆ {x | x ∈ [.named "a", .named "b"]} := by
    rw [hcontent, vocabulary_singleton]
    exact show ∀ x ∈ f.values ++ rules.rules.flatMap Rule.constants, _ from by decide
  have inj : Set.InjOn Fact.digest (factsOver {x | x ∈ [.named "a", .named "b"]}) :=
    injOn_digest_of_nodup (by decide +kernel)
  have inj := inj.mono (factsOver_mono hvocabulary)
  have hg : g ∈ (s.infer {} rules 2).store.content := Storage.mem_content_of_any (by decide +kernel)
  have hlegible : Legible (vocabulary rules.rules s.content) := by
    have hseparator : ∀ x ∈ [Value.named "a", .named "b"], Atom.keySeparator ∉ x.toText := by
      decide +kernel
    have hinj : ∀ x ∈ [Value.named "a", .named "b"], ∀ y ∈ [Value.named "a", .named "b"],
        x.toText = y.toText → x = y := by
      decide +kernel
    exact ⟨fun x hx y hy => hinj x (hvocabulary hx) y (hvocabulary hy),
      fun x hx => hseparator x (hvocabulary hx)⟩
  have hunlooped : Unlooped rules.rules s.content [] (Atom.ofQuery goal).instances g := by
    let σ : Valuation := fun v => if v = "x" then .named "a" else .named "b"
    have hhead : Atom.StandsFor σ ⟨.var "y", .named "a", .var "x"⟩ g :=
      Atom.standsFor_iff.2 ⟨rfl, rfl, rfl⟩
    have hcondition : Atom.StandsFor σ ⟨.var "x", .named "b", .var "y"⟩ f :=
      Atom.standsFor_iff.2 ⟨rfl, rfl, rfl⟩
    have hholds : Condition.HoldsOf σ { atom := ⟨.var "x", .named "b", .var "y"⟩ } f :=
      ⟨hcondition, by simp⟩
    refine .derived (r := turn) (σ := σ) (List.not_mem_nil) (List.mem_singleton_self _) rfl
      (List.mem_singleton_self _) rfl hhead (.cons hholds .nil) fun solved c h rest heq => ?_
    rw [List.zip_cons_cons, List.zip_nil_right, List.singleton_eq_append_iff] at heq
    rcases heq with ⟨rfl, heq⟩ | ⟨-, heq⟩
    · cases heq
      -- The goal does not ask for the fact that the condition asks for.
      have hasked : f.values ∈ Condition.asked (Atom.ofQuery goal).instances
          ⟨.var "y", .named "a", .var "x"⟩ [] { atom := ⟨.var "x", .named "b", .var "y"⟩ } :=
        ⟨σ, ⟨g.values, ⟨σ, Atom.standsFor_ofQuery.2 (by decide)⟩, hhead⟩, by simp, hcondition⟩
      have hnot : f.values ∉ (Atom.ofQuery goal).instances := by
        rintro ⟨τ, hτ⟩
        exact absurd (Atom.standsFor_ofQuery.1 hτ) (by decide)
      refine .given (fun hmem => hnot ?_) (hcontent ▸ Set.mem_singleton f)
      rwa [List.mem_singleton.1 hmem] at hasked
    · cases heq
  obtain ⟨D, outcome, hall, -, hproves⟩ := prove_settles hs.coherent hs.writable.isOpen hmade hlimit
    inj hinfer hg (by decide : goal.accepts g = true)
  obtain ⟨p, rfl⟩ := hproves hlegible g (by decide) hunlooped
  exact ⟨hinfer, hunlooped, D, p, hall⟩

/-- A rule that asks first for what it derives. Forward chaining takes the path along two edges, but
proving it is cut off at the first step, whatever the bound. -/
theorem prove_left_recursion :
    let stored : List Fact := [⟨.named "a", "path", .named "b"⟩, ⟨.named "b", "edge", .named "c"⟩,
      ⟨.named "c", "edge", .named "d"⟩]
    let left : Rule := {
      name := "left"
      conditions := [{ atom := ⟨.var "x", .named "path", .var "y"⟩ },
        { atom := ⟨.var "y", .named "edge", .var "z"⟩ }]
      actions := [.derive ⟨.var "x", .named "path", .var "z"⟩] }
    let rules : Rulebook := { rules := [left] }
    let s := (insertAll { storage := .memory {} } stored).1
    let f : Fact := ⟨.named "a", "path", .named "d"⟩
    s.Represents stored.toFinset ∧ rules.Made ∧
      (∀ r ∈ rules.rules, ∀ x ∈ r.constants, x.WithinLimit) ∧
      (s.infer {} rules 3).outcome = .ok [⟨.named "a", "path", .named "c"⟩, f] ∧
      f ∈ (s.infer {} rules 3).store.content ∧
      ∀ d, 2 ≤ d → ∀ c, (s.prove c rules d (.exact f)).2 =
        .error (.logic (.circularGoal (.exact f))) := by
  intro stored left rules s f
  have hmade : rules.Made := Rulebook.made_of_addAll rfl (by decide)
  have hnodup : (stored.map Fact.digest).Nodup := by decide +kernel
  have hstored : s.Represents stored.toFinset :=
    represents_insertAll (by decide +kernel) fun f hf g hg => List.inj_on_of_nodup_map hnodup hf hg
  have hinfer : (s.infer {} rules 3).outcome = .ok [⟨.named "a", "path", .named "c"⟩, f] := by
    decide +kernel
  have hf : f ∈ (s.infer {} rules 3).store.content := Storage.mem_content_of_any (by decide +kernel)
  have hlimit : ∀ r ∈ rules.rules, ∀ x ∈ r.constants, ∀ t ∈ x.fields, t.length ≤ fieldLimit := by
    decide +kernel
  have hrun : Search.runFor { view := s.view, rules := rules.rules, bound := 2 } 10 {}
      [{ goals := [.solve (.ofQuery (.exact f)) none 0 []] }] =
        some ({ loopCut := true, expansions := 3 }, .ok none) := by
    decide +kernel
  exact ⟨hstored, hmade, hlimit, hinfer, hf, fun d hd c =>
    prove_of_run (Search.run_of_runFor hrun) rfl hd c⟩

end Store
end FactGraph
