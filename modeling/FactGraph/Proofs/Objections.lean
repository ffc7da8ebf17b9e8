import FactGraph.Proofs.Candidates
import FactGraph.Proofs.Rearrangement

/-!
# What a rule has against candidates

A rule is tried on a candidate by putting the candidate in the place of each condition in turn and
joining the other conditions. So conditions are unified with facts in another order than they stand
in, and guards are tried at other times; but values for variables do not depend on the order
(`Condition.unifyEach_insert`), and all guards are tried in the end. Over all candidates and places
this adds up to the plain definition (`Rule.Objects`): the matches of all conditions by stored facts
and candidates, at least one of which is a candidate (`Store.validate_rule_exact`).
-/

namespace FactGraph

namespace Condition

variable {s s₀ s' : Substitution} {σ : Valuation} {c : Condition} {f : Fact}
  {conditions before after : List Condition} {facts earlier later : List Fact}

/-! ## Conditions in another order -/

theorem forall₂_insert {R : Condition → Fact → Prop} (hlength : before.length = earlier.length) :
    List.Forall₂ R (before ++ c :: after) (earlier ++ f :: later) ↔
      R c f ∧ List.Forall₂ R (before ++ after) (earlier ++ later) := by
  induction before generalizing earlier with
  | nil =>
    obtain rfl := List.length_eq_zero_iff.1 hlength.symm
    simp
  | cons b before ih =>
    cases earlier with
    | nil => simp at hlength
    | cons e earlier =>
      simp only [List.cons_append, List.forall₂_cons, ih (Nat.succ.inj hlength)]
      tauto

/-- Unifying conditions with facts gives the same whether one of the conditions comes in its turn or
before the others. -/
theorem unifyEach_insert (hlength : before.length = earlier.length) :
    unifyEach (before ++ c :: after) (earlier ++ f :: later) [] = some s ↔
      ∃ s₀, c.atom.unify f [] = some s₀ ∧
        unifyEach (before ++ after) (earlier ++ later) s₀ = some s := by
  have hfirst : unifyEach (before ++ c :: after) (earlier ++ f :: later) [] =
      unifyEach (c :: (before ++ after)) (f :: (earlier ++ later)) [] := by
    refine unifyEach_congr Substitution.ascending_nil (fun σ => ?_) fun v => ?_
    · rw [forall₂_insert hlength, List.forall₂_cons]
    · exact (List.perm_middle.flatMap_right _).mem_iff
  rw [hfirst]
  exact Option.bind_eq_some_iff

end Condition

/-! ## What a rule has against a match -/

namespace Rule

/-- What an action has against a match, as given facts stand: that it rejects all matches, or that
it requires a fact that is not there. -/
inductive Objection (r : Rule) (A : Set Fact) (s : Substitution) : Action → Finding → Prop
  /-- The match is rejected, for a reason or by the description of the rule. -/
  | reject (reason : Text) : Objection r A s (.reject reason)
    ⟨r.severity, r.name, s.render (if reason.isEmpty then r.description else reason)⟩
  /-- No fact matches the atom that is required. -/
  | require (a : Atom) (hnone : ∀ g ∈ A, a.unify g s = none) : Objection r A s (.require a)
    ⟨r.severity, r.name, "requires " ++ a.toText ++ " for " ++ s.render (variableText a)⟩

/-- What a rule has against some of given facts: the objections of its actions to the matches of its
conditions by given facts, one of which at least is among those. -/
def Objects (r : Rule) (A B : Set Fact) (x : Finding) : Prop :=
  ∃ premises s, (∀ f ∈ premises, f ∈ A) ∧ (∃ f ∈ premises, f ∈ B) ∧
    Condition.unifyAll r.conditions premises = some s ∧ ∃ a ∈ r.actions, r.Objection A s a x

variable {r : Rule} {view : View} {A B : Set Fact} {V : Set Value} {s : Substitution} {a : Atom}
  {act : Action} {f : Fact} {c : Condition} {position : Nat} {x : Finding} {found : List Finding}

theorem isMet_iff (hview : view.Shows A (factsOver V)) (ha : ∀ x ∈ a.constants, x ∈ V)
    (hs : Condition.Orderly V ⟨s, []⟩) {b : Bool} (h : isMet view a s = .ok b) :
    b = true ↔ ∃ g ∈ A, (a.unify g s).isSome := by
  -- A fact that matches the atom is accepted by the query.
  have hquery {g : Fact} (hg : (a.unify g s).isSome) :
      ∃ q, a.query? s = some q ∧ q.accepts g = true := by
    obtain ⟨s', hs'⟩ := Option.isSome_iff_exists.1 hg
    exact Atom.exists_query?_of_unify hs.ascending hs'
  rw [isMet] at h
  split at h
  · next hq =>
    cases h
    simp only [Bool.false_eq_true, false_iff, not_exists, not_and]
    intro g _ hg
    obtain ⟨q, hq', -⟩ := hquery hg
    rw [hq] at hq'
    cases hq'
  · next q hq =>
    obtain ⟨l, hl, h⟩ := bind_eq_ok.1 h
    rw [← pure_eq_ok.1 h, List.any_eq_true]
    constructor
    · rintro ⟨g, hg, hsome⟩
      have hasked : ∀ f, q.fact? = some f → f ∈ factsOver V :=
        fun f hf => Atom.mem_factsOver_of_query? ha hs.values hq hf
      exact ⟨g, (hview.find q l hl hasked g hg).1, hsome⟩
    · rintro ⟨g, hg, hsome⟩
      obtain ⟨q', hq', haccepts⟩ := hquery hsome
      rw [hq, Option.some.injEq] at hq'
      exact ⟨g, hview.mem_find q l hl g hg (hq' ▸ haccepts), hsome⟩

/-- An action is judged by its objections. -/
theorem mem_judge (hview : view.Shows A (factsOver V)) (ha : ∀ x ∈ act.atom.constants, x ∈ V)
    (hs : Condition.Orderly V ⟨s, []⟩) (h : r.judge view s act = .ok found) :
    x ∈ found ↔ r.Objection A s act x := by
  cases act with
  | derive head =>
    cases h
    simp only [List.not_mem_nil, false_iff]
    rintro ⟨⟩
  | reject reason =>
    cases h
    rw [List.mem_singleton]
    constructor
    · rintro rfl
      exact .reject reason
    · rintro ⟨⟩
      rfl
  | require a =>
    obtain ⟨b, hb, h⟩ := bind_eq_ok.1 h
    have hmet : b = true ↔ ∃ g ∈ A, (a.unify g s).isSome := isMet_iff hview ha hs hb
    cases b with
    | true =>
      cases h
      obtain ⟨g, hg, hsome⟩ := hmet.1 rfl
      simp only [List.not_mem_nil, false_iff]
      intro hobjection
      cases hobjection with
      | require _ hnone =>
        rw [hnone g hg] at hsome
        cases hsome
    | false =>
      cases h
      have hnone : ∀ g ∈ A, a.unify g s = none := by
        intro g hg
        rw [← Option.not_isSome_iff_eq_none]
        exact fun hsome => Bool.false_ne_true (hmet.2 ⟨g, hg, hsome⟩)
      rw [List.mem_singleton]
      constructor
      · rintro rfl
        exact .require a hnone
      · rintro ⟨⟩
        rfl

/-! ## A candidate in the place of a condition -/

theorem exists_split_of_getElem? {l : List Condition} (h : l[position]? = some c) :
    ∃ before after, l = before ++ c :: after ∧ position = before.length := by
  obtain ⟨hlt, rfl⟩ := List.getElem?_eq_some_iff.1 h
  refine ⟨l.take position, l.drop (position + 1), ?_, ?_⟩
  · rw [← List.drop_eq_getElem_cons hlt, List.take_append_drop]
  · rw [List.length_take]
    omega

variable (hr : ∀ x ∈ r.mentioned, x ∈ V)

include hr

/-- With a fact in the place of a condition, the bindings are found of all matches by members of the
set in which the fact stands in this place. -/
theorem exists_mem_matchesAt (hview : view.Shows A (factsOver V)) (hA : A ⊆ factsOver V)
    (hf : f ∈ factsOver V) {before after : List Condition}
    (hsplit : r.conditions = before ++ c :: after) {found : List Match}
    (h : r.matchesAt view f before.length c = .ok found) :
    (∃ m ∈ found, m.bindings = s) ↔
      ∃ earlier later, earlier.length = before.length ∧ (∀ g ∈ earlier ++ later, g ∈ A) ∧
        Condition.unifyAll r.conditions (earlier ++ f :: later) = some s := by
  have herase : r.conditions.eraseIdx before.length = before ++ after := by
    rw [hsplit, List.eraseIdx_append_of_length_le le_rfl, Nat.sub_self, List.eraseIdx_cons_zero]
  have hc : ∀ c ∈ before ++ after, ∀ x ∈ c.atom.constants, x ∈ V := by
    intro c hc x hx
    rw [← herase] at hc
    exact hr x (mem_mentioned_of_eraseIdx hc hx)
  rw [matchesAt, herase] at h
  split at h
  · next hnone =>
    cases h
    constructor
    · rintro ⟨m, hm, -⟩
      cases hm
    · rintro ⟨earlier, later, hlength, -, hall⟩
      obtain ⟨heach, -⟩ := Condition.unifyAll_eq_some.1 hall
      rw [hsplit] at heach
      obtain ⟨s₀, h₀, -⟩ := (Condition.unifyEach_insert hlength.symm).1 heach
      rw [hnone] at h₀
      cases h₀
  · next s₀ h₀ =>
    obtain ⟨all, hmatches, h⟩ := bind_eq_ok.1 h
    have hmem {m : Match} := Condition.mem_allMatches_from_iff (m := m) hview hA hc
      (orderly_unify hf h₀) hmatches
    rw [← pure_eq_ok.1 h]
    constructor
    · rintro ⟨m, hm, rfl⟩
      obtain ⟨hm, hholds⟩ := List.mem_filter.1 hm
      obtain ⟨hpremises, heach, -⟩ := hmem.1 hm
      have hlength := Condition.length_eq_of_unifyEach
        (Atom.ascending_unify Substitution.ascending_nil h₀) heach
      rw [List.length_append] at hlength
      have htake : (m.premises.take before.length).length = before.length := by
        rw [List.length_take]
        omega
      refine ⟨m.premises.take before.length, m.premises.drop before.length, htake, ?_, ?_⟩
      · rwa [List.take_append_drop]
      · refine Condition.unifyAll_eq_some.2 ⟨?_, hholds⟩
        rw [hsplit]
        exact (Condition.unifyEach_insert htake.symm).2
          ⟨s₀, h₀, by rwa [List.take_append_drop]⟩
    · rintro ⟨earlier, later, hlength, hpremises, hall⟩
      obtain ⟨heach, hholds⟩ := Condition.unifyAll_eq_some.1 hall
      rw [hsplit] at heach
      obtain ⟨s₁, h₁, hrest⟩ := (Condition.unifyEach_insert hlength.symm).1 heach
      rw [h₀, Option.some.injEq] at h₁
      subst h₁
      have hothers : Condition.allHold (before ++ after) s = true := by
        rw [Condition.allHold, List.all_eq_true] at hholds ⊢
        intro c hc
        rw [← herase] at hc
        exact hholds c (List.mem_of_mem_eraseIdx hc)
      exact ⟨⟨s, earlier ++ later⟩,
        List.mem_filter.2 ⟨hmem.2 ⟨hpremises, hrest, hothers⟩, hholds⟩, rfl⟩

/-- What all actions have against a match are their objections. -/
theorem mem_judged (hview : view.Shows A (factsOver V)) (hs : Condition.Orderly V ⟨s, []⟩)
    {judged : List (List Finding)} (h : r.actions.mapM (r.judge view s) = .ok judged) :
    x ∈ judged.flatten ↔ ∃ a ∈ r.actions, r.Objection A s a x := by
  have hjudge {a : Action} (ha : a ∈ r.actions) {l : List Finding}
      (hl : r.judge view s a = .ok l) : x ∈ l ↔ r.Objection A s a x := by
    refine mem_judge hview (fun y hy => hr y ?_) hs hl
    exact List.mem_append_right _ (List.mem_flatMap.2 ⟨a, ha, hy⟩)
  rw [mem_flatten_of_mapM h]
  constructor
  · rintro ⟨a, ha, l, hl, hx⟩
    exact ⟨a, ha, (hjudge ha hl).1 hx⟩
  · rintro ⟨a, ha, hx⟩
    obtain ⟨l, hl⟩ := exists_of_mapM h ha
    exact ⟨a, ha, l, hl, (hjudge ha hl).2 hx⟩

/-- What is found with a fact in the place of a condition are the objections to the matches in which
the fact stands in this place. -/
theorem mem_findingsAt (hview : view.Shows A (factsOver V)) (hA : A ⊆ factsOver V)
    (hf : f ∈ factsOver V) {before after : List Condition}
    (hsplit : r.conditions = before ++ c :: after) {found : List Match}
    (hfound : r.matchesAt view f before.length c = .ok found)
    {perMatch : List (List (List Finding))}
    (hperMatch : found.mapM (fun m => r.actions.mapM (r.judge view m.bindings)) = .ok perMatch) :
    x ∈ perMatch.flatten.flatten ↔
      ∃ earlier later s, earlier.length = before.length ∧ (∀ g ∈ earlier ++ later, g ∈ A) ∧
        Condition.unifyAll r.conditions (earlier ++ f :: later) = some s ∧
        ∃ a ∈ r.actions, r.Objection A s a x := by
  have horderly {m : Match} (hm : m ∈ found) : Condition.Orderly V ⟨m.bindings, []⟩ := by
    have hm' := orderly_matchesAt hr hview hA hf hfound m hm
    exact ⟨hm'.ascending, hm'.values⟩
  have hmatches : x ∈ perMatch.flatten.flatten ↔
      ∃ s, (∃ m ∈ found, m.bindings = s) ∧ ∃ a ∈ r.actions, r.Objection A s a x := by
    rw [List.mem_flatten]
    simp only [mem_flatten_of_mapM hperMatch]
    constructor
    · rintro ⟨l, ⟨m, hm, judged, hjudged, hl⟩, hx⟩
      refine ⟨m.bindings, ⟨m, hm, rfl⟩, ?_⟩
      exact (mem_judged hr hview (horderly hm) hjudged).1 (List.mem_flatten.2 ⟨l, hl, hx⟩)
    · rintro ⟨s, ⟨m, hm, rfl⟩, hobjection⟩
      obtain ⟨judged, hjudged⟩ := exists_of_mapM hperMatch hm
      obtain ⟨l, hl, hx⟩ :=
        List.mem_flatten.1 ((mem_judged hr hview (horderly hm) hjudged).2 hobjection)
      exact ⟨l, ⟨m, hm, judged, hjudged, hl⟩, hx⟩
  rw [hmatches]
  simp only [exists_mem_matchesAt hr hview hA hf hsplit hfound]
  constructor
  · rintro ⟨s, ⟨earlier, later, hlength, hpremises, hall⟩, hobjection⟩
    exact ⟨earlier, later, s, hlength, hpremises, hall, hobjection⟩
  · rintro ⟨earlier, later, s, hlength, hpremises, hall, hobjection⟩
    exact ⟨s, ⟨earlier, later, hlength, hpremises, hall⟩, hobjection⟩

/-- What a rule finds against a fact are its objections to the matches with the fact among their
premises. -/
theorem mem_findings (hview : view.Shows A (factsOver V)) (hA : A ⊆ factsOver V) (hf : f ∈ A)
    (h : r.findings view f = .ok found) : x ∈ found ↔ r.Objects A {f} x := by
  obtain ⟨perCondition, hcondition, h⟩ := bind_eq_ok.1 h
  rw [← pure_eq_ok.1 h, mem_flatten_of_mapM hcondition]
  constructor
  · rintro ⟨⟨c, position⟩, hc, l, hl, hx⟩
    obtain ⟨before, after, hsplit, rfl⟩ :=
      exists_split_of_getElem? (List.mem_zipIdx_iff_getElem?.1 hc)
    obtain ⟨found, hfound, hl⟩ := bind_eq_ok.1 hl
    obtain ⟨perMatch, hperMatch, hl⟩ := bind_eq_ok.1 hl
    rw [← pure_eq_ok.1 hl] at hx
    obtain ⟨earlier, later, s, -, hpremises, hall, hobjection⟩ :=
      (mem_findingsAt hr hview hA (hA hf) hsplit hfound hperMatch).1 hx
    refine ⟨earlier ++ f :: later, s, fun g hg => ?_, ⟨f, by simp, rfl⟩, hall, hobjection⟩
    rcases List.mem_append.1 hg with hg | hg
    · exact hpremises g (List.mem_append_left _ hg)
    · rcases List.mem_cons.1 hg with rfl | hg
      · exact hf
      · exact hpremises g (List.mem_append_right _ hg)
  · rintro ⟨premises, s, hpremises, ⟨g, hg, rfl⟩, hall, hobjection⟩
    -- The fact stands in the place of one of the conditions.
    obtain ⟨earlier, later, rfl⟩ := List.append_of_mem hg
    have hlength := Condition.length_eq_of_unifyEach Substitution.ascending_nil
      (Condition.unifyAll_eq_some.1 hall).1
    rw [List.length_append, List.length_cons] at hlength
    have hlt : earlier.length < r.conditions.length := by omega
    obtain ⟨c, hget⟩ : ∃ c, r.conditions[earlier.length]? = some c :=
      ⟨_, List.getElem?_eq_getElem hlt⟩
    have hc : (c, earlier.length) ∈ r.conditions.zipIdx := List.mem_zipIdx_iff_getElem?.2 hget
    obtain ⟨before, after, hsplit, hposition⟩ := exists_split_of_getElem? hget
    obtain ⟨l, hl⟩ := exists_of_mapM hcondition hc
    refine ⟨_, hc, l, hl, ?_⟩
    obtain ⟨found, hfound, hl⟩ := bind_eq_ok.1 hl
    obtain ⟨perMatch, hperMatch, hl⟩ := bind_eq_ok.1 hl
    rw [hposition] at hfound
    rw [← pure_eq_ok.1 hl, mem_findingsAt hr hview hA (hA hf) hsplit hfound hperMatch]
    refine ⟨earlier, later, s, hposition, fun g' hg' => hpremises g' ?_, hall, hobjection⟩
    rcases List.mem_append.1 hg' with hg' | hg'
    · exact List.mem_append_left _ hg'
    · exact List.mem_append_right _ (List.mem_cons_of_mem _ hg')

end Rule

/-! ## Candidates and one rule -/

theorem Rulebook.findings_singleton {r : Rule} (henabled : r.enabled = true)
    (hvalidates : r.validates = true) (view : View) (f : Fact) :
    ({ rules := [r] } : Rulebook).findings view f = r.findings view f := by
  have hchecking : [r].filter (fun r => r.enabled && r.validates) = [r] := by
    simp [henabled, hvalidates]
  rw [Rulebook.findings, hchecking, List.mapM_cons]
  cases r.findings view f with
  | error e => rfl
  | ok found => simp [bind, Except.bind, pure, Except.pure]

namespace Store

variable {s : Store} {schema : Schema} {r : Rule} {batch : List Fact} {report : Report}

/-- The findings of a validation are those against each candidate. -/
theorem mem_findings_of_validate {rules : Rulebook} (h : s.validate schema rules batch = .ok report)
    {x : Finding} : x ∈ report.findings ↔
      ∃ f ∈ batch, ∃ found, schema.findings rules (s.overlay batch) f = .ok found ∧ x ∈ found := by
  obtain ⟨each, heach, h⟩ := bind_eq_ok.1 h
  rw [← pure_eq_ok.1 h, Report.mem_addAll, mem_flatten_of_mapM heach]
  exact or_iff_right List.not_mem_nil

/-- With one rule, what is found against a candidate is what is found without rules and what the
rule finds. -/
theorem findings_singleton_eq_ok (henabled : r.enabled = true) (hvalidates : r.validates = true)
    {view : View} {f : Fact} {found : List Finding} :
    schema.findings { rules := [r] } view f = .ok found ↔
      ∃ a b, schema.findings {} view f = .ok a ∧ r.findings view f = .ok b ∧ a ++ b = found := by
  simp only [Schema.findings_eq_ok, Rulebook.findings_singleton henabled hvalidates]
  constructor
  · rintro ⟨a, b, c, d, ha, hb, hc, hd, rfl⟩
    exact ⟨a ++ b ++ c, d, ⟨a, b, c, [], ha, hb, hc, rfl, List.append_nil _⟩, hd, rfl⟩
  · rintro ⟨_, d, ⟨a, b, c, e, ha, hb, hc, he, rfl⟩, hd, rfl⟩
    cases he
    exact ⟨a, b, c, d, ha, hb, hc, hd, by simp⟩

/-- Where candidates are validated with one rule, the rule adds its objections to what is found
without it: those to all matches of its conditions by stored facts and candidates, at least one of
which is a candidate. -/
theorem mem_findings_of_rule (hs : s.Coherent) (henabled : r.enabled = true)
    (hvalidates : r.validates = true) (inj : Set.InjOn Fact.digest
      (factsOver (Rulebook.mentioned { rules := [r] } (s.contentWith batch))))
    (h : s.validate schema { rules := [r] } batch = .ok report) :
    ∃ plain, s.validate schema {} batch = .ok plain ∧ ∀ x, x ∈ report.findings ↔
      x ∈ plain.findings ∨ r.Objects (s.contentWith batch) {f | f ∈ batch} x := by
  have hover : s.contentWith batch ⊆
      factsOver (Rulebook.mentioned { rules := [r] } (s.contentWith batch)) :=
    Rulebook.subset_factsOver
  have hmentioned : ∀ x ∈ r.mentioned,
      x ∈ Rulebook.mentioned { rules := [r] } (s.contentWith batch) := by
    intro x hx
    exact Or.inr ⟨r, by simp [Rulebook.checking, henabled, hvalidates], hx⟩
  have hview := hs.shows_overlay_over inj hover
  have heach : ∀ f ∈ batch, ∃ found,
      schema.findings { rules := [r] } (s.overlay batch) f = .ok found := by
    obtain ⟨each, heach, -⟩ := bind_eq_ok.1 h
    exact fun f hf => exists_of_mapM heach hf
  have hplain : ∃ plain, s.validate schema {} batch = .ok plain := by
    refine exists_bind (mapM_of_forall_exists fun f hf => ?_) fun _ _ => ⟨_, rfl⟩
    obtain ⟨found, hfound⟩ := heach f hf
    obtain ⟨a, -, ha, -⟩ := (findings_singleton_eq_ok henabled hvalidates).1 hfound
    exact ⟨a, ha⟩
  obtain ⟨plain, hplain⟩ := hplain
  refine ⟨plain, hplain, fun x => ?_⟩
  rw [mem_findings_of_validate h, mem_findings_of_validate hplain]
  constructor
  · rintro ⟨f, hf, found, hfound, hx⟩
    obtain ⟨a, b, ha, hb, rfl⟩ := (findings_singleton_eq_ok henabled hvalidates).1 hfound
    rcases List.mem_append.1 hx with hx | hx
    · exact Or.inl ⟨f, hf, a, ha, hx⟩
    · obtain ⟨premises, t, hpremises, ⟨g, hg, rfl⟩, hmatch⟩ :=
        (Rule.mem_findings hmentioned hview hover (Or.inr hf) hb).1 hx
      exact Or.inr ⟨premises, t, hpremises, ⟨g, hg, hf⟩, hmatch⟩
  · rintro (⟨f, hf, a, ha, hx⟩ | ⟨premises, t, hpremises, ⟨g, hg, hgb⟩, hmatch⟩)
    · obtain ⟨found, hfound⟩ := heach f hf
      obtain ⟨a', b, ha', -, rfl⟩ := (findings_singleton_eq_ok henabled hvalidates).1 hfound
      rw [ha, Except.ok.injEq] at ha'
      exact ⟨f, hf, _, hfound, List.mem_append_left b (ha' ▸ hx)⟩
    · obtain ⟨found, hfound⟩ := heach g hgb
      obtain ⟨a, b, -, hb, rfl⟩ := (findings_singleton_eq_ok henabled hvalidates).1 hfound
      refine ⟨g, hgb, _, hfound, List.mem_append_right a ?_⟩
      exact (Rule.mem_findings hmentioned hview hover (Or.inr hgb) hb).2
        ⟨premises, t, hpremises, ⟨g, hg, rfl⟩, hmatch⟩

/-- What is found with one rule is what is found without it and what the rule objects to by its
plain definition, whenever the validation returns; and it returns if nothing that is looked up is
over the limit. -/
theorem validate_rule_exact (hs : s.Coherent) (ho : s.storage.isOpen = true)
    (hbatch : ∀ f ∈ batch, f.WithinLimit) (henabled : r.enabled = true)
    (hvalidates : r.validates = true) (inj : Set.InjOn Fact.digest
      (factsOver (Rulebook.mentioned { rules := [r] } (s.contentWith batch)))) :
    (∀ report, s.validate schema { rules := [r] } batch = .ok report →
      ∃ plain, s.validate schema {} batch = .ok plain ∧ ∀ x, x ∈ report.findings ↔
        x ∈ plain.findings ∨ r.Objects (s.contentWith batch) {f | f ∈ batch} x) ∧
    ((∀ x ∈ r.mentioned, x.WithinLimit) → schema.ExclusionsWithinLimit {f | f ∈ batch} →
      ∃ report, s.validate schema { rules := [r] } batch = .ok report) := by
  refine ⟨fun report h => mem_findings_of_rule hs henabled hvalidates inj h,
    fun hmentioned hexclusions => exists_validate hs ho hbatch ?_ hexclusions inj⟩
  intro other hother
  rw [List.mem_singleton.1 (List.mem_of_mem_filter hother)]
  exact hmentioned

/-- A candidate in the place of either condition of a rule, with a stored fact in the other one:
both matches are rejected, and what the rule requires is there for one of them only. -/
theorem validate_rule_exact_answered :
    let f : Fact := ⟨.named "a", "p", .named "b"⟩
    let g : Fact := ⟨.named "b", "p", .named "a"⟩
    let back : Rule := {
      name := "back"
      kind := .constraint
      conditions := [{ atom := ⟨.var "x", .named "p", .var "y"⟩ },
        { atom := ⟨.var "y", .named "p", .var "x"⟩ }]
      actions := [.reject "?x and ?y", .require ⟨.var "x", .named "p", .named "b"⟩] }
    let s := (insertAll { storage := .memory {} } [f]).1
    ∃ report, s.validate {} { rules := [back] } [g] = .ok report ∧
      (∀ x, x ∈ report.findings ↔ back.Objects (s.contentWith [g]) {x | x ∈ [g]} x) ∧
      back.Objects (s.contentWith [g]) {x | x ∈ [g]} ⟨.error, "back", "<a> and <b>"⟩ ∧
      back.Objects (s.contentWith [g]) {x | x ∈ [g]} ⟨.error, "back", "<b> and <a>"⟩ ∧
      back.Objects (s.contentWith [g]) {x | x ∈ [g]}
        ⟨.error, "back", "requires (?x <p> <b>) for <b>"⟩ ∧
      ¬ back.Objects (s.contentWith [g]) {x | x ∈ [g]}
        ⟨.error, "back", "requires (?x <p> <b>) for <a>"⟩ := by
  intro f g back s
  have hs : s.Represents {f} :=
    represents_insertAll_singleton ⟨rfl, rfl, rfl⟩ rfl (by decide +kernel)
  have hbatch : ∀ x ∈ [g], Storable x := by decide +kernel
  have hvalues : Rulebook.mentioned { rules := [back] } (s.contentWith [g]) ⊆
      {x | x ∈ [.named "a", .named "b", .named "p"]} := by
    have hfacts : ∀ y ∈ [f, g], ∀ x ∈ y.values,
        x ∈ [Value.named "a", .named "b", .named "p"] := by decide
    have hrule : ∀ r ∈ Rulebook.checking { rules := [back] }, ∀ x ∈ r.mentioned,
        x ∈ [Value.named "a", .named "b", .named "p"] := by decide
    rintro x (⟨y, hy, hx⟩ | ⟨r, hr, hx⟩)
    · refine hfacts y ?_ x hx
      rcases mem_contentWith.1 hy with hy | hy
      · rw [Finset.mem_singleton.1 ((hs.content y).1 hy)]
        exact List.mem_cons_self
      · exact List.mem_cons_of_mem _ hy
    · exact hrule r hr x hx
  have inj : Set.InjOn Fact.digest (factsOver {x | x ∈ [.named "a", .named "b", .named "p"]}) :=
    injOn_digest_of_nodup (by decide +kernel)
  have hlimit : ∀ x ∈ back.mentioned, x.WithinLimit := by
    show ∀ x ∈ back.mentioned, ∀ t ∈ x.fields, t.length ≤ fieldLimit
    decide +kernel
  obtain ⟨hexact, hreturns⟩ := @validate_rule_exact s {} back [g] hs.coherent hs.writable.isOpen
    (fun x hx => (hbatch x hx).withinLimit) rfl rfl (inj.mono (factsOver_mono hvalues))
  obtain ⟨report, hreport⟩ := hreturns hlimit fun x _ pair hpair => by cases hpair
  obtain ⟨plain, hplain, hmem⟩ := hexact report hreport
  have hnone : (s.validate {} {} [g]).toOption.map Report.findings = some [] := by decide +kernel
  have hfound : (s.validate {} { rules := [back] } [g]).toOption.map Report.findings =
      some [⟨.error, "back", "<b> and <a>"⟩, ⟨.error, "back", "requires (?x <p> <b>) for <b>"⟩,
        ⟨.error, "back", "<a> and <b>"⟩] := by decide +kernel
  rw [hplain] at hnone
  rw [hreport] at hfound
  rw [Option.some.inj hnone] at hmem
  simp only [List.not_mem_nil, false_or] at hmem
  have hlist := hmem
  rw [Option.some.inj hfound] at hlist
  refine ⟨report, hreport, hmem, (hlist _).1 ?_, (hlist _).1 ?_, (hlist _).1 ?_, fun hobjects => ?_⟩
  · decide
  · decide
  · decide
  · exact absurd ((hlist _).2 hobjects) (by decide)

end Store
end FactGraph
