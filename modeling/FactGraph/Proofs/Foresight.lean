import FactGraph.Proofs.Concord
import FactGraph.Proofs.Enumeration
import FactGraph.Proofs.Validation

/-!
# What is found against a candidate depends on the facts only

Two views of the same facts may find them in different orders, and one may refuse a query that the
other one answers. Where both answer, every check finds the same against a candidate, whichever of
the views it reads (`Schema.concur_findings`).
-/

namespace FactGraph

/-! ## Views -/

/-- Whether two views show the same facts, and under a condition answer the same of the queries that
ask for given values. -/
structure View.Concurs (P : Prop) (A : Set Fact) (V : Set Value) (v w : View) : Prop where
  /-- The first view shows the facts. -/
  left : v.Shows A (factsOver V)
  /-- So does the second one. -/
  right : w.Shows A (factsOver V)
  /-- The facts have given values. -/
  values : A ⊆ factsOver V
  /-- Under the condition, one view answers if and only if the other one does. -/
  together : P → ∀ q, (∀ x ∈ (Atom.ofQuery q).constants, x ∈ V) →
    ((∃ l, v.find q = .ok l) ↔ ∃ l, w.find q = .ok l)

variable {P : Prop} {A : Set Fact} {V : Set Value} {v w : View} {f : Fact}

theorem View.Concurs.find (h : v.Concurs P A V w) {q : Query}
    (hq : ∀ x ∈ (Atom.ofQuery q).constants, x ∈ V) : Concur P Same (v.find q) (w.find q) where
  related := by
    intro l l' hl hl'
    have hasked : ∀ f, q.fact? = some f → f ∈ factsOver V := fun f hf => Query.mem_factsOver hq hf
    rw [same_iff]
    intro f
    constructor
    · intro hf
      obtain ⟨hA, haccepts⟩ := h.left.find q l hl hasked f hf
      exact h.right.mem_find q l' hl' f hA haccepts
    · intro hf
      obtain ⟨hA, haccepts⟩ := h.right.find q l' hl' hasked f hf
      exact h.left.mem_find q l hl f hA haccepts
  together := fun hP => h.together hP q hq

/-! ## Matches -/

namespace Condition

variable {c : Condition} {conditions : List Condition} {m : Match} {s : Substitution}
  {found found' : List Match}

theorem concur_extend (h : v.Concurs P A V w) (hc : ∀ x ∈ c.atom.constants, x ∈ V)
    (hm : Orderly V m) : Concur P Same (c.extend v m) (c.extend w m) := by
  rw [extend, extend]
  split
  · exact .ok (Matched.refl _)
  · next q hq =>
    refine (h.find (Atom.constants_mem_of_query? hc hm.values hq)).bind fun l l' _ _ hl => ?_
    exact .ok (hl.filterMap _)

theorem concur_join (h : v.Concurs P A V w)
    (hc : ∀ c ∈ conditions, ∀ x ∈ c.atom.constants, x ∈ V) (hfound : ∀ m ∈ found, Orderly V m)
    (hsame : Same found found') : Concur P Same (join v conditions found)
      (join w conditions found') := by
  induction conditions generalizing found found' with
  | nil => exact .ok hsame
  | cons c rest ih =>
    rw [List.forall_mem_cons] at hc
    rw [join, join]
    refine (Concur.mapM hsame fun m hm => concur_extend h hc.1 (hfound m hm)).bind ?_
    intro each each' heach _ hmatched
    exact ih hc.2 (orderly_flatten h.left h.values hc.1 hfound heach) hmatched.flatten

theorem orderly_join (hview : v.Shows A (factsOver V)) (hA : A ⊆ factsOver V)
    (hc : ∀ c ∈ conditions, ∀ x ∈ c.atom.constants, x ∈ V) (hfound : ∀ m ∈ found, Orderly V m)
    {out : List Match} (h : join v conditions found = .ok out) : ∀ m ∈ out, Orderly V m := by
  induction conditions generalizing found with
  | nil =>
    cases h
    exact hfound
  | cons c rest ih =>
    rw [List.forall_mem_cons] at hc
    obtain ⟨each, heach, h⟩ := bind_eq_ok.1 h
    exact ih hc.2 (orderly_flatten hview hA hc.1 hfound heach) h

theorem concur_allMatches (h : v.Concurs P A V w)
    (hc : ∀ c ∈ conditions, ∀ x ∈ c.atom.constants, x ∈ V) (hs : Orderly V ⟨s, []⟩) :
    Concur P Same (allMatches v conditions s) (allMatches w conditions s) := by
  refine (concur_join h hc (by simpa using hs) (Matched.refl _)).bind fun _ _ _ _ hout => ?_
  exact .ok (hout.filter _)

theorem orderly_allMatches (hview : v.Shows A (factsOver V)) (hA : A ⊆ factsOver V)
    (hc : ∀ c ∈ conditions, ∀ x ∈ c.atom.constants, x ∈ V) (hs : Orderly V ⟨s, []⟩)
    (h : allMatches v conditions s = .ok found) : ∀ m ∈ found, Orderly V m := by
  obtain ⟨out, hout, h⟩ := bind_eq_ok.1 h
  rw [← pure_eq_ok.1 h]
  exact fun m hm => orderly_join hview hA hc (by simpa using hs) hout m (List.mem_of_mem_filter hm)

end Condition

/-! ## Rules -/

namespace Rule

variable {r : Rule} {s : Substitution}

/-- The values in the conditions and the actions of a rule. -/
def mentioned (r : Rule) : List Value :=
  r.conditions.flatMap (fun c => c.atom.constants) ++ r.actions.flatMap fun a => a.atom.constants

/-- The candidate in the place of a condition gives values to begin with. -/
theorem orderly_unify {c : Condition} (hf : f ∈ factsOver V) (hs : c.atom.unify f [] = some s) :
    Condition.Orderly V ⟨s, []⟩ where
  ascending := Atom.ascending_unify Substitution.ascending_nil hs
  values := Atom.values_unify hf (by simp) hs

theorem mem_mentioned_of_eraseIdx {position : Nat} {c : Condition}
    (hc : c ∈ r.conditions.eraseIdx position) {x : Value} (hx : x ∈ c.atom.constants) :
    x ∈ r.mentioned :=
  List.mem_append_left _ (List.mem_flatMap.2 ⟨c, List.mem_of_mem_eraseIdx hc, hx⟩)

theorem concur_isMet (h : v.Concurs P A V w) {a : Atom} (ha : ∀ x ∈ a.constants, x ∈ V)
    (hs : ∀ e ∈ s, e.2 ∈ V) : Concur P Eq (isMet v a s) (isMet w a s) := by
  rw [isMet, isMet]
  split
  · exact .ok rfl
  · next q hq =>
    refine (h.find (Atom.constants_mem_of_query? ha hs hq)).bind fun l l' _ _ hl => ?_
    exact .ok (hl.any_eq _)

theorem concur_judge (h : v.Concurs P A V w) {a : Action} (ha : ∀ x ∈ a.atom.constants, x ∈ V)
    (hs : ∀ e ∈ s, e.2 ∈ V) : Concur P Eq (r.judge v s a) (r.judge w s a) := by
  cases a with
  | derive head => exact .ok rfl
  | reject reason => exact .ok rfl
  | require a =>
    refine (concur_isMet h ha hs).bind ?_
    rintro b _ - - rfl
    cases b with
    | true => exact .ok rfl
    | false => exact .ok rfl

variable (hr : ∀ x ∈ r.mentioned, x ∈ V)

include hr

theorem concur_matchesAt (h : v.Concurs P A V w) (hf : f ∈ factsOver V) (position : Nat)
    (c : Condition) : Concur P Same (r.matchesAt v f position c) (r.matchesAt w f position c) := by
  rw [matchesAt, matchesAt]
  split
  · exact .ok (Matched.refl _)
  · next s hs =>
    have hc : ∀ c ∈ r.conditions.eraseIdx position, ∀ x ∈ c.atom.constants, x ∈ V :=
      fun c hc x hx => hr x (mem_mentioned_of_eraseIdx hc hx)
    refine (Condition.concur_allMatches h hc (orderly_unify hf hs)).bind fun _ _ _ _ hl => ?_
    exact .ok (hl.filter _)

theorem orderly_matchesAt (hview : v.Shows A (factsOver V)) (hA : A ⊆ factsOver V)
    (hf : f ∈ factsOver V) {position : Nat} {c : Condition} {found : List Match}
    (h : r.matchesAt v f position c = .ok found) : ∀ m ∈ found, Condition.Orderly V m := by
  rw [matchesAt] at h
  split at h
  · cases h
    simp
  · next s hs =>
    have hc : ∀ c ∈ r.conditions.eraseIdx position, ∀ x ∈ c.atom.constants, x ∈ V :=
      fun c hc x hx => hr x (mem_mentioned_of_eraseIdx hc hx)
    obtain ⟨all, hall, h⟩ := bind_eq_ok.1 h
    rw [← pure_eq_ok.1 h]
    exact fun m hm => Condition.orderly_allMatches hview hA hc (orderly_unify hf hs) hall m
      (List.mem_of_mem_filter hm)

/-- A rule has the same against a fact in both views. -/
theorem concur_findings (h : v.Concurs P A V w) (hf : f ∈ factsOver V) :
    Concur P Same (r.findings v f) (r.findings w f) := by
  have haction : ∀ a ∈ r.actions, ∀ x ∈ a.atom.constants, x ∈ V := fun a ha x hx =>
    hr x (List.mem_append_right _ (List.mem_flatMap.2 ⟨a, ha, hx⟩))
  rw [findings, findings]
  refine (Concur.mapM (T := Same) (Matched.refl _) ?_).bind fun _ _ _ _ hl => .ok hl.flatten
  rintro ⟨c, position⟩ -
  refine (concur_matchesAt hr h hf position c).bind fun found found' hfound _ hsame => ?_
  have horderly := orderly_matchesAt hr h.left h.values hf hfound
  have heach : ∀ m ∈ found, Concur P Same (r.actions.mapM (r.judge v m.bindings))
      (r.actions.mapM (r.judge w m.bindings)) := fun m hm =>
    .mapM (Matched.refl _) fun a ha => concur_judge h (haction a ha) (horderly m hm).values
  refine (Concur.mapM hsame heach).bind fun _ _ _ _ hl => .ok ?_
  exact (hl.flatten.mono fun a b hab => hab ▸ Matched.refl a).flatten

/-! ### Rules whose values can be looked up -/

omit hr in
theorem exists_isMet (hview : v.Answers V) {a : Atom} (ha : ∀ x ∈ a.constants, x ∈ V)
    (hs : ∀ e ∈ s, e.2 ∈ V) : ∃ b, isMet v a s = .ok b := by
  rw [isMet]
  split
  · exact ⟨false, rfl⟩
  · next q hq =>
    exact exists_bind (hview q (Atom.constants_mem_of_query? ha hs hq)) fun l _ => ⟨_, rfl⟩

omit hr in
theorem exists_judge (hview : v.Answers V) {a : Action} (ha : ∀ x ∈ a.atom.constants, x ∈ V)
    (hs : ∀ e ∈ s, e.2 ∈ V) : ∃ found, r.judge v s a = .ok found := by
  cases a with
  | derive head => exact ⟨_, rfl⟩
  | reject reason => exact ⟨_, rfl⟩
  | require a =>
    refine exists_bind (exists_isMet hview ha hs) fun b _ => ?_
    cases b with
    | true => exact ⟨_, rfl⟩
    | false => exact ⟨_, rfl⟩

theorem exists_matchesAt (hview : v.Shows A (factsOver V)) (hanswers : v.Answers V)
    (hA : A ⊆ factsOver V) (hf : f ∈ factsOver V) (position : Nat) (c : Condition) :
    ∃ found, r.matchesAt v f position c = .ok found := by
  rw [matchesAt]
  split
  · exact ⟨[], rfl⟩
  · next s hs =>
    have hc : ∀ c ∈ r.conditions.eraseIdx position, ∀ x ∈ c.atom.constants, x ∈ V :=
      fun c hc x hx => hr x (mem_mentioned_of_eraseIdx hc hx)
    exact exists_bind (Condition.exists_allMatches hview hanswers hA hc (orderly_unify hf hs))
      fun l _ => ⟨_, rfl⟩

theorem exists_findings (hview : v.Shows A (factsOver V)) (hanswers : v.Answers V)
    (hA : A ⊆ factsOver V) (hf : f ∈ factsOver V) : ∃ found, r.findings v f = .ok found := by
  have haction : ∀ a ∈ r.actions, ∀ x ∈ a.atom.constants, x ∈ V := fun a ha x hx =>
    hr x (List.mem_append_right _ (List.mem_flatMap.2 ⟨a, ha, hx⟩))
  rw [findings]
  refine exists_bind (mapM_of_forall_exists ?_) fun l _ => ⟨_, rfl⟩
  rintro ⟨c, position⟩ -
  refine exists_bind (exists_matchesAt hr hview hanswers hA hf position c) fun found hfound => ?_
  have horderly := orderly_matchesAt hr hview hA hf hfound
  have heach : ∀ m ∈ found, ∃ l, r.actions.mapM (r.judge v m.bindings) = .ok l := fun m hm =>
    mapM_of_forall_exists fun a ha => exists_judge hanswers (haction a ha) (horderly m hm).values
  exact exists_bind (mapM_of_forall_exists heach) fun l _ => ⟨_, rfl⟩

end Rule

/-! ## Candidates -/

namespace Rulebook

/-- The rules in force that check candidates. -/
def checking (rules : Rulebook) : List Rule := rules.rules.filter fun r => r.enabled && r.validates

theorem concur_findings {rules : Rulebook} (h : v.Concurs P A V w)
    (hrules : ∀ r ∈ rules.checking, ∀ x ∈ r.mentioned, x ∈ V) (hf : f ∈ factsOver V) :
    Concur P Same (rules.findings v f) (rules.findings w f) :=
  (Concur.mapM (Matched.refl _) fun r hr => Rule.concur_findings (hrules r hr) h hf).bind
    fun _ _ _ _ hl => .ok hl.flatten

theorem exists_findings {rules : Rulebook} (hview : v.Shows A (factsOver V))
    (hanswers : v.Answers V) (hA : A ⊆ factsOver V)
    (hrules : ∀ r ∈ rules.checking, ∀ x ∈ r.mentioned, x ∈ V) (hf : f ∈ factsOver V) :
    ∃ found, rules.findings v f = .ok found :=
  exists_bind (mapM_of_forall_exists fun r hr =>
    Rule.exists_findings (hrules r hr) hview hanswers hA hf) fun _ _ => ⟨_, rfl⟩

end Rulebook

namespace Schema

variable {schema : Schema}

theorem concur_checkFunctional (h : v.Concurs P A V w) (hf : f ∈ factsOver V) :
    Concur P Same (schema.checkFunctional v f) (schema.checkFunctional w f) := by
  rw [checkFunctional, checkFunctional]
  split
  · have hq : ∀ x ∈ (Atom.ofQuery (.leaving f.subject (some f.predicate))).constants, x ∈ V := by
      intro x hx
      obtain ⟨hsubject, hpredicate, -⟩ := Fact.mem_factsOver.1 hf
      simp only [Term.mem_constants, Atom.ofQuery, Query.leaving, Atom.terms, Option.elim,
        List.mem_cons, List.not_mem_nil, or_false] at hx
      rcases hx with hx | hx | hx
      · cases hx
        exact hsubject
      · cases hx
        exact hpredicate
      · cases hx
    refine (h.find hq).bind fun l l' _ _ hl => .ok (Matched.map (Matched.filter ?_ _) _)
    rw [same_iff] at hl ⊢
    intro g
    rw [Fact.mem_sort, Fact.mem_sort, hl]
  · exact .ok (Matched.refl _)

theorem concur_checkExclusive (h : ∀ pair ∈ schema.exclusive, ∀ p,
      excluded? f.predicate pair = some p →
      Concur P Eq (v.contains { f with predicate := p }) (w.contains { f with predicate := p })) :
    Concur P Same (schema.checkExclusive v f) (schema.checkExclusive w f) := by
  refine (Concur.mapM (T := Same) (Matched.refl _) fun pair hpair => ?_).bind
    fun _ _ _ _ hl => .ok hl.flatten
  rw [checkPair, checkPair]
  cases hp : excluded? f.predicate pair with
  | none => exact .ok (Matched.refl _)
  | some p =>
    refine (h pair hpair p hp).bind ?_
    rintro b _ - - rfl
    cases b with
    | true => exact .ok (Matched.refl _)
    | false => exact .ok (Matched.refl _)

theorem checkTemporal_cases {found : List Finding} (h : schema.checkTemporal v f = .ok found) :
    found = [] ∨ found = [schema.temporalFinding f] := by
  rw [checkTemporal] at h
  split at h
  · split at h
    · obtain ⟨b, -, h⟩ := bind_eq_ok.1 h
      cases b with
      | true => exact Or.inr (pure_eq_ok.1 h).symm
      | false => exact Or.inl (pure_eq_ok.1 h).symm
    · exact Or.inl (pure_eq_ok.1 h).symm
  · exact Or.inl (pure_eq_ok.1 h).symm

/-- Whether a fact closes a cycle depends on the edges only. -/
theorem checkTemporal_unique (h : v.Concurs P A V w) (hv : v.Bounds A) (hw : w.Bounds A)
    {found found' : List Finding} (hfound : schema.checkTemporal v f = .ok found)
    (hfound' : schema.checkTemporal w f = .ok found') : found = found' := by
  have hiff : found = [] ↔ found' = [] :=
    (checkTemporal_eq_nil h.left hv hfound).trans (checkTemporal_eq_nil h.right hw hfound').symm
  rcases checkTemporal_cases hfound with rfl | rfl <;>
    rcases checkTemporal_cases hfound' with rfl | rfl <;> simp at hiff ⊢

/-- The same is found against a fact in both views, if both searches for cycles come to an end and
the facts with excluded predicates are looked up in the same way. -/
theorem concur_findings {rules : Rulebook} (h : v.Concurs P A V w) (hv : v.Bounds A)
    (hw : w.Bounds A) (hrules : ∀ r ∈ rules.checking, ∀ x ∈ r.mentioned, x ∈ V)
    (hf : f ∈ factsOver V)
    (hcontains : ∀ pair ∈ schema.exclusive, ∀ p, excluded? f.predicate pair = some p →
      Concur P Eq (v.contains { f with predicate := p }) (w.contains { f with predicate := p }))
    (htemporal : ∃ found, schema.checkTemporal v f = .ok found)
    (htemporal' : ∃ found, schema.checkTemporal w f = .ok found) :
    Concur P Same (schema.findings rules v f) (schema.findings rules w f) := by
  have hunique : Concur P Same (schema.checkTemporal v f) (schema.checkTemporal w f) :=
    .of_exists htemporal htemporal' fun a b ha hb =>
      checkTemporal_unique h hv hw ha hb ▸ Matched.refl a
  refine (concur_checkFunctional h hf).bind fun _ _ _ _ ha => ?_
  refine (concur_checkExclusive hcontains).bind fun _ _ _ _ hb => ?_
  refine hunique.bind fun _ _ _ _ hc => ?_
  refine (Rulebook.concur_findings h hrules hf).bind fun _ _ _ _ hd => ?_
  exact .ok (((ha.append hb).append hc).append hd)

end Schema
end FactGraph
