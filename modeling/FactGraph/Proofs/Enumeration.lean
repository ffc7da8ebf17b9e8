import FactGraph.Proofs.Matching

/-!
# The order in which facts are found

A view may find facts in any order. Conditions can be matched if what they ask for can be looked up
(`Condition.exists_allMatches`), and where no fact is found twice, no list of facts matches twice
(`Condition.pairwise_allMatches`). Two views that show the same facts lead to the same matches in
some order (`Condition.perm_allMatches`).
-/

namespace FactGraph

/-- Whether a view finds no fact twice. -/
def View.Distinct (v : View) : Prop := ∀ q l, v.find q = .ok l → l.Nodup

/-- Whether a view answers whatever asks for given values. -/
def View.Answers (v : View) (V : Set Value) : Prop :=
  ∀ q, (∀ x ∈ (Atom.ofQuery q).constants, x ∈ V) → ∃ l, v.find q = .ok l

/-- A query asks for values of the atom and of the substitution from which it is made. -/
theorem Atom.constants_mem_of_query? {a : Atom} {s : Substitution} {V : Set Value}
    (ha : ∀ x ∈ a.constants, x ∈ V) (hs : ∀ e ∈ s, e.2 ∈ V) {q : Query} (hq : a.query? s = some q) :
    ∀ x ∈ (Atom.ofQuery q).constants, x ∈ V := by
  obtain ⟨hsubject, hpredicate, hobject⟩ := query?_eq_some.1 hq
  obtain ⟨subject, predicate, object⟩ := q
  intro x hx
  rw [Term.mem_constants] at hx
  simp only [ofQuery, terms, List.mem_cons, List.not_mem_nil, or_false] at hx
  rcases hx with hx | hx | hx
  · cases subject with
    | none => cases hx
    | some n =>
      cases hx
      exact mem_of_value? ha hs (by simp [terms]) hsubject
  · cases predicate with
    | none => cases hx
    | some p =>
      cases hx
      exact mem_of_value? ha hs (by simp [terms]) hpredicate
  · cases object with
    | none => cases hx
    | some o =>
      cases hx
      exact mem_of_value? ha hs (by simp [terms]) hobject

/-- A query for one fact asks for a fact over the values for which it asks. -/
theorem Query.mem_factsOver {q : Query} {f : Fact} {V : Set Value}
    (hq : ∀ x ∈ (Atom.ofQuery q).constants, x ∈ V) (hf : q.fact? = some f) : f ∈ factsOver V := by
  simp only [fact?, bind, Option.bind_eq_some_iff, pure, Option.some.injEq] at hf
  obtain ⟨n, hn, p, hp, o, ho, rfl⟩ := hf
  obtain ⟨hsubject, hpredicate, hobject⟩ := Atom.forall_constants_ofQuery.1 hq
  exact Fact.mem_factsOver.2 ⟨hsubject n hn, hpredicate p hp, hobject o ho⟩

namespace Condition

variable {view view' : View} {A : Set Fact} {V : Set Value} {c : Condition}
  {conditions : List Condition} {m m' : Match} {s : Substitution} {found next : List Match}

/-- What extends a match has one more premise. -/
theorem premises_of_mem_extend (h : c.extend view m = .ok next) (hm' : m' ∈ next) :
    ∃ f, m'.premises = m.premises ++ [f] := by
  rw [extend] at h
  split at h
  · cases h
    cases hm'
  · obtain ⟨l, -, h⟩ := bind_eq_ok.1 h
    rw [← pure_eq_ok.1 h] at hm'
    obtain ⟨f, -, hext⟩ := List.mem_filterMap.1 hm'
    obtain ⟨-, -, hpremises⟩ := extendBy_eq_some.1 hext
    exact ⟨f, hpremises⟩

/-! ## Matches that are found -/

theorem exists_extend (hview : view.Answers V) (hc : ∀ x ∈ c.atom.constants, x ∈ V)
    (hm : Orderly V m) : ∃ next, c.extend view m = .ok next := by
  rw [extend]
  split
  · exact ⟨[], rfl⟩
  · next q hq =>
    obtain ⟨l, hl⟩ := hview q (Atom.constants_mem_of_query? hc hm.values hq)
    exact ⟨_, bind_eq_ok.2 ⟨l, hl, rfl⟩⟩

/-- The matches that extend orderly ones by members are orderly. -/
theorem orderly_flatten (hview : view.Shows A (factsOver V)) (hA : A ⊆ factsOver V)
    (hc : ∀ x ∈ c.atom.constants, x ∈ V) (hfound : ∀ m ∈ found, Orderly V m)
    {each : List (List Match)} (h : found.mapM (c.extend view) = .ok each) :
    ∀ m ∈ each.flatten, Orderly V m := by
  intro m' hm'
  obtain ⟨m, hm, l, hl, hm'⟩ := (mem_flatten_of_mapM h).1 hm'
  have hasked {q : Query} {f : Fact} (hq : c.atom.query? m.bindings = some q)
      (hf : q.fact? = some f) : f ∈ factsOver V :=
    Atom.mem_factsOver_of_query? hc (hfound m hm).values hq hf
  obtain ⟨f, hf, hext⟩ :=
    (mem_extend hview (hfound m hm).ascending (fun _ _ => hasked) hl).1 hm'
  exact (hfound m hm).extendBy (hA hf) hext

theorem exists_join (hview : view.Shows A (factsOver V)) (hanswers : view.Answers V)
    (hA : A ⊆ factsOver V) (hc : ∀ c ∈ conditions, ∀ x ∈ c.atom.constants, x ∈ V)
    (hfound : ∀ m ∈ found, Orderly V m) : ∃ out, join view conditions found = .ok out := by
  induction conditions generalizing found with
  | nil => exact ⟨found, rfl⟩
  | cons c rest ih =>
    rw [List.forall_mem_cons] at hc
    have heach : ∀ m ∈ found, ∃ next, c.extend view m = .ok next :=
      fun m hm => exists_extend hanswers hc.1 (hfound m hm)
    refine exists_bind (mapM_of_forall_exists heach) fun each h => ?_
    exact ih hc.2 (orderly_flatten hview hA hc.1 hfound h)

theorem exists_allMatches (hview : view.Shows A (factsOver V)) (hanswers : view.Answers V)
    (hA : A ⊆ factsOver V) (hc : ∀ c ∈ conditions, ∀ x ∈ c.atom.constants, x ∈ V)
    (hs : Orderly V ⟨s, []⟩) : ∃ found, allMatches view conditions s = .ok found := by
  have hone : ∀ m ∈ [(⟨s, []⟩ : Match)], Orderly V m := by simpa using hs
  obtain ⟨out, hout⟩ := exists_join hview hanswers hA hc hone
  exact ⟨_, bind_eq_ok.2 ⟨out, hout, rfl⟩⟩

/-! ## Matches are found once -/

theorem pairwise_extend (hview : view.Distinct) (h : c.extend view m = .ok next) :
    next.Pairwise fun a b => a.premises ≠ b.premises := by
  rw [extend] at h
  split at h
  · cases h
    exact .nil
  · next q hq =>
    obtain ⟨l, hl, h⟩ := bind_eq_ok.1 h
    rw [← pure_eq_ok.1 h, List.pairwise_filterMap]
    refine (hview q l hl).imp fun hne a ha b hb heq => ?_
    obtain ⟨-, -, hpa⟩ := extendBy_eq_some.1 ha
    obtain ⟨-, -, hpb⟩ := extendBy_eq_some.1 hb
    rw [hpa, hpb, List.append_cancel_left_eq, List.cons.injEq] at heq
    exact hne heq.1

/-- The matches that extend different ones are different: they agree up to their last premises
only if the matches that they extend do. -/
theorem pairwise_flatten (hview : view.Distinct)
    (hfound : found.Pairwise fun a b => a.premises ≠ b.premises) {each : List (List Match)}
    (h : found.mapM (c.extend view) = .ok each) :
    each.flatten.Pairwise fun a b => a.premises ≠ b.premises := by
  have hall := forall₂_of_mapM h
  clear h
  induction hall with
  | nil => exact .nil
  | @cons m l found each hl hrest ih =>
    rw [List.pairwise_cons] at hfound
    rw [List.flatten_cons, List.pairwise_append]
    refine ⟨pairwise_extend hview hl, ih hfound.2, fun a ha b hb heq => ?_⟩
    obtain ⟨m', hm', l', hl', hb⟩ := (mem_flatten_of_mapM (mapM_of_forall₂ hrest)).1 hb
    obtain ⟨f, hf⟩ := premises_of_mem_extend hl ha
    obtain ⟨g, hg⟩ := premises_of_mem_extend hl' hb
    have hsame : m.premises = m'.premises := by
      rw [hf, hg] at heq
      exact (List.append_inj' heq rfl).1
    exact hfound.1 m' hm' hsame

theorem pairwise_join (hview : view.Distinct)
    (hfound : found.Pairwise fun a b => a.premises ≠ b.premises) {out : List Match}
    (h : join view conditions found = .ok out) :
    out.Pairwise fun a b => a.premises ≠ b.premises := by
  induction conditions generalizing found with
  | nil =>
    cases h
    exact hfound
  | cons c rest ih =>
    obtain ⟨each, heach, h⟩ := bind_eq_ok.1 h
    exact ih (pairwise_flatten hview hfound heach) h

/-- No two matches that are found have the same premises. -/
theorem pairwise_allMatches (hview : view.Distinct) (h : allMatches view conditions s = .ok found) :
    found.Pairwise fun a b => a.premises ≠ b.premises := by
  obtain ⟨out, hout, h⟩ := bind_eq_ok.1 h
  have hone : [(⟨s, []⟩ : Match)].Pairwise fun a b => a.premises ≠ b.premises :=
    List.pairwise_singleton _ _
  rw [← pure_eq_ok.1 h]
  exact (pairwise_join hview hone hout).filter _

/-! ## Two views of the same facts -/

/-- Views that show the same facts, none of them twice, lead to the same matches in some order. -/
theorem perm_allMatches (hview : view.Shows A (factsOver V)) (hview' : view'.Shows A (factsOver V))
    (hdistinct : view.Distinct) (hdistinct' : view'.Distinct) (hA : A ⊆ factsOver V)
    (hc : ∀ c ∈ conditions, ∀ x ∈ c.atom.constants, x ∈ V) {found' : List Match}
    (h : allMatches view conditions [] = .ok found)
    (h' : allMatches view' conditions [] = .ok found') : found.Perm found' := by
  have nodup {v : View} {l : List Match} (hv : v.Distinct)
      (hl : allMatches v conditions [] = .ok l) : l.Nodup :=
    (pairwise_allMatches hv hl).imp fun hne heq => hne (by rw [heq])
  rw [List.perm_ext_iff_of_nodup (nodup hdistinct h) (nodup hdistinct' h')]
  intro m
  rw [mem_allMatches_iff hview hA hc h, mem_allMatches_iff hview' hA hc h']

end Condition
end FactGraph
