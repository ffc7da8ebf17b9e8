import FactGraph.Proofs.Progress

/-!
# Joining conditions and checking premises

A join looks for the matches of conditions in a view, asking for the facts that fit the values
found so far and dropping a match as soon as a guard fails. A check is given one fact for every
condition and tries the guards at the end. They agree on what a match is: if the view answers
exactly, the join finds every list of facts that passes the check, with the values that the check
gives, and nothing else, and it finds nothing twice (`Condition.join_finds_what_checks`).

A join asks only for values that occur in the conditions and in the facts, so it is enough if the
view answers exactly when it is asked for those (`View.Exact`).
-/

namespace FactGraph

/-- Whether a view answers every query for given values with the facts of a set that the query
accepts, each of them once. -/
def View.Exact (v : View) (A : Set Fact) (V : Set Value) : Prop :=
  ∀ q, (∀ x ∈ (Atom.ofQuery q).constants, x ∈ V) →
    ∃ l, v.find q = .ok l ∧ l.Nodup ∧ ∀ f, f ∈ l ↔ f ∈ A ∧ q.accepts f = true

/-- Whether two views answer alike whatever asks for given values. -/
def View.Alike (V : Set Value) (v w : View) : Prop :=
  ∀ q, (∀ x ∈ (Atom.ofQuery q).constants, x ∈ V) → v.find q = w.find q

variable {view view' : View} {A : Set Fact} {V : Set Value}

open Classical in
/-- A view that answers exactly when it is asked for given values can be taken for one that answers
nothing else. -/
theorem View.Exact.exists_alike (h : view.Exact A V) : ∃ view' : View, View.Alike V view view' ∧
    view'.Shows A (factsOver V) ∧ view'.Distinct ∧ view'.Answers V := by
  let asked (q : Query) : Prop := ∀ x ∈ (Atom.ofQuery q).constants, x ∈ V
  let only : View :=
    { view with find := fun q => if asked q then view.find q else .error .noStorage }
  have hfind : ∀ q l, only.find q = .ok l →
      l.Nodup ∧ ∀ f, f ∈ l ↔ f ∈ A ∧ q.accepts f = true := by
    intro q l hl
    by_cases hq : asked q
    · obtain ⟨l', hl', nodup, hmem⟩ := h q hq
      have heq : only.find q = .ok l' := (if_pos hq).trans hl'
      cases hl.symm.trans heq
      exact ⟨nodup, hmem⟩
    · cases hl.symm.trans (if_neg hq : only.find q = .error .noStorage)
  refine ⟨only, fun q hq => (if_pos hq).symm, ⟨⟨?_⟩, ⟨?_⟩⟩, ?_, ?_⟩
  · intro q l hl _ f hf
    exact ((hfind q l hl).2 f).1 hf
  · intro q l hl f hf haccepts
    exact ((hfind q l hl).2 f).2 ⟨hf, haccepts⟩
  · intro q l hl
    exact (hfind q l hl).1
  · intro q hq
    obtain ⟨l, hl, -⟩ := h q hq
    exact ⟨l, (if_pos hq).trans hl⟩

/-- A store that represents a set answers exactly, where digests tell the facts over the values
apart for which it is asked. -/
theorem Store.Represents.exact_view {s : Store} {S : Finset Fact} (hs : s.Represents S)
    (hS : ∀ f ∈ S, f ∈ factsOver V) (inj : Set.InjOn Fact.digest (factsOver V))
    (hV : ∀ x ∈ V, x.WithinLimit) : s.view.Exact {f | f ∈ S} V := by
  intro q hq
  have hshows : s.view.Shows s.content (factsOver V) :=
    hs.coherent.shows_view inj fun f hf => hS f ((hs.content f).1 hf)
  obtain ⟨l, hl⟩ := answers_view hs.coherent.addressed hs.writable.isOpen hV q hq
  refine ⟨l, hl, hs.coherent.nodup_find hl, fun f => ?_⟩
  rw [Set.mem_ofPred_eq, ← hs.content f]
  constructor
  · exact hshows.find q l hl (fun g hg => Query.mem_factsOver hq hg) f
  · rintro ⟨hf, haccepts⟩
    exact hshows.mem_find q l hl f hf haccepts

namespace Condition

variable {c : Condition} {conditions : List Condition} {m : Match} {found : List Match}
  {s : Substitution}

theorem extend_congr (h : View.Alike V view view') (hc : ∀ x ∈ c.atom.constants, x ∈ V)
    (hm : Orderly V m) : c.extend view m = c.extend view' m := by
  unfold extend
  split
  · rfl
  · next q hq => rw [h q (Atom.constants_mem_of_query? hc hm.values hq)]

/-- Views that answer alike are joined alike, if one of them shows facts over the values that are
asked for. -/
theorem join_congr (h : View.Alike V view view') (hview : view'.Shows A (factsOver V))
    (hA : A ⊆ factsOver V) (hc : ∀ c ∈ conditions, ∀ x ∈ c.atom.constants, x ∈ V)
    (hfound : ∀ m ∈ found, Orderly V m) :
    join view conditions found = join view' conditions found := by
  induction conditions generalizing found with
  | nil => rfl
  | cons c rest ih =>
    rw [List.forall_mem_cons] at hc
    have heach : found.mapM (c.extend view) = found.mapM (c.extend view') :=
      mapM_congr fun m hm => extend_congr h hc.1 (hfound m hm)
    unfold join
    rw [heach]
    cases hext : found.mapM (c.extend view') with
    | error e => rfl
    | ok each => exact ih hc.2 (orderly_flatten hview hA hc.1 hfound hext)

/-- In a view that answers exactly, a join finds once each substitution that comes of given values by
unifying the conditions with facts and under which all guards hold, and nothing else. -/
theorem exists_allMatches_of_exact (hview : view.Exact A V) (hA : A ⊆ factsOver V)
    (hc : ∀ c ∈ conditions, ∀ x ∈ c.atom.constants, x ∈ V) (hs : Orderly V ⟨s, []⟩) :
    ∃ found, allMatches view conditions s = .ok found ∧ found.Nodup ∧ ∀ m, m ∈ found ↔
      (∀ f ∈ m.premises, f ∈ A) ∧ unifyEach conditions m.premises s = some m.bindings ∧
        allHold conditions m.bindings = true := by
  obtain ⟨view', halike, hshows, hdistinct, hanswers⟩ := hview.exists_alike
  have hsame : allMatches view conditions s = allMatches view' conditions s := by
    unfold allMatches
    rw [join_congr halike hshows hA hc (by simpa using hs)]
  obtain ⟨found, hfound⟩ := exists_allMatches hshows hanswers hA hc hs
  refine ⟨found, hsame.trans hfound, ?_, fun m => mem_allMatches_from_iff hshows hA hc hs hfound⟩
  exact (pairwise_allMatches hdistinct hfound).imp fun hne heq => hne (congrArg _ heq)

/-- In a view that answers exactly, whatever the conditions are, a join finds once each substitution
with a list of facts of which the check gives that substitution, and nothing else. -/
theorem join_finds_what_checks (hview : view.Exact A V) (hA : A ⊆ factsOver V)
    (hc : ∀ c ∈ conditions, ∀ x ∈ c.atom.constants, x ∈ V) :
    ∃ found, allMatches view conditions [] = .ok found ∧ found.Nodup ∧ ∀ m, m ∈ found ↔
      (∀ f ∈ m.premises, f ∈ A) ∧ unifyAll conditions m.premises = some m.bindings := by
  have hstart : Orderly V ⟨[], []⟩ := ⟨Substitution.ascending_nil, by simp⟩
  simp only [unifyAll_eq_some]
  exact exists_allMatches_of_exact hview hA hc hstart

/-- Two facts of a store make one chain with a guard on its end, and no other. -/
theorem join_finds_what_checks_chain :
    let f : Fact := ⟨.named "a", "p", .named "p"⟩
    let g : Fact := ⟨.named "p", "p", .integer 3⟩
    let s := (Store.insertAll { storage := .memory {} } [f, g]).1
    let conditions : List Condition := [{ atom := ⟨.var "x", .var "r", .var "y"⟩ },
      { atom := ⟨.var "y", .var "r", .var "z"⟩, guard := some ⟨"z", .greater, .integer 2⟩ }]
    ∃ found, allMatches s.view conditions [] = .ok found ∧ found.Nodup ∧
      (∃ m ∈ found, m.premises = [f, g]) ∧ ∀ m ∈ found, m.premises ≠ [f, f] := by
  intro f g s conditions
  have inj : Set.InjOn Fact.digest
      (factsOver {x | x ∈ [.named "a", .named "p", .integer 3]}) :=
    injOn_digest_of_nodup (by decide +kernel)
  have hover : ∀ x ∈ [f, g], x ∈ factsOver {x | x ∈ [.named "a", .named "p", .integer 3]} := by
    simp [f, g, Value.named]
  have hs : s.Represents [f, g].toFinset :=
    Store.represents_insertAll (by decide +kernel) (inj.mono hover)
  have hlimit : ∀ x ∈ [Value.named "a", .named "p", .integer 3], x.WithinLimit := by
    show ∀ x ∈ [Value.named "a", .named "p", .integer 3], ∀ t ∈ x.fields, t.length ≤ fieldLimit
    decide +kernel
  obtain ⟨found, hfound, nodup, hmem⟩ := join_finds_what_checks
    (hs.exact_view (fun x hx => hover x (List.mem_toFinset.1 hx)) inj hlimit)
    (fun x hx => hover x (List.mem_toFinset.1 hx)) (show ∀ c ∈ conditions, ∀ x ∈ c.atom.constants,
      x ∈ [Value.named "a", .named "p", .integer 3] by decide)
  refine ⟨found, hfound, nodup, ?_, fun m hm heq => ?_⟩
  · obtain ⟨b, hb⟩ := Option.isSome_iff_exists.1
      (show (unifyAll conditions [f, g]).isSome = true by decide +kernel)
    exact ⟨⟨b, [f, g]⟩, (hmem _).2 ⟨by simp, hb⟩, rfl⟩
  · have hnone : unifyAll conditions [f, f] = none := by decide +kernel
    rw [hmem, heq, hnone] at hm
    cases hm.2

end Condition
end FactGraph
