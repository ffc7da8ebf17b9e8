import FactGraph.Proofs.Enumeration
import FactGraph.Proofs.Forward
import FactGraph.Proofs.Refinement

/-!
# What a step of forward chaining adds

Where all values of the stored facts and of the rules are within the limit and the storage accepts
changes, a step of forward chaining fails for one reason only: a fact that it would store has an
empty name. Applying a rule stores everything that the rule yields from what was stored in front of
it, or is refused if part of that cannot be stored (`Run.Keeps.does_apply`); nothing that it stores
is matched before the next rule has its turn.
-/

namespace FactGraph

/-! ## Storable values -/

/-- Whether facts over a value can be stored. -/
structure Value.Storable (x : Value) : Prop where
  /-- The texts are within the limit. -/
  withinLimit : x.WithinLimit
  /-- The value is not the node of the empty name. -/
  ne : x ≠ .named []

namespace Store

variable {s : Store} {f : Fact} {V : Set Value} {q : Query}

theorem storable_iff_values : Storable f ↔ ∀ x ∈ f.values, x.Storable := by
  rw [storable_iff]
  constructor
  · rintro ⟨hlimit, hpredicate, hsubject, hobject⟩ x hx
    refine ⟨hlimit x hx, ?_⟩
    simp only [Fact.values, List.mem_cons, List.not_mem_nil, or_false] at hx
    rcases hx with rfl | rfl | rfl
    · simpa [Value.named] using hsubject
    · simpa [Value.named] using hpredicate
    · exact hobject
  · intro h
    have hsubject := (h (.node f.subject) (by simp [Fact.values])).ne
    have hpredicate := (h (.named f.predicate) (by simp [Fact.values])).ne
    refine ⟨fun x hx => (h x hx).withinLimit, ?_, ?_, (h f.object (by simp [Fact.values])).ne⟩
    · simpa [Value.named] using hpredicate
    · simpa [Value.named] using hsubject

/-- What follows from storable facts by rules over storable values can be stored. -/
theorem storable_consequences {rules : List Rule} {A : Set Fact}
    (hrules : ∀ rule ∈ rules, rule.Sound) (hstorable : ∀ x ∈ vocabulary rules A, x.Storable) :
    ∀ f ∈ consequences rules A, Storable f := fun _ hf =>
  storable_iff_values.2 fun x hx =>
    hstorable x (consequences_subset_factsOver hrules Set.Subset.rfl hf x hx)

/-- The values of stored facts and of rules over values within the limit are within the limit. -/
theorem withinLimit_vocabulary {rules : List Rule}
    (hconstants : ∀ r ∈ rules, ∀ x ∈ r.constants, x.WithinLimit) (s : Store) :
    ∀ x ∈ vocabulary rules s.content, x.WithinLimit := by
  rintro x (⟨f, hf, hx⟩ | ⟨r, hr, hx⟩)
  · exact Fact.withinLimit_iff.1 (Storage.withinLimit_of_mem hf) x hx
  · exact hconstants r hr x hx

/-- Whatever asks for values within the limit is answered. -/
theorem answers_view (hs : s.storage.Addressed) (ho : s.storage.isOpen = true)
    (hV : ∀ x ∈ V, x.WithinLimit) : s.view.Answers V := fun _ hq =>
  exists_find hs ho (Atom.forall_constants_ofQuery.1 fun x hx => hV x (hq x hx))

end Store

namespace Run

variable {rules : List Rule} {rule : Rule} {A C : Set Fact} {r r' r'' : Run}

/-! ## What a step adds -/

/-- What a step adds to a run: facts and firings. -/
structure Adds (new : Set Fact) (fired : Nat) (r r' : Run) : Prop where
  /-- The storage still accepts changes. -/
  writable : r'.store.storage.Writable
  /-- The facts are stored. -/
  content : r'.store.content = r.store.content ∪ new
  /-- The firings are counted. -/
  firings : r'.firings = r.firings + fired

theorem Adds.trans {new new' : Set Fact} {fired fired' : Nat} (h : Adds new fired r r')
    (h' : Adds new' fired' r' r'') : Adds (new ∪ new') (fired + fired') r r'' where
  writable := h'.writable
  content := by rw [h'.content, h.content, Set.union_assoc]
  firings := by rw [h'.firings, h.firings, Nat.add_assoc]

theorem Adds.subset {new : Set Fact} {fired : Nat} (h : Adds new fired r r') :
    r.store.content ⊆ r'.store.content := by
  rw [h.content]
  exact Set.subset_union_left

/-- Whether an attempt fails because a fact that it would store cannot be stored. -/
def Refused (a : Attempt Failure Run) : Prop := ∃ e, a.2 = some (.logic (.store e))

/-- An attempt that adds facts to a run is refused exactly where one of them cannot be stored. -/
inductive Does (rules : List Rule) (A new : Set Fact) (fired : Nat) (r : Run)
    (a : Attempt Failure Run) : Prop
  /-- All of the facts can be stored, and they are. -/
  | adds {r' : Run} (storable : ∀ f ∈ new, Store.Storable f) (done : a = (r', none))
    (keeps : r'.Keeps rules A) (adds : Adds new fired r r')
  /-- One of the facts cannot be stored. -/
  | refused {f : Fact} (mem : f ∈ new) (unstorable : ¬ Store.Storable f) (refused : Refused a)

theorem Refused.forEach {α : Type} {each : Run → α → Attempt Failure Run} {a : α} {rest : List α}
    (h : Refused (each r a)) : Refused (Attempt.forEach each r (a :: rest)) := by
  obtain ⟨e, he⟩ := h
  rw [Attempt.forEach]
  split
  · next hdone => simp [hdone] at he
  · next hfailed => exact ⟨e, by rwa [hfailed] at he⟩

theorem Refused.toFixpoint {bound left : Nat}
    (h : Refused (sweep rules { r with sweeps := r.sweeps + 1 })) :
    Refused (toFixpoint rules bound (left + 1) r) := by
  obtain ⟨e, he⟩ := h
  rw [Run.toFixpoint]
  split
  · next hfailed => exact ⟨e, by rwa [hfailed] at he⟩
  · next hdone => simp [hdone] at he

/-- Where every step adds some facts to every run that has stored enough, all of them together add
what each of them adds. -/
theorem does_forEach {α : Type} {each : Run → α → Attempt Failure Run} {new : α → Set Fact}
    {fired : Nat} {l : List α}
    (step : ∀ r, r.Keeps rules A → r.store.storage.Writable → C ⊆ r.store.content → ∀ a ∈ l,
      Does rules A (new a) fired r (each r a))
    (h : r.Keeps rules A) (hw : r.store.storage.Writable) (hC : C ⊆ r.store.content) :
    Does rules A {f | ∃ a ∈ l, f ∈ new a} (l.length * fired) r (Attempt.forEach each r l) := by
  induction l generalizing r with
  | nil => exact .adds (by simp) rfl h ⟨hw, by simp, by simp⟩
  | cons a rest ih =>
    have hnew : {f | ∃ b ∈ a :: rest, f ∈ new b} = new a ∪ {f | ∃ b ∈ rest, f ∈ new b} := by
      ext f
      simp
    have hfired : (a :: rest).length * fired = fired + rest.length * fired := by
      rw [List.length_cons, Nat.succ_mul, Nat.add_comm]
    rw [hnew, hfired]
    cases step r h hw hC a List.mem_cons_self with
    | refused hf hunstorable hrefused => exact .refused (.inl hf) hunstorable hrefused.forEach
    | @adds r₁ hstorable hr₁ hkeeps₁ hadds₁ =>
      have heach : Attempt.forEach each r (a :: rest) = Attempt.forEach each r₁ rest := by
        simp only [Attempt.forEach, hr₁]
      have hrest := ih (fun r h hw hC b hb => step r h hw hC b (List.mem_cons_of_mem a hb))
        hkeeps₁ hadds₁.writable (hC.trans hadds₁.subset)
      rw [heach]
      cases hrest with
      | refused hf hunstorable hrefused => exact .refused (.inr hf) hunstorable hrefused
      | adds hstorable' hr' hkeeps' hadds' =>
        exact .adds (fun f hf => hf.elim (hstorable f) (hstorable' f)) hr' hkeeps'
          (hadds₁.trans hadds')

/-! ## Steps -/

theorem Keeps.does_derive (inj : Set.InjOn Fact.digest (consequences rules A))
    (h : r.Keeps rules A) (hw : r.store.storage.Writable) {s : Substitution} {head : Atom}
    (hf : ∀ f, head.instantiate? s = some f → Follows rules r.store.content f) :
    Does rules A {f | head.instantiate? s = some f} 0 r (Run.derive s r head) := by
  have hkeeps := (h.derive inj hf).1
  rw [Run.derive] at hkeeps ⊢
  cases hinst : head.instantiate? s with
  | none => exact .adds (by simp) rfl h ⟨hw, by simp, rfl⟩
  | some f =>
    by_cases hstorable : Store.Storable f
    · have hmem : f ∈ consequences rules A :=
        closed_consequences rules A f ((hf f hinst).mono h.content_subset)
      obtain ⟨⟨store, id, new⟩, hi⟩ := Store.exists_insert hw hstorable
      have hw' : store.storage.Writable := Store.writable_insert hw hi
      obtain ⟨-, hcontent⟩ := h.coherent.mem_content_insert
        (fun g hg heq => inj (h.content_subset hg) hmem heq) hi
      have hunion : store.content = r.store.content ∪ {g | some f = some g} := by
        ext g
        rw [hcontent, Set.mem_union, Set.mem_ofPred_eq, Option.some.injEq, or_comm, eq_comm]
      have hall : ∀ g ∈ {g | some f = some g}, Store.Storable g := by
        rintro g hg
        exact Option.some.inj hg ▸ hstorable
      simp only [hinst, hi] at hkeeps ⊢
      cases new with
      | true => exact .adds hall rfl hkeeps ⟨hw', hunion, rfl⟩
      | false => exact .adds hall rfl hkeeps ⟨hw', hunion, rfl⟩
    · obtain ⟨e, he, hkind⟩ := Store.exists_insert_error hstorable (s := r.store)
      have hfailure : insertFailure e = .logic (.store e) := by
        rw [insertFailure, hkind]
        rfl
      simp only [he, hfailure]
      exact .refused rfl hstorable ⟨e, rfl⟩

theorem Keeps.does_fire (inj : Set.InjOn Fact.digest (consequences rules A))
    (h : r.Keeps rules A) (hw : r.store.storage.Writable) (hrule : rule ∈ rules)
    (hsound : rule.Sound) (enabled : rule.enabled = true) {m : Match}
    (hpremises : ∀ f ∈ m.premises, f ∈ r.store.content)
    (hm : Condition.unifyAll rule.conditions m.premises = some m.bindings) :
    Does rules A {f | ∃ head ∈ rule.heads, head.instantiate? m.bindings = some f} 1 r
      (Run.fire rule r m) := by
  have hcounted : Keeps rules A { r with firings := r.firings + 1 } := h.congr rfl rfl
  have hheads : ∀ r₁ : Run, r₁.Keeps rules A → r₁.store.storage.Writable →
      r.store.content ⊆ r₁.store.content → ∀ head ∈ rule.heads,
      Does rules A {f | head.instantiate? m.bindings = some f} 0 r₁
        (Run.derive m.bindings r₁ head) := by
    intro r₁ h₁ hw₁ hmore head hhead
    refine h₁.does_derive inj hw₁ fun f hf => ?_
    exact ⟨rule, hrule, Rule.yields_of_unifyAll hsound enabled
      (fun g hg => hmore (hpremises g hg)) hm hhead hf⟩
  cases does_forEach hheads hcounted hw Set.Subset.rfl with
  | refused hf hunstorable hrefused => exact .refused hf hunstorable hrefused
  | adds hstorable hr' hkeeps hadds =>
    refine .adds hstorable hr' hkeeps ⟨hadds.writable, hadds.content, ?_⟩
    rw [hadds.firings, Nat.mul_zero, Nat.add_zero]

/-- The matches on which a run acts when a rule is applied. -/
def matched (r : Run) (rule : Rule) : Except StoreError (List Match) :=
  if rule.enabled && rule.derives then Condition.allMatches r.store.view rule.conditions []
  else .ok []

theorem apply_of_matched {found : List Match} (h : r.matched rule = .ok found) :
    apply r rule = Attempt.forEach (fire rule) r found := by
  rw [matched] at h
  rw [apply]
  split at h
  · next hderives => simp only [if_pos hderives, h]
  · next hderives =>
    cases h
    rw [if_neg hderives, Attempt.forEach_nil]

variable (hrules : ∀ rule ∈ rules, rule.Sound)
  (inj : Set.InjOn Fact.digest (factsOver (vocabulary rules A)))
  (hlimit : ∀ x ∈ vocabulary rules A, x.WithinLimit)

include hrules inj

/-- The matches are those of lists of stored facts, if the rule is in force. -/
theorem Keeps.of_mem_matched (h : r.Keeps rules A) (hrule : rule ∈ rules) {found : List Match}
    (hfound : r.matched rule = .ok found) {m : Match} (hm : m ∈ found) : rule.enabled = true ∧
      (∀ f ∈ m.premises, f ∈ r.store.content) ∧
      Condition.unifyAll rule.conditions m.premises = some m.bindings := by
  rw [Run.matched] at hfound
  split at hfound
  · next hderives =>
    rw [Bool.and_eq_true] at hderives
    exact ⟨hderives.1, (h.mem_allMatches (injOn_encountered hrules inj) hrule hfound).1 hm⟩
  · cases hfound
    cases hm

/-- What a rule yields from the stored facts is what its heads become under the matches. -/
theorem Keeps.yields_iff (h : r.Keeps rules A) (hrule : rule ∈ rules) {found : List Match}
    (hfound : r.matched rule = .ok found) {f : Fact} : rule.Yields r.store.content f ↔
      ∃ m ∈ found, ∃ head ∈ rule.heads, head.instantiate? m.bindings = some f := by
  constructor
  · intro hf
    obtain ⟨premises, hpremises, s, hunify, head, hhead, hinst⟩ :=
      Rule.Yields.exists_unifyAll (hrules rule hrule) hf
    have hderives : (rule.enabled && rule.derives) = true := by
      rw [hf.1, Bool.true_and, Rule.derives,
        List.isEmpty_eq_false_iff_exists_mem.2 ⟨head, hhead⟩]
      rfl
    rw [Run.matched, if_pos hderives] at hfound
    have hmatch : ⟨s, premises⟩ ∈ found :=
      (h.mem_allMatches (injOn_encountered hrules inj) hrule hfound).2 ⟨hpremises, hunify⟩
    exact ⟨⟨s, premises⟩, hmatch, head, hhead, hinst⟩
  · rintro ⟨m, hm, head, hhead, hf⟩
    obtain ⟨enabled, hpremises, hunify⟩ := h.of_mem_matched hrules inj hrule hfound hm
    exact Rule.yields_of_unifyAll (hrules rule hrule) enabled hpremises hunify hhead hf

include hlimit

theorem Keeps.exists_matched (h : r.Keeps rules A) (hw : r.store.storage.Writable)
    (hrule : rule ∈ rules) : ∃ found, r.matched rule = .ok found := by
  rw [Run.matched]
  split
  · have hanswers : r.store.view.Answers (vocabulary rules A) :=
      Store.answers_view h.coherent.addressed hw.isOpen hlimit
    have hover := h.content_subset.trans (consequences_subset_factsOver hrules Set.Subset.rfl)
    have hview := h.shows_view inj (consequences_subset_factsOver hrules Set.Subset.rfl)
    refine Condition.exists_allMatches hview hanswers hover ?_ ⟨Substitution.ascending_nil, by simp⟩
    intro c hc x hx
    exact Or.inr ⟨rule, hrule, List.mem_append_left _ (List.mem_flatMap.2 ⟨c, hc, hx⟩)⟩
  · exact ⟨[], rfl⟩

/-- Applying a rule acts on every match among the facts that are stored, and adds everything that
the rule yields from them, if all of it can be stored. -/
theorem Keeps.does_apply (h : r.Keeps rules A) (hw : r.store.storage.Writable)
    (hrule : rule ∈ rules) : ∃ found, r.matched rule = .ok found ∧
      Does rules A {f | rule.Yields r.store.content f} found.length r (Run.apply r rule) := by
  obtain ⟨found, hfound⟩ := h.exists_matched hrules inj hlimit hw hrule
  -- What the matches before a match have stored does not matter for it.
  have hfire : ∀ r₁ : Run, r₁.Keeps rules A → r₁.store.storage.Writable →
      r.store.content ⊆ r₁.store.content → ∀ m ∈ found,
      Does rules A {f | ∃ head ∈ rule.heads, head.instantiate? m.bindings = some f} 1 r₁
        (Run.fire rule r₁ m) := by
    intro r₁ h₁ hw₁ hmore m hm
    obtain ⟨enabled, hpremises, hunify⟩ := h.of_mem_matched hrules inj hrule hfound hm
    exact h₁.does_fire (injOn_consequences (injOn_encountered hrules inj)) hw₁ hrule
      (hrules rule hrule) enabled
      (fun f hf => hmore (hpremises f hf)) hunify
  have hyields : {f | rule.Yields r.store.content f} = {f | ∃ m ∈ found, ∃ head ∈ rule.heads,
      head.instantiate? m.bindings = some f} :=
    Set.ext fun f => h.yields_iff hrules inj hrule hfound
  refine ⟨found, hfound, ?_⟩
  rw [hyields, apply_of_matched hfound, ← Nat.mul_one found.length]
  exact does_forEach hfire h hw Set.Subset.rfl

end Run
end FactGraph
