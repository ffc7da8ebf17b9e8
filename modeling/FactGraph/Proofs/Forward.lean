import FactGraph.Forward
import FactGraph.Proofs.Matching
import FactGraph.Proofs.Store

/-!
# Forward chaining computes the least closed set

A run of forward chaining stores nothing but consequences, each of which follows from the facts in
front of it (`Run.Keeps`). When a run comes to its end, its last sweep stored nothing: every step of
that sweep left the store as it was (`Run.Idle`), so all that the rules derive from the stored facts
is stored, and the same steps would do nothing once more.

Both together say that a run that returns leaves the least closed set that contains the facts with
which it began.
-/

namespace FactGraph

namespace Run

/-! ## What a run stores -/

/-- What a run keeps to that began with a store: it adds different new facts, each of which follows
from the facts in front of it. -/
structure Keeps (rules : List Rule) (A : Set Fact) (r : Run) : Prop where
  /-- The index describes what is stored. -/
  coherent : r.store.Coherent
  /-- The stored facts are the given ones and the derived ones. -/
  content : ∀ f, f ∈ r.store.content ↔ f ∈ A ∨ f ∈ r.derived
  /-- No given fact is derived. -/
  new : ∀ f ∈ r.derived, f ∉ A
  /-- No fact is derived twice. -/
  nodup : r.derived.Nodup
  /-- Every fact follows from those in front of it. -/
  derivation : Derivation rules A r.derived

variable {rules : List Rule} {A B : Set Fact} {r r' : Run}

/-- Before its first step a run keeps to it. -/
theorem keeps_start (rules : List Rule) {s : Store} (hs : s.Coherent) :
    Keeps rules s.content { store := s } :=
  ⟨hs, by simp, by simp, List.nodup_nil, .nil⟩

/-- What is counted does not matter. -/
theorem Keeps.congr (h : r.Keeps rules A) (hstore : r'.store = r.store)
    (hderived : r'.derived = r.derived) : r'.Keeps rules A :=
  ⟨hstore ▸ h.coherent, hstore ▸ hderived ▸ h.content, hderived ▸ h.new, hderived ▸ h.nodup,
    hderived ▸ h.derivation⟩

theorem Keeps.content_subset (h : r.Keeps rules A) : r.store.content ⊆ consequences rules A := by
  intro f hf
  rcases (h.content f).1 hf with hf | hf
  · exact subset_consequences rules A hf
  · exact Derivation.mem_consequences h.derivation f hf

/-- A run that has stored a closed set has stored all consequences. -/
theorem Keeps.content_eq (h : r.Keeps rules A) (hclosed : Closed rules r.store.content) :
    r.store.content = consequences rules A :=
  Set.Subset.antisymm h.content_subset
    (consequences_subset (fun f hf => (h.content f).2 (Or.inl hf)) hclosed)

/-- Storing a fact that follows from what is stored keeps to it. -/
theorem Keeps.derive (inj : Set.InjOn Fact.digest (consequences rules A)) (h : r.Keeps rules A)
    {s : Substitution} {head : Atom}
    (hf : ∀ f, head.instantiate? s = some f → Follows rules r.store.content f) :
    (derive s r head).1.Keeps rules A ∧ r.store.content ⊆ (derive s r head).1.store.content := by
  rw [Run.derive]
  split
  · exact ⟨h, Set.Subset.rfl⟩
  · next f hinst =>
    have hfollows := hf f hinst
    have hmem : f ∈ consequences rules A :=
      closed_consequences rules A f (hfollows.mono h.content_subset)
    split
    · exact ⟨h, Set.Subset.rfl⟩
    · next store id hi =>
      obtain ⟨hs, -, -⟩ := h.coherent.of_insert hi
      obtain ⟨hnew, hcontent⟩ := h.coherent.mem_content_insert
        (fun g hg heq => inj (h.content_subset hg) hmem heq) hi
      have hnot : ¬ (f ∈ A ∨ f ∈ r.derived) := fun hor => hnew.1 rfl ((h.content f).2 hor)
      rw [not_or] at hnot
      refine ⟨⟨hs, fun g => ?_, fun g hg => ?_, ?_, h.derivation.snoc (hfollows.mono ?_)⟩, ?_⟩
      · rw [hcontent, h.content, List.mem_append, List.mem_singleton, or_comm, or_assoc]
      · rcases List.mem_append.1 hg with hg | hg
        · exact h.new g hg
        · exact List.mem_singleton.1 hg ▸ hnot.1
      · rw [List.nodup_append]
        refine ⟨h.nodup, List.nodup_singleton _, ?_⟩
        rintro a ha b hb rfl
        exact hnot.2 (List.mem_singleton.1 hb ▸ ha)
      · exact fun g hg => (h.content g).1 hg
      · exact fun g hg => (hcontent g).2 (Or.inr hg)
    · next store id hi =>
      obtain ⟨-, -, -, hold, -⟩ := Store.insert_eq_ok hi
      rw [hold rfl]
      exact ⟨h.congr rfl rfl, Set.Subset.rfl⟩

/-- Acting on a match of stored facts keeps to it. -/
theorem Keeps.fire (inj : Set.InjOn Fact.digest (consequences rules A)) (h : r.Keeps rules A)
    {rule : Rule} (hrule : rule ∈ rules) (hsound : rule.Sound) (enabled : rule.enabled = true)
    {m : Match} (hpremises : ∀ f ∈ m.premises, f ∈ r.store.content)
    (hm : Condition.unifyAll rule.conditions m.premises = some m.bindings) :
    (fire rule r m).1.Keeps rules A ∧ r.store.content ⊆ (fire rule r m).1.store.content := by
  refine Attempt.forEach_induction
    (motive := fun r' : Run => r'.Keeps rules A ∧ r.store.content ⊆ r'.store.content)
    ⟨h.congr rfl rfl, Set.Subset.rfl⟩ ?_
  intro r' head hhead hr'
  have hfollows : ∀ f, head.instantiate? m.bindings = some f → Follows rules r'.store.content f :=
    fun f hf => ⟨rule, hrule,
      Rule.yields_of_unifyAll hsound enabled (fun g hg => hr'.2 (hpremises g hg)) hm hhead hf⟩
  obtain ⟨hkeeps, hmore⟩ := hr'.1.derive inj hfollows
  exact ⟨hkeeps, hr'.2.trans hmore⟩

/-- A store that holds consequences only shows them. -/
theorem Keeps.shows_view {asked : Set Fact} (h : r.Keeps rules A)
    (inj : Set.InjOn Fact.digest asked) (hasked : consequences rules A ⊆ asked) :
    r.store.view.Shows r.store.content asked :=
  h.coherent.shows_view inj (h.content_subset.trans hasked)

/-- The facts that a run may store or look up: the consequences, and what the conditions of rules
ask for when they are matched with consequences. -/
def encountered (rules : List Rule) (A : Set Fact) : Set Fact :=
  consequences rules A ∪
    {f | ∃ rule ∈ rules, Condition.LooksUp (consequences rules A) rule.conditions [] f}

theorem encountered_subset_factsOver (hrules : ∀ rule ∈ rules, rule.Sound) :
    encountered rules A ⊆ factsOver (vocabulary rules A) := by
  have hover := consequences_subset_factsOver hrules (Set.Subset.refl (vocabulary rules A))
  refine Set.union_subset hover ?_
  rintro f ⟨rule, hrule, hf⟩
  refine hf.mem_factsOver hover (fun c hc x hx => ?_) (by simp)
  exact Or.inr ⟨rule, hrule, List.mem_append_left _ (List.mem_flatMap.2 ⟨c, hc, hx⟩)⟩

theorem injOn_encountered (hrules : ∀ rule ∈ rules, rule.Sound)
    (inj : Set.InjOn Fact.digest (factsOver (vocabulary rules A))) :
    Set.InjOn Fact.digest (encountered rules A) :=
  inj.mono (encountered_subset_factsOver hrules)

section
variable (inj : Set.InjOn Fact.digest (encountered rules A))

include inj

theorem injOn_consequences : Set.InjOn Fact.digest (consequences rules A) :=
  inj.mono Set.subset_union_left

/-- The matches of a rule are those of lists of stored facts. -/
theorem Keeps.mem_allMatches (h : r.Keeps rules A) {rule : Rule} (hrule : rule ∈ rules)
    {found : List Match} (hfound : Condition.allMatches r.store.view rule.conditions [] = .ok found)
    {m : Match} : m ∈ found ↔ (∀ f ∈ m.premises, f ∈ r.store.content) ∧
      Condition.unifyAll rule.conditions m.premises = some m.bindings := by
  have hlooked : ∀ f, Condition.LooksUp r.store.content rule.conditions [] f →
      f ∈ encountered rules A := fun f hf => Or.inr ⟨rule, hrule, hf.mono h.content_subset⟩
  rw [Condition.unifyAll_eq_some]
  exact Condition.mem_allMatches_of_looksUp (h.shows_view inj Set.subset_union_left)
    Substitution.ascending_nil hlooked hfound

variable (hrules : ∀ rule ∈ rules, rule.Sound)

include hrules

theorem Keeps.apply (h : r.Keeps rules A) {rule : Rule} (hrule : rule ∈ rules) :
    (apply r rule).1.Keeps rules A := by
  rw [Run.apply]
  split
  · next henabled =>
    rw [Bool.and_eq_true] at henabled
    split
    · exact h
    · next found hfound =>
      refine (Attempt.forEach_induction
        (motive := fun r' : Run => r'.Keeps rules A ∧ r.store.content ⊆ r'.store.content)
        ⟨h, Set.Subset.rfl⟩ ?_).1
      intro r' m hm hr'
      obtain ⟨hpremises, hunify⟩ := (h.mem_allMatches inj hrule hfound).1 hm
      obtain ⟨hkeeps, hmore⟩ := hr'.1.fire (injOn_consequences inj) hrule
        (hrules rule hrule) henabled.1 (fun f hf => hr'.2 (hpremises f hf)) hunify
      exact ⟨hkeeps, hr'.2.trans hmore⟩
  · exact h

theorem Keeps.sweep (h : r.Keeps rules A) : (sweep rules r).1.Keeps rules A :=
  Attempt.forEach_induction h fun _ _ hrule hr' => hr'.apply inj hrules hrule

end

/-! ## Sweeps that store nothing -/

/-- Whether a step succeeds on every run with a given store, leaves the store as it is and derives
nothing. -/
def Idle (store : Store) (step : Run → Attempt Failure Run) : Prop :=
  ∀ r, r.store = store → ∃ r', step r = (r', none) ∧ r'.store = store ∧ r'.derived = r.derived

/-- Whether a step is idle whenever it succeeds and derives nothing. -/
structure Steady (step : Run → Attempt Failure Run) : Prop where
  /-- Nothing that was derived is lost. -/
  grows : ∀ r, r.derived.length ≤ (step r).1.derived.length
  /-- A step that derives nothing is idle. -/
  idle : ∀ r r', step r = (r', none) → r'.derived.length = r.derived.length → Idle r.store step

variable {step : Run → Attempt Failure Run} {store : Store}

theorem Idle.of_eq (h : Idle r.store step) {r' : Run} (hr : step r = (r', none)) :
    r'.store = r.store := by
  obtain ⟨r'', hr'', hstore, -⟩ := h r rfl
  rw [hr, Prod.mk.injEq] at hr''
  rw [hr''.1, hstore]

variable {α : Type} {each : Run → α → Attempt Failure Run} {l : List α}

theorem grows_forEach (h : ∀ a ∈ l, Steady fun r => each r a) (r : Run) :
    r.derived.length ≤ (Attempt.forEach each r l).1.derived.length :=
  Attempt.forEach_induction (motive := fun r' : Run => r.derived.length ≤ r'.derived.length)
    Nat.le.refl fun r' a ha hr' => hr'.trans ((h a ha).grows r')

/-- Where several steps derive nothing, each of them is idle. -/
theorem idle_of_forEach (h : ∀ a ∈ l, Steady fun r => each r a) {r r' : Run}
    (hr : Attempt.forEach each r l = (r', none)) (hlength : r'.derived.length = r.derived.length) :
    ∀ a ∈ l, Idle r.store fun r => each r a := by
  induction l generalizing r with
  | nil => simp
  | cons a rest ih =>
    rw [List.forall_mem_cons] at h
    rw [Attempt.forEach] at hr
    split at hr
    · next r₁ hr₁ =>
      -- The lengths between the beginning and the end are all the same.
      have hgrows := h.1.grows r
      have hgrows' := grows_forEach h.2 r₁
      rw [hr₁] at hgrows
      rw [hr] at hgrows'
      dsimp only at hgrows hgrows'
      have hidle := h.1.idle r r₁ hr₁ (by omega)
      have hstore := hidle.of_eq hr₁
      exact List.forall_mem_cons.2 ⟨hidle, hstore ▸ ih h.2 hr (by omega)⟩
    · cases hr

theorem Idle.forEach (h : ∀ a ∈ l, Idle store fun r => each r a) :
    Idle store fun r => Attempt.forEach each r l := by
  intro r hr
  induction l generalizing r with
  | nil => exact ⟨r, rfl, hr, rfl⟩
  | cons a rest ih =>
    rw [List.forall_mem_cons] at h
    obtain ⟨r₁, hr₁, hstore₁, hderived₁⟩ := h.1 r hr
    obtain ⟨r', hr', hstore', hderived'⟩ := ih h.2 r₁ hstore₁
    exact ⟨r', by simp only [Attempt.forEach, hr₁, hr'], hstore', hderived'.trans hderived₁⟩

theorem Steady.forEach (h : ∀ a ∈ l, Steady fun r => each r a) :
    Steady fun r => Attempt.forEach each r l where
  grows := grows_forEach h
  idle := fun _ _ hr hlength => .forEach (idle_of_forEach h hr hlength)

theorem steady_derive (s : Substitution) (head : Atom) : Steady fun r => derive s r head where
  grows := fun r => by
    simp only [derive]
    split
    · exact Nat.le.refl
    · split <;> simp
  idle := fun r r' hr hlength q hq => by
    simp only [derive] at hr ⊢
    split at hr
    · exact ⟨q, rfl, hq, rfl⟩
    · split at hr
      · cases hr
      · cases hr
        simp at hlength
      · next store id hi =>
        obtain ⟨-, -, -, hold, -⟩ := Store.insert_eq_ok hi
        simp only [hq, hi]
        exact ⟨_, rfl, hold rfl, rfl⟩

theorem steady_fire (rule : Rule) (m : Match) : Steady fun r => fire rule r m where
  grows := fun r => grows_forEach (fun head _ => steady_derive m.bindings head)
    { r with firings := r.firings + 1 }
  idle := fun _ _ hr hlength q hq =>
    (Steady.forEach fun head _ => steady_derive m.bindings head).idle _ _ hr hlength
      { q with firings := q.firings + 1 } hq

theorem steady_apply (rule : Rule) : Steady fun r => apply r rule where
  grows := fun r => by
    simp only [apply]
    split
    · split
      · exact Nat.le.refl
      · exact grows_forEach (fun m _ => steady_fire rule m) r
    · exact Nat.le.refl
  idle := fun r r' hr hlength q hq => by
    simp only [apply] at hr ⊢
    split at hr
    · next henabled =>
      split at hr
      · cases hr
      · next found hfound =>
        simp only [if_pos henabled, hq, hfound]
        exact (Steady.forEach fun m _ => steady_fire rule m).idle r r' hr hlength q hq
    · next henabled => exact ⟨q, if_neg henabled, hq, rfl⟩

/-! ### What an idle step says about the store -/

theorem exists_insert_of_idle {s : Substitution} {head : Atom}
    (h : Idle store fun r => derive s r head) {f : Fact} (hf : head.instantiate? s = some f) :
    ∃ id, store.insert f = .ok (store, id, false) := by
  obtain ⟨r', hr', hstore, hderived⟩ := h { store } rfl
  simp only [derive, hf] at hr'
  split at hr'
  · cases hr'
  · cases hr'
    simp at hderived
  · next store' id hi =>
    cases hr'
    dsimp only at hstore
    exact ⟨id, hstore ▸ hi⟩

theorem idle_derive {rule : Rule} {m : Match} (h : Idle store fun r => fire rule r m) :
    ∀ head ∈ rule.heads, Idle store fun r => derive m.bindings r head := by
  obtain ⟨r', hr', -, hderived⟩ := h { store } rfl
  exact idle_of_forEach (r := { store, firings := 1 }) (fun head _ => steady_derive m.bindings head)
    hr' (by rw [hderived])

theorem idle_fire {rule : Rule} (h : Idle store fun r => apply r rule)
    (henabled : rule.enabled = true) (hderives : rule.derives = true) :
    ∃ found, Condition.allMatches store.view rule.conditions [] = .ok found ∧
      ∀ m ∈ found, Idle store fun r => fire rule r m := by
  obtain ⟨r', hr', -, hderived⟩ := h { store } rfl
  simp only [apply, henabled, hderives, Bool.and_self, if_true] at hr'
  split at hr'
  · cases hr'
  · next found hfound =>
    exact ⟨found, hfound, idle_of_forEach (fun m _ => steady_fire rule m) hr' (by rw [hderived])⟩

section
variable (inj : Set.InjOn Fact.digest (encountered rules A))
  (hrules : ∀ rule ∈ rules, rule.Sound)

include inj hrules

/-- Where no rule has anything to do, the stored facts are closed under the rules. -/
theorem Keeps.closed (h : r.Keeps rules A)
    (hidle : ∀ rule ∈ rules, Idle r.store fun r => Run.apply r rule) :
    Closed rules r.store.content := by
  intro f hf
  have hmem : f ∈ consequences rules A :=
    closed_consequences rules A f (hf.mono h.content_subset)
  obtain ⟨rule, hrule, hyields⟩ := hf
  obtain ⟨premises, hpremises, s, hs, head, hhead, hinst⟩ :=
    hyields.exists_unifyAll (hrules rule hrule)
  have hderives : rule.derives = true := by
    rw [Rule.derives, List.isEmpty_eq_false_iff_exists_mem.2 ⟨head, hhead⟩]
    rfl
  obtain ⟨found, hfound, hfire⟩ := idle_fire (hidle rule hrule) hyields.1 hderives
  have hmatch : ⟨s, premises⟩ ∈ found :=
    (h.mem_allMatches inj hrule hfound).2 ⟨hpremises, hs⟩
  obtain ⟨id, hi⟩ := exists_insert_of_idle (idle_derive (hfire _ hmatch) head hhead) hinst
  obtain ⟨-, hnew, -⟩ := h.coherent.of_insert hi
  obtain ⟨g, hg, heq⟩ := hnew.1 rfl
  exact injOn_consequences inj (h.content_subset hg) hmem heq ▸ hg

/-- A run that comes to its end keeps to it, and no rule has anything left to do. -/
theorem Keeps.toFixpoint {bound left : Nat} {r' : Run} (h : r.Keeps rules A)
    (hr : toFixpoint rules bound left r = (r', none)) :
    r'.Keeps rules A ∧ ∀ rule ∈ rules, Idle r'.store fun r => Run.apply r rule := by
  induction left generalizing r with
  | zero => cases hr
  | succ left ih =>
    rw [Run.toFixpoint] at hr
    have hbegun : Keeps rules A { r with sweeps := r.sweeps + 1 } := h.congr rfl rfl
    have hkeeps := hbegun.sweep inj hrules
    split at hr
    · cases hr
    · next next hsweep =>
      rw [hsweep] at hkeeps
      split at hr
      · next hlength =>
        cases hr
        have hsteady : ∀ rule ∈ rules, Steady fun r => Run.apply r rule := fun rule _ =>
          steady_apply rule
        have hlength := beq_iff_eq.1 hlength
        have hidle := idle_of_forEach hsteady hsweep hlength
        have hstore := ((Steady.forEach hsteady).idle _ _ hsweep hlength).of_eq hsweep
        exact ⟨hkeeps, hstore ▸ hidle⟩
      · exact ih hkeeps hr

end

end Run

/-! ## The least closed set -/

namespace Store

variable {s : Store} {rules : Rulebook} {c : Counters} {bound : Nat} {derived : List Fact}

theorem infer_eq_ok (h : (s.infer c rules bound).outcome = .ok derived) :
    ∃ r : Run, Run.toFixpoint rules.rules bound bound { store := s } = (r, none) ∧
      (s.infer c rules bound).store = r.store ∧ derived = r.derived := by
  simp only [infer] at h ⊢
  split at h
  · cases h
  · next hfailed =>
    refine ⟨(Run.toFixpoint rules.rules bound bound { store := s }).1, ?_, ?_, ?_⟩
    · rw [← hfailed]
    · simp only
    · exact (Except.ok.inj h).symm

/-- Where no rule has anything to do, forward chaining derives nothing and changes nothing. -/
theorem infer_of_idle (h : ∀ rule ∈ rules.rules, Run.Idle s fun r => Run.apply r rule)
    (hbound : 1 ≤ bound) :
    (s.infer c rules bound).outcome = .ok [] ∧ (s.infer c rules bound).store = s := by
  obtain ⟨r, hr, hstore, hderived⟩ := Run.Idle.forEach h { store := s, sweeps := 1 } rfl
  have hfix : Run.toFixpoint rules.rules bound bound { store := s } = (r, none) := by
    obtain ⟨left, rfl⟩ : ∃ left, bound = left + 1 := ⟨bound - 1, by omega⟩
    have hsweep : Run.sweep rules.rules { store := s, sweeps := 1 } = (r, none) := hr
    simp only [Run.toFixpoint, Nat.zero_add, hsweep, hderived, BEq.rfl, if_true]
  simp only [infer, hfix]
  exact ⟨by rw [hderived], hstore⟩

/-- Forward chaining that returns leaves the consequences of the stored facts. -/
theorem content_infer (hs : s.Coherent) (hrules : ∀ r ∈ rules.rules, r.Sound)
    (inj : Set.InjOn Fact.digest (Run.encountered rules.rules s.content))
    (h : (s.infer c rules bound).outcome = .ok derived) :
    (s.infer c rules bound).store.content = consequences rules.rules s.content := by
  obtain ⟨r, hr, hstore, -⟩ := infer_eq_ok h
  obtain ⟨hkeeps, hidle⟩ := (Run.keeps_start rules.rules hs).toFixpoint inj hrules hr
  rw [hstore, hkeeps.content_eq (hkeeps.closed inj hrules hidle)]

/-- Forward chaining that returns leaves the least set that contains the stored facts and everything
that rules derive from its members. It answers with the new facts, each once and behind facts from
which it follows, and running it again does nothing. -/
theorem infer_isLeast (hs : s.Coherent) (hrules : rules.Made)
    (inj : Set.InjOn Fact.digest (factsOver (vocabulary rules.rules s.content)))
    (h : (s.infer c rules bound).outcome = .ok derived) :
    let s' := (s.infer c rules bound).store
    IsLeast {A | s.content ⊆ A ∧ Closed rules.rules A} s'.content ∧
      (derived.Nodup ∧ ∀ f, f ∈ derived ↔ f ∈ s'.content ∧ f ∉ s.content) ∧
      (∀ before f after, derived = before ++ f :: after →
        Follows rules.rules (s.content ∪ {g | g ∈ before}) f) ∧
      ∀ c' bound', 1 ≤ bound' →
        (s'.infer c' rules bound').outcome = .ok [] ∧ (s'.infer c' rules bound').store = s' := by
  obtain ⟨r, hr, hstore, rfl⟩ := infer_eq_ok h
  have inj' := Run.injOn_encountered hrules.sound inj
  obtain ⟨hkeeps, hidle⟩ := (Run.keeps_start rules.rules hs).toFixpoint inj' hrules.sound hr
  have hcontent := hkeeps.content_eq (hkeeps.closed inj' hrules.sound hidle)
  simp only [hstore]
  refine ⟨hcontent ▸ isLeast_consequences rules.rules s.content, ⟨hkeeps.nodup, fun f => ?_⟩,
    fun before f after hl => (hkeeps.derivation.of_eq_append hl).1,
    fun c' bound' hbound => infer_of_idle hidle hbound⟩
  rw [hkeeps.content]
  constructor
  · exact fun hf => ⟨Or.inr hf, hkeeps.new f hf⟩
  · exact fun hf => hf.1.resolve_left hf.2

/-- A rule that turns facts around derives one fact from another one. -/
theorem infer_isLeast_mirror :
    let f : Fact := ⟨.named "a", "p", .named "p"⟩
    let mirror : Rule := {
      name := "mirror"
      conditions := [{ atom := ⟨.var "x", .var "p", .var "y"⟩ }]
      actions := [.derive ⟨.var "y", .var "p", .var "x"⟩] }
    let rules : Rulebook := { rules := [mirror] }
    ∃ (s : Store) (derived : List Fact), s.content = {f} ∧
      (s.infer {} rules 2).outcome = .ok derived ∧ derived = [⟨.named "p", "p", .named "a"⟩] ∧
      IsLeast {A | s.content ⊆ A ∧ Closed rules.rules A} (s.infer {} rules 2).store.content := by
  intro f mirror rules
  have hmade : rules.Made := Rulebook.made_of_addAll rfl (by decide)
  obtain ⟨s, hs, hf, hrun⟩ := exists_of_insert f
    (fun s => (s.infer {} rules 2).outcome == .ok [⟨.named "p", "p", .named "a"⟩])
    (by decide +kernel)
  have houtcome := beq_iff_eq.1 hrun
  have inj : Set.InjOn Fact.digest (factsOver {x | x ∈ [.named "a", .named "p"]}) :=
    injOn_digest_of_nodup (by decide +kernel)
  have hvocabulary : vocabulary rules.rules s.content ⊆ {x | x ∈ [.named "a", .named "p"]} := by
    rw [hf, vocabulary_singleton]
    exact show ∀ x ∈ f.values ++ rules.rules.flatMap Rule.constants, _ from by decide
  obtain ⟨hleast, -⟩ := infer_isLeast hs hmade (inj.mono (factsOver_mono hvocabulary)) houtcome
  exact ⟨s, _, hf, houtcome, rfl, hleast⟩

end Store
end FactGraph
