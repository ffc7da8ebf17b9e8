import FactGraph.Proofs.Progress

/-!
# Forward chaining does not depend on the order in which facts are found

Two stores of the same facts may be kept in different storages, and may have got their facts in
different orders, so that they find them in different orders. Runs of forward chaining over them
stay alike (`Run.Alike`): after every rule and every sweep they have stored the same facts and acted
on the same number of matches, and so they end together and in the same way. Where a rule derives a
fact that cannot be stored, both of them fail in that rule, though maybe with facts stored that are
not the same (`Run.Tied`).
-/

namespace FactGraph

namespace Run

variable {rules : List Rule} {rule : Rule} {A : Set Fact} {r r₁ r₂ : Run}

/-- The run after a number of sweeps. -/
def after (rules : List Rule) : Nat → Run → Run
  | 0, r => r
  | k + 1, r => after rules k (sweep rules { r with sweeps := r.sweeps + 1 }).1

/-- What deriving keeps is kept by a sweep, if it does not depend on how many matches were acted
on. -/
theorem sweep_induction {P : Run → Prop}
    (derive : ∀ s r head, P r → P (derive s r head).1)
    (fired : ∀ r n, P r → P { r with firings := n }) (h : P r) : P (sweep rules r).1 := by
  refine Attempt.forEach_induction h fun r rule _ hr => ?_
  rw [apply]
  split
  · split
    · exact hr
    · exact Attempt.forEach_induction hr fun r m _ hr =>
        Attempt.forEach_induction (fired r _ hr) fun r head _ hr => derive _ r head hr
  · exact hr

/-- Only the beginning of a sweep is counted as one. -/
theorem sweeps_sweep (rules : List Rule) (r : Run) : (sweep rules r).1.sweeps = r.sweeps := by
  refine sweep_induction (P := fun q => q.sweeps = r.sweeps) (fun s q head hq => ?_)
    (fun _ _ hq => hq) rfl
  rw [derive]
  split
  · exact hq
  · split <;> exact hq

theorem sweeps_after (rules : List Rule) (k : Nat) (r : Run) :
    (after rules k r).sweeps = r.sweeps + k := by
  induction k generalizing r with
  | zero => rfl
  | succ k ih =>
    rw [after, ih, sweeps_sweep]
    dsimp only
    omega

/-- Whether two runs over the same facts have got equally far. -/
structure Alike (rules : List Rule) (A : Set Fact) (r₁ r₂ : Run) : Prop where
  /-- The first run keeps to what a run keeps to. -/
  left : r₁.Keeps rules A
  /-- So does the second one. -/
  right : r₂.Keeps rules A
  /-- The storage of the first run accepts changes. -/
  writable_left : r₁.store.storage.Writable
  /-- So does that of the second one. -/
  writable_right : r₂.store.storage.Writable
  /-- The same facts are stored. -/
  content : r₁.store.content = r₂.store.content
  /-- As many matches were acted on. -/
  firings : r₁.firings = r₂.firings

namespace Alike

/-- Runs that are alike have derived the same facts. -/
theorem derived (h : Alike rules A r₁ r₂) : r₁.derived.Perm r₂.derived := by
  have hmem : ∀ r : Run, r.Keeps rules A → ∀ f, f ∈ r.derived ↔ f ∈ r.store.content ∧ f ∉ A := by
    intro r hr f
    rw [hr.content]
    constructor
    · exact fun hf => ⟨Or.inr hf, hr.new f hf⟩
    · exact fun hf => hf.1.resolve_left hf.2
  rw [List.perm_ext_iff_of_nodup h.left.nodup h.right.nodup]
  intro f
  rw [hmem r₁ h.left, hmem r₂ h.right, h.content]

theorem begin (h : Alike rules A r₁ r₂) : Alike rules A { r₁ with sweeps := r₁.sweeps + 1 }
    { r₂ with sweeps := r₂.sweeps + 1 } where
  left := h.left.congr rfl rfl
  right := h.right.congr rfl rfl
  writable_left := h.writable_left
  writable_right := h.writable_right
  content := h.content
  firings := h.firings

end Alike

/-- Whether two attempts leave runs that are alike, or are both refused as some consequence cannot be
stored. -/
inductive Tied (rules : List Rule) (A : Set Fact) (a₁ a₂ : Attempt Failure Run) : Prop
  /-- Neither fails. -/
  | alike {r₁ r₂ : Run} (done₁ : a₁ = (r₁, none)) (done₂ : a₂ = (r₂, none))
    (alike : Alike rules A r₁ r₂)
  /-- Both are refused. -/
  | refused {f : Fact} (mem : f ∈ consequences rules A) (unstorable : ¬ Store.Storable f)
    (refused₁ : Refused a₁) (refused₂ : Refused a₂)

theorem Tied.exists_alike {a₁ a₂ : Attempt Failure Run} (h : Tied rules A a₁ a₂)
    (hstorable : ∀ f ∈ consequences rules A, Store.Storable f) :
    ∃ r₁ r₂, a₁ = (r₁, none) ∧ a₂ = (r₂, none) ∧ Alike rules A r₁ r₂ := by
  cases h with
  | alike done₁ done₂ h => exact ⟨_, _, done₁, done₂, h⟩
  | refused hf hunstorable => exact absurd (hstorable _ hf) hunstorable

namespace Alike

/-- If one step leaves runs alike or is refused in both, so does a list of steps. -/
theorem tied_forEach {each : Run → Rule → Attempt Failure Run} {l : List Rule}
    (step : ∀ r₁ r₂, Alike rules A r₁ r₂ → ∀ rule ∈ l,
      Tied rules A (each r₁ rule) (each r₂ rule)) (h : Alike rules A r₁ r₂) :
    Tied rules A (Attempt.forEach each r₁ l) (Attempt.forEach each r₂ l) := by
  induction l generalizing r₁ r₂ with
  | nil => exact .alike rfl rfl h
  | cons rule rest ih =>
    cases step r₁ r₂ h rule List.mem_cons_self with
    | refused hf hunstorable h₁ h₂ => exact .refused hf hunstorable h₁.forEach h₂.forEach
    | alike h₁ h₂ hq =>
      simp only [Attempt.forEach, h₁, h₂]
      exact ih (fun r₁ r₂ h rule hrule => step r₁ r₂ h rule (List.mem_cons_of_mem _ hrule)) hq

variable (hrules : ∀ rule ∈ rules, rule.Sound)
  (inj : Set.InjOn Fact.digest (factsOver (vocabulary rules A)))

include hrules inj

/-- A rule has the same matches in both runs, though maybe in another order. -/
theorem perm_matched (h : Alike rules A r₁ r₂) (hrule : rule ∈ rules) {found₁ found₂ : List Match}
    (h₁ : r₁.matched rule = .ok found₁) (h₂ : r₂.matched rule = .ok found₂) :
    found₁.Perm found₂ := by
  rw [matched] at h₁ h₂
  split at h₁
  · next hderives =>
    rw [if_pos hderives] at h₂
    have hwithin := consequences_subset_factsOver hrules (Set.Subset.refl (vocabulary rules A))
    have hover := h.left.content_subset.trans hwithin
    have hview₁ := h.left.shows_view inj hwithin
    have hview₂ := h.right.shows_view inj hwithin
    rw [← h.content] at hview₂
    refine Condition.perm_allMatches hview₁ hview₂ (fun _ _ hl => h.left.coherent.nodup_find hl)
      (fun _ _ hl => h.right.coherent.nodup_find hl) hover ?_ h₁ h₂
    intro c hc x hx
    exact Or.inr ⟨rule, hrule, List.mem_append_left _ (List.mem_flatMap.2 ⟨c, hc, hx⟩)⟩
  · next hderives =>
    rw [if_neg hderives] at h₂
    cases h₁
    cases h₂
    exact .nil

section
variable (hlimit : ∀ x ∈ vocabulary rules A, x.WithinLimit)

include hlimit

theorem tied_apply (h : Alike rules A r₁ r₂) (hrule : rule ∈ rules) :
    Tied rules A (Run.apply r₁ rule) (Run.apply r₂ rule) := by
  obtain ⟨found₁, hfound₁, hdoes₁⟩ :=
    h.left.does_apply hrules inj hlimit h.writable_left hrule
  obtain ⟨found₂, hfound₂, hdoes₂⟩ :=
    h.right.does_apply hrules inj hlimit h.writable_right hrule
  have hlength := (h.perm_matched hrules inj hrule hfound₁ hfound₂).length_eq
  -- Both runs are to add the same facts, so that whether one of them can be stored is the same.
  rw [← h.content] at hdoes₂
  cases hdoes₁ with
  | refused hf hunstorable hrefused₁ =>
    cases hdoes₂ with
    | refused _ _ hrefused₂ =>
      have hmem := closed_consequences rules A _ (Follows.mono ⟨rule, hrule, hf⟩
        h.left.content_subset)
      exact .refused hmem hunstorable hrefused₁ hrefused₂
    | adds hstorable => exact absurd (hstorable _ hf) hunstorable
  | adds hstorable hr₁' hleft hadds₁ =>
    cases hdoes₂ with
    | refused hf hunstorable => exact absurd (hstorable _ hf) hunstorable
    | adds _ hr₂' hright hadds₂ =>
      refine .alike hr₁' hr₂' ⟨hleft, hright, hadds₁.writable, hadds₂.writable, ?_, ?_⟩
      · rw [hadds₁.content, hadds₂.content, h.content]
      · rw [hadds₁.firings, hadds₂.firings, h.firings, hlength]

theorem tied_sweep (h : Alike rules A r₁ r₂) :
    Tied rules A (Run.sweep rules r₁) (Run.sweep rules r₂) :=
  h.tied_forEach fun _ _ h _ hrule => h.tied_apply hrules inj hlimit hrule

/-- Runs that are alike end after the same number of sweeps, and either both have come to their end
or both have no sweeps left, unless both are refused. -/
theorem tied_toFixpoint (h : Alike rules A r₁ r₂) (bound left : Nat) :
    (∃ k ≤ left, ∃ failed, Run.toFixpoint rules bound left r₁ = (Run.after rules k r₁, failed) ∧
      Run.toFixpoint rules bound left r₂ = (Run.after rules k r₂, failed) ∧
      Alike rules A (Run.after rules k r₁) (Run.after rules k r₂) ∧ (failed = none ∨
        failed = some (.logic (.noFixpoint bound (Run.after rules k r₁).derived.length)))) ∨
    (∃ f ∈ consequences rules A, ¬ Store.Storable f) ∧
      Refused (Run.toFixpoint rules bound left r₁) ∧
      Refused (Run.toFixpoint rules bound left r₂) := by
  induction left generalizing r₁ r₂ with
  | zero =>
    refine Or.inl ⟨0, Nat.le.refl, some (.logic (.noFixpoint bound r₁.derived.length)), rfl, ?_, h,
      Or.inr rfl⟩
    rw [Run.toFixpoint, ← h.derived.length_eq, Run.after]
  | succ left ih =>
    cases h.begin.tied_sweep hrules inj hlimit with
    | refused hf hunstorable h₁ h₂ =>
      exact Or.inr ⟨⟨_, hf, hunstorable⟩, h₁.toFixpoint, h₂.toFixpoint⟩
    | @alike q₁ q₂ h₁ h₂ hq =>
      have hlength := h.derived.length_eq
      have hlength' := hq.derived.length_eq
      have hafter₁ (k : Nat) : Run.after rules (k + 1) r₁ = Run.after rules k q₁ := by
        rw [Run.after, h₁]
      have hafter₂ (k : Nat) : Run.after rules (k + 1) r₂ = Run.after rules k q₂ := by
        rw [Run.after, h₂]
      by_cases hend : q₁.derived.length = r₁.derived.length
      · have hend₂ : q₂.derived.length = r₂.derived.length := by omega
        refine Or.inl ⟨1, by omega, none, ?_, ?_, ?_, Or.inl rfl⟩
        · simp [Run.toFixpoint, h₁, hend, Run.after]
        · simp [Run.toFixpoint, h₂, hend₂, Run.after]
        · rw [hafter₁, hafter₂]
          exact hq
      · have hend₂ : ¬ q₂.derived.length = r₂.derived.length := by omega
        have hnext₁ : Run.toFixpoint rules bound (left + 1) r₁ =
            Run.toFixpoint rules bound left q₁ := by simp [Run.toFixpoint, h₁, hend]
        have hnext₂ : Run.toFixpoint rules bound (left + 1) r₂ =
            Run.toFixpoint rules bound left q₂ := by simp [Run.toFixpoint, h₂, hend₂]
        rw [hnext₁, hnext₂]
        refine (ih hq).imp_left ?_
        rintro ⟨k, hk, hrest⟩
        refine ⟨k + 1, by omega, ?_⟩
        rw [hafter₁, hafter₂]
        exact hrest

end

variable (hstorable : ∀ x ∈ vocabulary rules A, x.Storable)

include hstorable

theorem sweep (h : Alike rules A r₁ r₂) : ∃ r₁' r₂', Run.sweep rules r₁ = (r₁', none) ∧
    Run.sweep rules r₂ = (r₂', none) ∧ Alike rules A r₁' r₂' :=
  (h.tied_sweep hrules inj fun x hx => (hstorable x hx).withinLimit).exists_alike
    (Store.storable_consequences hrules hstorable)

theorem after (h : Alike rules A r₁ r₂) (k : Nat) :
    Alike rules A (Run.after rules k r₁) (Run.after rules k r₂) := by
  induction k generalizing r₁ r₂ with
  | zero => exact h
  | succ k ih =>
    obtain ⟨r₁', r₂', h₁, h₂, hnext⟩ := h.begin.sweep hrules inj hstorable
    rw [Run.after, Run.after, h₁, h₂]
    exact ih hnext

/-- Where all consequences can be stored, runs that are alike are not refused. -/
theorem toFixpoint (h : Alike rules A r₁ r₂) (bound left : Nat) : ∃ k ≤ left, ∃ failed,
    Run.toFixpoint rules bound left r₁ = (Run.after rules k r₁, failed) ∧
    Run.toFixpoint rules bound left r₂ = (Run.after rules k r₂, failed) ∧
    Alike rules A (Run.after rules k r₁) (Run.after rules k r₂) ∧
    (failed = none ∨
      failed = some (.logic (.noFixpoint bound (Run.after rules k r₁).derived.length))) := by
  refine (h.tied_toFixpoint hrules inj (fun x hx => (hstorable x hx).withinLimit) bound
    left).resolve_right ?_
  rintro ⟨⟨f, hf, hunstorable⟩, -⟩
  exact hunstorable (Store.storable_consequences hrules hstorable f hf)

end Alike

end Run

namespace Store

variable {s s₁ s₂ : Store} {S : Finset Fact} {rules : Rulebook}

/-- Forward chaining ends as its run does. -/
theorem infer_of_toFixpoint {bound k : Nat} {failed : Option Failure} (c : Counters)
    (h : Run.toFixpoint rules.rules bound bound { store := s } =
      (Run.after rules.rules k { store := s }, failed)) :
    let r := Run.after rules.rules k { store := s }
    let i := s.infer c rules bound
    i.store = r.store ∧ i.outcome = failed.elim (.ok r.derived) .error ∧
      i.counters.sweeps = c.sweeps + k ∧ i.counters.firings = c.firings + r.firings := by
  have hk := Run.sweeps_after rules.rules k { store := s }
  rw [Nat.zero_add] at hk
  cases failed with
  | none => simp only [infer, h, hk, Option.elim, and_self]
  | some e => simp only [infer, h, hk, Option.elim, and_self]

/-- The values of storable facts and of rules with storable constants can be stored. -/
theorem storable_vocabulary {rules : List Rule} {A : Set Fact} (hA : ∀ f ∈ A, Storable f)
    (hconstants : ∀ r ∈ rules, ∀ x ∈ r.constants, x.Storable) :
    ∀ x ∈ vocabulary rules A, x.Storable := by
  rintro x (⟨f, hf, hx⟩ | ⟨r, hr, hx⟩)
  · exact storable_iff_values.1 (hA f hf) x hx
  · exact hconstants r hr x hx

theorem Represents.content_eq (h : s.Represents S) : s.content = S := Set.ext h.content

theorem Represents.alike (h₁ : s₁.Represents S) (rules : List Rule) (h₂ : s₂.Represents S) :
    Run.Alike rules (S : Set Fact) { store := s₁ } { store := s₂ } where
  left := h₁.content_eq ▸ Run.keeps_start rules h₁.coherent
  right := h₂.content_eq ▸ Run.keeps_start rules h₂.coherent
  writable_left := h₁.writable
  writable_right := h₂.writable
  content := h₁.content_eq.trans h₂.content_eq.symm
  firings := rfl

/-- Over stores of the same facts, forward chaining comes to the same: either both runs come to
their end or both run out of sweeps, after as many sweeps and firings; they derive the same facts in
some order, and after every sweep they have stored the same facts. -/
theorem infer_agrees (h₁ : s₁.Represents S) (h₂ : s₂.Represents S) (hrules : rules.Made)
    (hS : ∀ f ∈ S, Storable f) (hconstants : ∀ r ∈ rules.rules, ∀ x ∈ r.constants, x.Storable)
    (inj : Set.InjOn Fact.digest (factsOver (vocabulary rules.rules S))) (c₁ c₂ : Counters)
    (bound : Nat) :
    let i₁ := s₁.infer c₁ rules bound
    let i₂ := s₂.infer c₂ rules bound
    ((∃ derived₁ derived₂, i₁.outcome = .ok derived₁ ∧ i₂.outcome = .ok derived₂ ∧
        derived₁.Perm derived₂) ∨
      ∃ n, i₁.outcome = .error (.logic (.noFixpoint bound n)) ∧
        i₂.outcome = .error (.logic (.noFixpoint bound n))) ∧
    i₁.store.content = i₂.store.content ∧
    ∃ sweeps ≤ bound, ∃ firings,
      (i₁.counters.sweeps = c₁.sweeps + sweeps ∧ i₂.counters.sweeps = c₂.sweeps + sweeps) ∧
      (i₁.counters.firings = c₁.firings + firings ∧ i₂.counters.firings = c₂.firings + firings) ∧
      (i₁.store = (Run.after rules.rules sweeps { store := s₁ }).store ∧
        i₂.store = (Run.after rules.rules sweeps { store := s₂ }).store) ∧
      ∀ k, (Run.after rules.rules k { store := s₁ }).store.content =
          (Run.after rules.rules k { store := s₂ }).store.content ∧
        (Run.after rules.rules k { store := s₁ }).firings =
          (Run.after rules.rules k { store := s₂ }).firings := by
  have halike := h₁.alike rules.rules h₂
  have hstorable := storable_vocabulary (A := S) (by simpa using hS) hconstants
  have hafter := halike.after hrules.sound inj hstorable
  obtain ⟨k, hk, failed, ht₁, ht₂, -, hfailed⟩ :=
    halike.toFixpoint hrules.sound inj hstorable bound bound
  obtain ⟨hstore₁, houtcome₁, hsweeps₁, hfirings₁⟩ := infer_of_toFixpoint c₁ ht₁
  obtain ⟨hstore₂, houtcome₂, hsweeps₂, hfirings₂⟩ := infer_of_toFixpoint c₂ ht₂
  rw [← (hafter k).firings] at hfirings₂
  refine ⟨?_, ?_, k, hk, _, ⟨hsweeps₁, hsweeps₂⟩, ⟨hfirings₁, hfirings₂⟩, ⟨hstore₁, hstore₂⟩,
    fun j => ⟨(hafter j).content, (hafter j).firings⟩⟩
  · rcases hfailed with rfl | rfl
    · exact Or.inl ⟨_, _, houtcome₁, houtcome₂, (hafter k).derived⟩
    · exact Or.inr ⟨_, houtcome₁, houtcome₂⟩
  · rw [hstore₁, hstore₂]
    exact (hafter k).content

/-- A store in memory and one over a table that got two facts in different orders, and a rule that
turns facts around. -/
theorem infer_agrees_mirror :
    let f : Fact := ⟨.named "a", "p", .named "p"⟩
    let g : Fact := ⟨.named "a", "p", .named "a"⟩
    let mirror : Rule := {
      name := "mirror"
      conditions := [{ atom := ⟨.var "x", .named "p", .var "y"⟩ }]
      actions := [.derive ⟨.var "y", .named "p", .var "x"⟩] }
    let rules : Rulebook := { rules := [mirror] }
    let s₁ := (insertAll { storage := .memory {} } [f, g]).1
    let s₂ := (insertAll { storage := .table { path := "facts.db" } } [g, f]).1
    s₁.Represents {f, g} ∧ s₂.Represents {f, g} ∧
      (s₁.infer {} rules 2).store.content = (s₂.infer {} rules 2).store.content ∧
      ∃ sweeps ≤ 2, (s₁.infer {} rules 2).counters.sweeps = sweeps ∧
        (s₂.infer {} rules 2).counters.sweeps = sweeps := by
  intro f g mirror rules s₁ s₂
  have hmade : rules.Made := Rulebook.made_of_addAll rfl (by decide)
  have hfacts : ∀ x ∈ ({f, g} : Finset Fact), Storable x := by decide +kernel
  have hvocabulary : vocabulary rules.rules (({f, g} : Finset Fact) : Set Fact) ⊆
      {x | x ∈ [.named "a", .named "p"]} := by
    rintro x (⟨y, hy, hx⟩ | ⟨r, hr, hx⟩)
    · have hall : ∀ y ∈ ({f, g} : Finset Fact), ∀ x ∈ y.values,
          x ∈ [Value.named "a", .named "p"] := by decide
      exact hall y hy x hx
    · have hall : ∀ r ∈ rules.rules, ∀ x ∈ r.constants, x ∈ [Value.named "a", .named "p"] := by
        decide
      exact hall r hr x hx
  have inj : Set.InjOn Fact.digest (factsOver {x | x ∈ [.named "a", .named "p"]}) :=
    injOn_digest_of_nodup (by decide +kernel)
  have inj := inj.mono (factsOver_mono hvocabulary)
  have hdigest : Set.InjOn Fact.digest (({f, g} : Finset Fact) : Set Fact) :=
    inj.mono (subset_factsOver_vocabulary rules.rules _)
  have h₁ : s₁.Represents [f, g].toFinset :=
    represents_insertAll (by decide +kernel) fun x hx y hy heq =>
      hdigest (by simpa using hx) (by simpa using hy) heq
  have h₂ : s₂.Represents [g, f].toFinset :=
    represents_insertAll_over ⟨rfl, rfl, rfl⟩ rfl (by decide +kernel) fun x hx y hy heq =>
      hdigest (by simpa [or_comm] using hx) (by simpa [or_comm] using hy) heq
  have hsame₁ : [f, g].toFinset = {f, g} := by decide
  have hsame₂ : [g, f].toFinset = {f, g} := by decide
  rw [hsame₁] at h₁
  rw [hsame₂] at h₂
  have hconstants : ∀ r ∈ rules.rules, ∀ x ∈ r.constants, x.Storable := by
    have hall : ∀ r ∈ rules.rules, ∀ x ∈ r.constants, x ∈ f.values := by decide
    intro r hr x hx
    exact storable_iff_values.1 (hfacts f (by simp)) x (hall r hr x hx)
  obtain ⟨-, hcontent, sweeps, hsweeps, -, hcounted, -⟩ :=
    infer_agrees h₁ h₂ hmade hfacts hconstants inj {} {} 2
  exact ⟨h₁, h₂, hcontent, sweeps, hsweeps, hcounted.1.trans (Nat.zero_add sweeps),
    hcounted.2.trans (Nat.zero_add sweeps)⟩

end Store
end FactGraph
