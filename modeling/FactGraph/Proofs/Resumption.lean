import FactGraph.Proofs.Confluence
import FactGraph.Proofs.Recursion

/-!
# Forward chaining can be resumed

A run of forward chaining that has no sweeps left leaves what it stored, and another run may go on
from there. Whatever the bounds of the runs, the store stays between the facts with which the first
one began and their consequences (`Store.Between.inferAll`). There are finitely many consequences,
and every sweep but the last stores one of them, so that a run with a great bound comes to its end
wherever it begins.
-/

namespace FactGraph

variable {rules : List Rule} {A : Set Fact} {V : Set Value}

theorem finite_factsOver (hV : V.Finite) : (factsOver V).Finite := by
  refine (factsOfValues hV.toFinset.toList).finite_toSet.subset fun f hf => ?_
  refine mem_factsOfValues.2 fun x hx => ?_
  simpa using hf x hx

theorem finite_consequences (hrules : ∀ rule ∈ rules, rule.Sound) (hA : A.Finite) :
    (consequences rules A).Finite :=
  (finite_factsOver (finite_vocabulary rules hA)).subset
    (consequences_subset_factsOver hrules Set.Subset.rfl)

/-- Facts and some of their consequences have the same consequences as the facts alone. -/
theorem consequences_eq {B : Set Fact} (hAB : A ⊆ B) (hB : B ⊆ consequences rules A) :
    consequences rules B = consequences rules A := by
  refine Set.Subset.antisymm (consequences_subset hB (closed_consequences rules A)) ?_
  exact consequences_subset (hAB.trans (subset_consequences rules B)) (closed_consequences rules B)

namespace Run

variable {r : Run} {bound : Nat}

/-- A run derives no more facts than there are new consequences. -/
theorem Keeps.length_le (h : r.Keeps rules A) (hfinite : (consequences rules A).Finite) :
    r.derived.length ≤ (consequences rules A \ A).ncard := by
  have hsubset : (r.derived.toFinset : Set Fact) ⊆ consequences rules A \ A := by
    intro f hf
    have hmem : f ∈ r.derived := by simpa using hf
    exact ⟨h.content_subset ((h.content f).2 (Or.inr hmem)), h.new f hmem⟩
  rw [← List.toFinset_card_of_nodup h.nodup, ← Set.ncard_coe_finset]
  exact Set.ncard_le_ncard hsubset (hfinite.subset Set.sdiff_subset)

theorem Alike.refl (h : r.Keeps rules A) (hw : r.store.storage.Writable) : Alike rules A r r :=
  ⟨h, h, hw, hw, rfl, rfl⟩

variable (hrules : ∀ rule ∈ rules, rule.Sound)
  (inj : Set.InjOn Fact.digest (factsOver (vocabulary rules A)))
  (hstorable : ∀ x ∈ vocabulary rules A, x.Storable)

include hrules inj hstorable

theorem Keeps.exists_sweep (h : r.Keeps rules A) (hw : r.store.storage.Writable) :
    ∃ r', Run.sweep rules r = (r', none) ∧ r'.Keeps rules A ∧ r'.store.storage.Writable := by
  obtain ⟨r', _, hr', -, halike⟩ := (Alike.refl h hw).sweep hrules inj hstorable
  exact ⟨r', hr', halike.left, halike.writable_left⟩

/-- A run comes to its end if it has more sweeps left than there are consequences to derive. -/
theorem Keeps.exists_toFixpoint (hfinite : (consequences rules A).Finite) (h : r.Keeps rules A)
    (hw : r.store.storage.Writable) {left : Nat}
    (hleft : (consequences rules A \ A).ncard < left + r.derived.length) :
    ∃ r', Run.toFixpoint rules bound left r = (r', none) := by
  induction left generalizing r with
  | zero =>
    have hlength := h.length_le hfinite
    omega
  | succ left ih =>
    have hbegun : Keeps rules A { r with sweeps := r.sweeps + 1 } := h.congr rfl rfl
    obtain ⟨q, hq, hkeeps, hw'⟩ := hbegun.exists_sweep hrules inj hstorable hw
    have hgrows : r.derived.length ≤ q.derived.length := by
      have hsteady := (Steady.forEach fun rule (_ : rule ∈ rules) => steady_apply rule).grows
        { r with sweeps := r.sweeps + 1 }
      rw [show Attempt.forEach Run.apply _ rules = (q, none) from hq] at hsteady
      exact hsteady
    by_cases hend : q.derived.length = r.derived.length
    · exact ⟨q, by simp [Run.toFixpoint, hq, hend]⟩
    · obtain ⟨r', hr'⟩ := ih hkeeps hw' (by omega)
      exact ⟨r', by simp [Run.toFixpoint, hq, hend, hr']⟩

end Run

namespace Store

variable {s : Store} {S : Finset Fact}

/-- Whether a store that accepts changes holds given facts and nothing but their consequences. -/
structure Between (rules : List Rule) (A : Set Fact) (s : Store) : Prop where
  /-- The index describes what is stored. -/
  coherent : s.Coherent
  /-- The storage accepts changes. -/
  writable : s.storage.Writable
  /-- The given facts are stored. -/
  subset : A ⊆ s.content
  /-- What is stored follows from them. -/
  within : s.content ⊆ consequences rules A

/-- Forward chaining several times, one run after the other, each with its own bound. -/
def inferAll (s : Store) (c : Counters) (rules : Rulebook) : List Nat → Store × Counters
  | [] => (s, c)
  | bound :: rest =>
    let i := s.infer c rules bound
    inferAll i.store i.counters rules rest

namespace Between

variable {rules : Rulebook}

theorem vocabulary_subset (h : s.Between rules.rules A) (hrules : rules.Made) :
    vocabulary rules.rules s.content ⊆ vocabulary rules.rules A := by
  rintro x (⟨f, hf, hx⟩ | hx)
  · exact consequences_subset_factsOver hrules.sound Set.Subset.rfl (h.within hf) x hx
  · exact Or.inr hx

variable (hrules : rules.Made)
  (inj : Set.InjOn Fact.digest (factsOver (vocabulary rules.rules A)))
  (hstorable : ∀ x ∈ vocabulary rules.rules A, x.Storable)

include hrules inj hstorable

/-- A run ends in its last sweep at the latest, and keeps the store where it is. -/
theorem infer (h : s.Between rules.rules A) (c : Counters) (bound : Nat) :
    let i := s.infer c rules bound
    i.store.Between rules.rules A ∧ s.content ⊆ i.store.content ∧
      ((∃ derived, i.outcome = .ok derived) ∨
        ∃ n, i.outcome = .error (.logic (.noFixpoint bound n))) := by
  have hvocabulary := h.vocabulary_subset hrules
  have inj' := inj.mono (factsOver_mono hvocabulary)
  have hstorable' : ∀ x ∈ vocabulary rules.rules s.content, x.Storable :=
    fun x hx => hstorable x (hvocabulary hx)
  have halike := Run.Alike.refl (Run.keeps_start rules.rules h.coherent) h.writable
  obtain ⟨k, -, failed, hr, -, hafter, hfailed⟩ :=
    halike.toFixpoint hrules.sound inj' hstorable' bound bound
  obtain ⟨hstore, houtcome, -⟩ := infer_of_toFixpoint c hr
  dsimp only at hstore houtcome ⊢
  rw [hstore, houtcome]
  have hmore : s.content ⊆ (Run.after rules.rules k { store := s }).store.content :=
    fun f hf => (hafter.left.content f).2 (Or.inl hf)
  refine ⟨⟨hafter.left.coherent, hafter.writable_left, h.subset.trans hmore, ?_⟩, hmore, ?_⟩
  · exact consequences_eq h.subset h.within ▸ hafter.left.content_subset
  · rcases hfailed with rfl | rfl
    · exact Or.inl ⟨_, rfl⟩
    · exact Or.inr ⟨_, rfl⟩

theorem inferAll (h : s.Between rules.rules A) (c : Counters) (bounds : List Nat) :
    (s.inferAll c rules bounds).1.Between rules.rules A := by
  induction bounds generalizing s c with
  | nil => exact h
  | cons bound rest ih => exact ih (h.infer hrules inj hstorable c bound).1 _

/-- A run with more sweeps than there are new consequences stores all of them. -/
theorem infer_of_bound (h : s.Between rules.rules A) (hA : A.Finite) (c : Counters) {bound : Nat}
    (hbound : (consequences rules.rules A \ A).ncard < bound) :
    let i := s.infer c rules bound
    (∃ derived, i.outcome = .ok derived) ∧ i.store.content = consequences rules.rules A := by
  have hvocabulary := h.vocabulary_subset hrules
  have inj' := inj.mono (factsOver_mono hvocabulary)
  have hbegun := Run.keeps_start rules.rules h.coherent
  have hsame := consequences_eq h.subset h.within
  have hfinite := finite_consequences hrules.sound hA
  have hmissing : (consequences rules.rules s.content \ s.content).ncard < bound := by
    rw [hsame]
    refine lt_of_le_of_lt (Set.ncard_le_ncard ?_ (hfinite.subset Set.sdiff_subset)) hbound
    exact Set.sdiff_subset_sdiff_right h.subset
  obtain ⟨r, hr⟩ : ∃ r, Run.toFixpoint rules.rules bound bound { store := s } = (r, none) :=
    hbegun.exists_toFixpoint hrules.sound inj' (fun x hx => hstorable x (hvocabulary hx))
      (hsame ▸ hfinite) h.writable hmissing
  have injRun := Run.injOn_encountered hrules.sound inj'
  obtain ⟨hkeeps, hidle⟩ := hbegun.toFixpoint injRun hrules.sound hr
  simp only [Store.infer, hr]
  exact ⟨⟨_, rfl⟩, (hkeeps.content_eq (hkeeps.closed injRun hrules.sound hidle)).trans hsame⟩

end Between

/-- After any runs of forward chaining, the store is between the facts with which they began and
their consequences. There is a bound that depends on these facts and the rules only, with which the
next run comes to its end and leaves the least closed set, whatever the runs before it did. -/
theorem infer_resumes {rules : Rulebook} (hrules : rules.Made) (hS : ∀ f ∈ S, Storable f)
    (hconstants : ∀ r ∈ rules.rules, ∀ x ∈ r.constants, x.Storable)
    (inj : Set.InjOn Fact.digest (factsOver (vocabulary rules.rules S))) :
    ∃ enough, ∀ s : Store, s.Represents S → ∀ (c : Counters) (bounds : List Nat) (bound : Nat),
      let before := s.inferAll c rules bounds
      let i := before.1.infer before.2 rules bound
      ((S : Set Fact) ⊆ before.1.content ∧ before.1.content ⊆ i.store.content ∧
        i.store.content ⊆ consequences rules.rules S) ∧
      ((∃ derived, i.outcome = .ok derived) ∨
        ∃ n, i.outcome = .error (.logic (.noFixpoint bound n))) ∧
      (enough ≤ bound → (∃ derived, i.outcome = .ok derived) ∧
        IsLeast {B | (S : Set Fact) ⊆ B ∧ Closed rules.rules B} i.store.content) := by
  have hstorable := storable_vocabulary (A := S) (by simpa using hS) hconstants
  refine ⟨(consequences rules.rules S \ S).ncard + 1, fun s hs c bounds bound => ?_⟩
  have hbegun : s.Between rules.rules S :=
    ⟨hs.coherent, hs.writable, hs.content_eq.ge,
      hs.content_eq.le.trans (subset_consequences rules.rules S)⟩
  have hbefore := hbegun.inferAll hrules inj hstorable c bounds
  obtain ⟨hafter, hmore, houtcome⟩ :=
    hbefore.infer hrules inj hstorable (s.inferAll c rules bounds).2 bound
  refine ⟨⟨hbefore.subset, hmore, hafter.within⟩, houtcome, fun hbound => ?_⟩
  obtain ⟨hok, hcontent⟩ := hbefore.infer_of_bound hrules inj hstorable S.finite_toSet
    (s.inferAll c rules bounds).2 (Nat.lt_of_succ_le hbound)
  exact ⟨hok, hcontent ▸ isLeast_consequences rules.rules S⟩

/-- A rule that turns facts around, cut off before it does so. -/
theorem infer_resumes_mirror :
    let f : Fact := ⟨.named "a", "p", .named "p"⟩
    let mirror : Rule := {
      name := "mirror"
      conditions := [{ atom := ⟨.var "x", .var "p", .var "y"⟩ }]
      actions := [.derive ⟨.var "y", .named "p", .var "x"⟩] }
    let rules : Rulebook := { rules := [mirror] }
    let s := (insertAll { storage := .memory {} } [f]).1
    s.Represents {f} ∧ ∃ enough, ∀ bound, enough ≤ bound →
      let before := s.inferAll {} rules [0, 1]
      IsLeast {B | {f} ⊆ B ∧ Closed rules.rules B}
        (before.1.infer before.2 rules bound).store.content := by
  intro f mirror rules s
  have hmade : rules.Made := Rulebook.made_of_addAll rfl (by decide)
  have hs : s.Represents {f} := represents_insertAll (by decide +kernel) (by simp)
  have hfacts : ∀ x ∈ ({f} : Finset Fact), Storable x := by decide +kernel
  have hconstants : ∀ r ∈ rules.rules, ∀ x ∈ r.constants, x.Storable := by
    have hall : ∀ r ∈ rules.rules, ∀ x ∈ r.constants, x ∈ f.values := by decide
    intro r hr x hx
    exact storable_iff_values.1 (hfacts f (by simp)) x (hall r hr x hx)
  have inj : Set.InjOn Fact.digest (factsOver {x | x ∈ [.named "a", .named "p"]}) :=
    injOn_digest_of_nodup (by decide +kernel)
  have hvocabulary : vocabulary rules.rules (({f} : Finset Fact) : Set Fact) ⊆
      {x | x ∈ [.named "a", .named "p"]} := by
    rw [Finset.coe_singleton, vocabulary_singleton]
    exact show ∀ x ∈ f.values ++ rules.rules.flatMap Rule.constants, _ from by decide
  obtain ⟨enough, hall⟩ :=
    infer_resumes hmade hfacts hconstants (inj.mono (factsOver_mono hvocabulary))
  refine ⟨hs, enough, fun bound hbound => ?_⟩
  obtain ⟨-, -, hleast⟩ := hall s hs {} [0, 1] bound
  rw [Finset.coe_singleton] at hleast
  exact (hleast hbound).2

end Store
end FactGraph
