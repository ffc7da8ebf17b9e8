import FactGraph.Proof
import FactGraph.Proofs.Matching

/-!
# Justified steps

A step of a proof is justified if it applies a rule in force to facts that are given or that steps
in front of it derive. What justified steps derive are consequences of the given facts
(`Justified.mem_consequences`).
-/

namespace FactGraph

/-- The given facts and those that steps derive. -/
def established (A : Set Fact) (steps : List ProofStep) : Set Fact :=
  A ∪ {f | f ∈ steps.map ProofStep.derived}

/-- Whether a step applies a rule in force to members of a set. -/
def ProofStep.Applies (rules : List Rule) (A : Set Fact) (step : ProofStep) : Prop :=
  ∃ r ∈ rules, r.name = step.rule ∧ r.enabled = true ∧ ∃ premises : List Fact,
    step.premises = premises.map Fact.digest ∧ (∀ g ∈ premises, g ∈ A) ∧ ∃ s,
      Condition.unifyAll r.conditions premises = some s ∧
        ∃ head ∈ r.heads, head.instantiate? s = some step.derived

/-- Whether a step applies a rule in force to given premises. -/
def ProofStep.AppliesTo (rules : List Rule) (premises : List Fact) (step : ProofStep) : Prop :=
  ∃ r ∈ rules, r.name = step.rule ∧ r.enabled = true ∧
    step.premises = premises.map Fact.digest ∧ ∃ s,
      Condition.unifyAll r.conditions premises = some s ∧
        ∃ head ∈ r.heads, head.instantiate? s = some step.derived

/-- Steps each of which applies a rule in force to facts established before. -/
abbrev Justified (rules : List Rule) (A : Set Fact) : List ProofStep → Prop :=
  Successive fun steps step => step.Applies rules (established A steps)

variable {rules : List Rule} {A : Set Fact} {steps : List ProofStep} {step : ProofStep} {f : Fact}

theorem ProofStep.AppliesTo.applies {premises : List Fact} (h : step.AppliesTo rules premises)
    (hA : ∀ g ∈ premises, g ∈ A) : step.Applies rules A := by
  obtain ⟨r, hr, hname, henabled, hids, hs⟩ := h
  exact ⟨r, hr, hname, henabled, premises, hids, hA, hs⟩

theorem ProofStep.Applies.follows (hrules : ∀ r ∈ rules, r.Sound) (h : step.Applies rules A) :
    Follows rules A step.derived := by
  obtain ⟨r, hr, -, henabled, premises, -, hpremises, s, hs, head, hhead, hf⟩ := h
  exact ⟨r, hr, Rule.yields_of_unifyAll (hrules r hr) henabled hpremises hs hhead hf⟩

namespace Justified

theorem derivation (hrules : ∀ r ∈ rules, r.Sound) (h : Justified rules A steps) :
    Derivation rules A (steps.map ProofStep.derived) := by
  induction h with
  | nil => exact .nil
  | snoc _ hstep ih =>
    rw [List.map_append, List.map_singleton]
    exact ih.snoc (hstep.follows hrules)

/-- What is established by justified steps follows from the given facts. -/
theorem mem_consequences (hrules : ∀ r ∈ rules, r.Sound) (h : Justified rules A steps)
    (hf : f ∈ established A steps) : f ∈ consequences rules A :=
  hf.elim (fun hf => subset_consequences rules A hf) fun hf =>
    (h.derivation hrules).mem_consequences f hf

end Justified

end FactGraph
