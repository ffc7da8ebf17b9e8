import FactGraph.Matching
import FactGraph.Rulebook

/-!
# Checking proofs

A proof is checked step by step and without search: every step has to apply a rule in force to
premises that are stored or derived by earlier steps. What a proof claims is then derivable, whoever
made the proof.
-/

namespace FactGraph.Proof

/-- The facts derived so far by their digests. Of two facts with one digest the earlier one counts.
-/
abbrev Derived := List (Digest × Fact)

/-- A fault of a step. -/
def stepFault {α : Type} (fault : StepFault) : Except (StepFault ⊕ StoreError) α :=
  .error (.inl fault)

/-- The fact of a premise: derived by an earlier step, or stored. -/
def premise (view : View) (derived : Derived) (id : Digest) :
    Except (StepFault ⊕ StoreError) Fact :=
  match derived.lookup id with
  | some f => .ok f
  | none =>
    match view.get id with
    | .ok (some f) => .ok f
    | .ok none => stepFault (.missingPremise id)
    | .error e => .error (.inr e)

/-- Whether a rule derives a fact under a substitution. -/
def yields (r : Rule) (s : Substitution) (f : Fact) : Bool :=
  r.heads.any fun head => head.instantiate? s == some f

/-- Checks a step against the facts derived by earlier steps. -/
def checkStep (rules : Rulebook) (view : View) (derived : Derived) (s : ProofStep) :
    Except (StepFault ⊕ StoreError) Unit := do
  let some rule := rules.find? s.rule | stepFault .unknownRule
  if !rule.enabled then stepFault .disabledRule
  if !rule.derives then stepFault .barrenRule
  if s.premises.length != rule.conditions.length then
    stepFault (.premiseCount s.premises.length rule.conditions.length)
  let premises ← s.premises.mapM (premise view derived)
  let some bindings := Condition.unifyAll rule.conditions premises | stepFault .unmatchedPremises
  if !yields rule bindings s.derived then stepFault (.notDerived s.derived)

/-- Checks steps, the first of which has the given number. -/
def checkSteps (rules : Rulebook) (view : View) :
    Nat → Derived → List ProofStep → Except Failure Unit
  | _, _, [] => .ok ()
  | number, derived, s :: steps =>
    match checkStep rules view derived s with
    | .error (.inl fault) => .error (.logic (.invalidProof (.step number s.rule fault)))
    | .error (.inr e) => .error (.store e)
    | .ok () => do
      let id ← StoreError.lift s.derived.id
      checkSteps rules view (number + 1) (derived ++ [(id, s.derived)]) steps

/-- Checks a proof against rules and facts. -/
def check (rules : Rulebook) (view : View) (p : Proof) : Except Failure Unit := do
  match p.steps.getLast? with
  | none =>
    if !(← StoreError.lift (view.contains p.conclusion)) then
      throw (.logic (.invalidProof (.notStored p.conclusion)))
  | some last =>
    checkSteps rules view 1 [] p.steps
    if last.derived != p.conclusion then
      throw (.logic (.invalidProof (.otherConclusion last.derived p.conclusion)))

/-- What is wrong with a proof, if anything is. Only failures of the store are errors. -/
def fault? (rules : Rulebook) (view : View) (p : Proof) : Except Failure (Option ProofFault) :=
  match check rules view p with
  | .ok () => .ok none
  | .error (.logic (.invalidProof fault)) => .ok (some fault)
  | .error e => .error e

end FactGraph.Proof
