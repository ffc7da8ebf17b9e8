import FactGraph.Rule
import FactGraph.Proof

/-!
# Errors of reasoning

Everything that can go wrong while rules are collected, applied and checked. As for the store, an
error is its cause, and its kind and its wording are functions of the cause.
-/

namespace FactGraph

/-- What is wrong with a step of a proof. -/
inductive StepFault where
  /-- There is no rule of that name. -/
  | unknownRule
  /-- The rule is not in force. -/
  | disabledRule
  /-- The rule derives nothing. -/
  | barrenRule
  /-- There are more or fewer premises than conditions. -/
  | premiseCount (premises conditions : Nat)
  /-- A premise is neither stored nor derived by an earlier step. -/
  | missingPremise (id : Digest)
  /-- The premises do not match the conditions. -/
  | unmatchedPremises
  /-- The derived fact is not what the rule derives from the premises. -/
  | notDerived (f : Fact)
deriving DecidableEq

/-- The wording of a fault in a step. -/
def StepFault.toText : StepFault → Text
  | unknownRule => "unknown rule"
  | disabledRule => "rule is disabled"
  | barrenRule => "rule derives nothing"
  | premiseCount premises conditions =>
    Text.ofNat premises ++ " premises for " ++ Text.ofNat conditions ++ " conditions"
  | missingPremise id =>
    "premise " ++ id.short ++ " is neither a stored fact nor derived by an earlier step"
  | unmatchedPremises => "premises do not satisfy the rule's conditions"
  | notDerived f => f.toText ++ " does not follow from the premises"

/-- What is wrong with a proof. -/
inductive ProofFault where
  /-- A proof without steps has a conclusion that is not stored. -/
  | notStored (conclusion : Fact)
  /-- The step with this number, counted from one, applies a rule wrongly. -/
  | step (number : Nat) (rule : Text) (fault : StepFault)
  /-- The last step derives something else than the conclusion. -/
  | otherConclusion (derived conclusion : Fact)
deriving DecidableEq

/-- The wording of a fault in a proof. -/
def ProofFault.toText : ProofFault → Text
  | notStored conclusion => "conclusion " ++ conclusion.toText ++ " is not a stored fact"
  | step number rule fault =>
    "step " ++ Text.ofNat number ++ " [" ++ rule ++ "]: " ++ fault.toText
  | otherConclusion derived conclusion =>
    "last step derives " ++ derived.toText ++ ", not the conclusion " ++ conclusion.toText

/-- The kinds of errors of reasoning. -/
inductive LogicErrorKind where
  | invalidRule
  | ruleConflict
  | validationFailed
  | contradiction
  | invalidProof
  | unificationFailed
  | inferenceLoop
  | depthExceeded
  | missingPrecondition
  | store
  | serialization
deriving DecidableEq

/-- The words for a kind of error. -/
def LogicErrorKind.name : LogicErrorKind → Text
  | invalidRule => "invalid rule"
  | ruleConflict => "rule conflict"
  | validationFailed => "validation failed"
  | contradiction => "contradiction"
  | invalidProof => "invalid proof"
  | unificationFailed => "unification failed"
  | inferenceLoop => "inference loop"
  | depthExceeded => "max depth exceeded"
  | missingPrecondition => "missing precondition"
  | store => "graph error"
  | serialization => "serialization error"

/-- An error of reasoning. -/
inductive LogicError where
  /-- A rule is not well formed. -/
  | invalidRule (rule : Text) (fault : RuleFault)
  /-- Two rules have one name. -/
  | duplicateRule (name : Text)
  /-- Candidates are rejected; the finding is the first fatal one. -/
  | contradiction (finding : Text)
  /-- Candidates are rejected; the finding is the first of them. -/
  | validationFailed (finding : Text)
  /-- A proof does not hold. -/
  | invalidProof (fault : ProofFault)
  /-- An atom is no fact under this number of bindings. -/
  | notGround (atom : Atom) (bindings : Nat)
  /-- There is no fixpoint within a number of sweeps, which derived a number of facts. -/
  | noFixpoint (sweeps derived : Nat)
  /-- A goal is only reached through itself. -/
  | circularGoal (goal : Query)
  /-- The search came to the bound on its depth. -/
  | depthReached (depth : Nat)
  /-- No stored fact and no rule establishes a goal. -/
  | notEstablished (goal : Query)
  /-- An error of the store that reasoning ran into. -/
  | store (e : StoreError)
  /-- Any other failure, by its kind and wording. -/
  | reported (kind : LogicErrorKind) (message : Text)
deriving DecidableEq

namespace LogicError

/-- The kind of an error. -/
def kind : LogicError → LogicErrorKind
  | invalidRule .. => .invalidRule
  | duplicateRule _ => .ruleConflict
  | contradiction _ => .contradiction
  | validationFailed _ => .validationFailed
  | invalidProof _ => .invalidProof
  | notGround .. => .unificationFailed
  | noFixpoint .. | circularGoal _ => .inferenceLoop
  | depthReached _ => .depthExceeded
  | notEstablished _ => .missingPrecondition
  | store _ => .store
  | reported kind _ => kind

/-- The name by which an error refers to a rule. -/
def ruleLabel (rule : Text) (fault : RuleFault) : Text :=
  match fault with
  | .guardWithoutCondition | .secondGuard _ => rule
  | _ => if rule.isEmpty then "<unnamed>" else rule

/-- The wording of an error, without its kind. Of an error of the store no more is said than stands
in front of a zero byte. -/
def message : LogicError → Text
  | invalidRule rule fault => ruleLabel rule fault ++ ": " ++ fault.toText
  | duplicateRule name => "duplicate rule name '" ++ name ++ "'"
  | contradiction finding => finding
  | validationFailed finding => finding
  | invalidProof fault => fault.toText
  | notGround atom bindings =>
    "cannot instantiate " ++ atom.toText ++ " under " ++ Text.ofNat bindings ++ " bindings"
  | noFixpoint sweeps derived =>
    "no fixpoint after " ++ Text.ofNat sweeps ++ " iterations (" ++ Text.ofNat derived ++
      " triples derived)"
  | circularGoal goal => goal.toText ++ " only recurs into itself"
  | depthReached depth => "depth " ++ Text.ofNat depth ++ " reached"
  | notEstablished goal => "no stored fact or rule establishes " ++ goal.toText
  | store e => e.describe.untilNul
  | reported _ message => message

/-- The kind and the wording of an error. -/
def describe (e : LogicError) : Text := e.kind.name ++ ": " ++ e.message

end LogicError

/-- A failure of reasoning over a store: of the reasoning itself or of the store below it. -/
inductive Failure where
  /-- The store failed. -/
  | store (e : StoreError)
  /-- The reasoning failed. -/
  | logic (e : LogicError)
deriving DecidableEq

/-- The kind and the wording of a failure. -/
def Failure.describe : Failure → Text
  | store e => e.describe
  | logic e => e.describe

/-- A computation on the store as part of reasoning. -/
def StoreError.lift {α : Type} (x : Except StoreError α) : Except Failure α := x.mapError .store

end FactGraph
