import FactGraph.Encoding

/-!
# Proofs

A proof lists applications of rules from the bottom up. Every step names a rule, the digests of the
facts that it uses and the fact that it derives; the last step derives the conclusion. A proof
without steps says that its conclusion is stored.
-/

namespace FactGraph

/-- One application of a rule. -/
structure ProofStep where
  /-- The name of the rule. -/
  rule : Text
  /-- The digests of the facts that match the conditions, in their order. -/
  premises : List Digest
  /-- The fact that is derived. -/
  derived : Fact
deriving DecidableEq

/-- A proof of a fact. -/
structure Proof where
  /-- The fact that is proved. -/
  conclusion : Fact
  /-- The steps that lead to it. -/
  steps : List ProofStep := []
deriving DecidableEq

namespace Proof

/-- Whether the proof says that its conclusion is stored. -/
def isStored (p : Proof) : Bool := p.steps.isEmpty

/-! ## Depth -/

/-- The levels of the facts derived so far, the latest first. -/
abbrev Levels := List (Digest × Nat)

/-- The level of a step: one above the highest of its premises that earlier steps derive. -/
def stepLevel (levels : Levels) (premises : List Digest) : Nat :=
  premises.foldl (fun d id => (levels.lookup id).elim d fun l => max d (l + 1)) 1

/-- The highest level of steps, given the levels of the facts that earlier steps derive. -/
def depthFrom (levels : Levels) (deepest : Nat) : List ProofStep → Except StoreError Nat
  | [] => .ok deepest
  | s :: steps => do
    let level := stepLevel levels s.premises
    let id ← s.derived.id
    depthFrom ((id, level) :: levels) (max deepest level) steps

/-- The highest level of the steps. If no two of them derive one fact, it is the length of the longest
chain of steps each of which uses what the step before it derives. -/
def depth (p : Proof) : Except StoreError Nat := depthFrom [] 0 p.steps

/-! ## Digest -/

/-- The bytes of a step: the name of the rule, the number of premises and their digests, and the
length and the bytes of the derived fact. -/
def stepBytes (s : ProofStep) : Except StoreError Text := do
  Encoding.checkFields [s.rule]
  let derived ← Encoding.encode s.derived
  return Encoding.fieldBytes s.rule ++ Word.bigEndian 4 s.premises.length ++
    s.premises.flatMap Digest.bytes ++ Word.bigEndian 4 derived.length ++ derived

/-- The bytes of a proof: the conclusion, the number of steps and the steps. -/
def bytes (p : Proof) : Except StoreError Text := do
  let conclusion ← Encoding.encode p.conclusion
  let steps ← p.steps.mapM stepBytes
  return conclusion ++ Word.bigEndian 4 p.steps.length ++ steps.flatten

/-- The digest of a proof. -/
def digest (p : Proof) : Except StoreError Digest := sha256 <$> p.bytes

/-! ## Text -/

/-- The line of a step with a number, without its line feed. -/
def stepText (s : ProofStep) (number : Nat) : Text :=
  "  " ++ Text.ofNat number ++ ". [" ++ s.rule ++ "] " ++
    List.intercalate ", " (s.premises.map Digest.short) ++ " => " ++ s.derived.toText

/-- The lines of steps, the first of which has the given number. -/
def stepLines (steps : List ProofStep) (number : Nat) : Text :=
  (steps.zipIdx number).flatMap fun (s, i) => stepText s i ++ [Text.newline]

/-- The text of a proof. -/
def toText (p : Proof) : Text :=
  let head : Text := "proof of " ++ p.conclusion.toText
  if p.isStored then head ++ ": stored fact\n"
  else head ++ " (" ++ Text.ofNat p.steps.length ++ " steps)\n" ++ stepLines p.steps 1

end Proof
end FactGraph
