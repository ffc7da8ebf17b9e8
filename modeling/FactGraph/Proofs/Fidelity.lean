import FactGraph.Proofs.Document
import FactGraph.Proofs.Doubles

/-!
# Doubles in documents

A double is written with as few digits as are rounded to it, and a reader rounds them again. So a
fact about a double is read back from its document, but for the doubles between zero and the normal
ones: no digits are exactly one of these, and a reader takes what is not exact there for out of
range (`parse_document_float`).
-/

namespace FactGraph

namespace Binary64

variable {x : Binary64}

theorem eq_nan (h : x.isNaN = true) : x = nan := by
  have hbits : x.bits = nanBits := x.canonical (of_decide_eq_true h)
  rw [nan, ← hbits, ofBits_bits]

theorem eq_infinity (h : x.isInfinite = true) : x = infinity x.isNegative := by
  have hmagnitude : x.magnitude = infinityMagnitude := beq_iff_eq.1 h
  rw [infinity, ← hmagnitude, ofMagnitude_magnitude]

/-- Whether a double lies between zero and the normal doubles. -/
def Subnormal (x : Binary64) : Prop := 0 < x.magnitude ∧ x.magnitude < leadingWeight

instance : DecidablePred Subnormal := fun _ => inferInstanceAs (Decidable (_ ∧ _))

end Binary64

namespace NTriples

open Binary64

variable {x : Binary64} {f : Fact}

/-! ## Literals -/

theorem doubleLiteral_of_finite (h : x.magnitude < infinityMagnitude) : doubleLiteral x.toText =
    if x.Subnormal then .error (.numberRange x.toText) else .ok (.float x) := by
  obtain ⟨hnan, hinf, hminus⟩ := toText_ne h
  have hrange : x.Subnormal ↔ ¬ (x.magnitude = 0 ∨ leadingWeight ≤ x.magnitude) := by
    rw [Subnormal]
    omega
  rw [doubleLiteral, float?_toText h]
  by_cases hx : x.Subnormal
  · have hout := decide_eq_false (hrange.1 hx)
    simp [hnan, hinf, hminus, hx, hout]
  · have hin := decide_eq_true (not_not.1 (mt hrange.2 hx))
    simp [hnan, hinf, hminus, hx, hin]

/-- The text of a double is read as the double, but for the doubles that are not zero and lie below
the normal ones. -/
theorem doubleLiteral_toText (x : Binary64) : doubleLiteral x.toText =
    if x.Subnormal then .error (.numberRange x.toText) else .ok (.float x) := by
  by_cases hnan : x.isNaN = true
  · rw [eq_nan hnan]
    rfl
  by_cases hinfinite : x.isInfinite = true
  · rw [eq_infinity hinfinite]
    cases x.isNegative <;> rfl
  · refine doubleLiteral_of_finite ?_
    have hnan' : ¬ infinityMagnitude < x.magnitude := by simpa [isNaN] using hnan
    have hinfinite' : x.magnitude ≠ infinityMagnitude := by simpa [isInfinite] using hinfinite
    omega

theorem typedLiteral_double (literal : Text) :
    typedLiteral literal doubleType = doubleLiteral literal := by
  have hname : Text.localPart doubleType = "double" := by decide +kernel
  rw [typedLiteral, hname]
  rfl

/-! ## Documents -/

theorem object_float (x : Binary64) (position : Nat) (rest : Text) :
    Place.object ⟨position, term (.float x) ++ separator :: rest⟩ =
      if x.Subnormal then
        .error ⟨position + (term (.float x)).length + 1, .numberRange x.toText⟩
      else .ok (.literal (.float x), ⟨position + (term (.float x)).length, separator :: rest⟩) := by
  rw [term, Place.object_typed (by decide +kernel) (by decide +kernel), typedLiteral_double,
    doubleLiteral_toText]
  by_cases hx : x.Subnormal
  · rw [if_pos hx, if_pos hx]
  · rw [if_neg hx, if_neg hx]

theorem readLine_line_float (hsubject : f.subject ≠ .named []) (hpredicate : f.predicate ≠ [])
    (hobject : f.object = .float x) : readLine (line f) =
      if x.Subnormal then .error ⟨(line f).length - 1, .numberRange x.toText⟩
      else .ok (some (.ofFact f)) := by
  have hread := object_float x
  rw [readLine_line_eq]
  by_cases hx : x.Subnormal
  · simp only [if_pos hx] at hread ⊢
    have hcolumn : (node f.subject).length + 1 + (iri f.predicate).length + 1 +
        (term (.float x)).length + 1 = (line f).length - 1 := by
      rw [line_eq, hobject]
      simp only [List.length_append, List.length_cons, List.length_nil]
      omega
    rw [statement_line_eq hsubject hpredicate, hobject, hread, hcolumn]
    rfl
  · simp only [if_neg hx] at hread ⊢
    rw [statement_line hsubject hpredicate (by rw [hobject]; exact hread)]
    rfl

/-- A fact about a double, given by its bits, is read back from its document with the same double.
Only if the double is not zero and lies below the normal ones, its numeral is out of range. -/
theorem parse_document_float (labelled : Text → Node) (b : UInt64)
    (hsubject : f.subject ≠ .named []) (hpredicate : f.predicate ≠ [])
    (hobject : f.object = .float (ofBits b)) : parse labelled (document [f]) =
      if (ofBits b).Subnormal then
        .error (.document 1 ((line f).length - 1) (.numberRange (ofBits b).toText))
      else .ok [f] := by
  have hsort : Fact.sort [f] = [f] := List.perm_singleton.1 (Fact.sort_perm [f])
  have hdocument : Text.lines (document [f]) = [line f] := by
    rw [document, hsort, lines_flatMap]
    rfl
  have hline := readLine_line_float hsubject hpredicate hobject
  rw [parse, read, hdocument, readLines, hline]
  by_cases hx : (ofBits b).Subnormal
  · rw [if_pos hx, if_pos hx]
    rfl
  · rw [if_neg hx, if_neg hx]
    simp [readLines, bind, Except.bind, pure, Except.pure, Functor.map, Except.map]

/-- The doubles at both ends of those that are no numerals, on either side of zero. -/
theorem parse_document_float_ends :
    let f (b : UInt64) : Fact := ⟨.named "s", "p", .float (ofBits b)⟩
    (∀ b ∈ [0, 0x8000000000000000, 0x0010000000000000, 0x7FEFFFFFFFFFFFFF, 0xFFF0000000000000,
        0x7FF0000000000001], parse .named (document [f b]) = .ok [f b]) ∧
      parse .named (document [f 1]) =
        .error (.document 1 75 (.numberRange "4.94065645841247e-324")) ∧
      parse .named (document [f 0x800FFFFFFFFFFFFF]) =
        .error (.document 1 77 (.numberRange "-2.225073858507201e-308")) := by
  intro f
  have hsubject : Node.named "s" ≠ .named [] := by decide +kernel
  have hpredicate : Text.ofString "p" ≠ [] := by decide +kernel
  have hdocument (b : UInt64) :=
    parse_document_float (f := f b) .named b hsubject hpredicate rfl
  refine ⟨fun b hb => ?_, ?_, ?_⟩
  · have hnone : ([0, 0x8000000000000000, 0x0010000000000000, 0x7FEFFFFFFFFFFFFF,
        0xFFF0000000000000, 0x7FF0000000000001].any fun b => (ofBits b).Subnormal) = false := by
      decide +kernel
    have hx : ¬ (ofBits b).Subnormal := by simpa using List.any_eq_false.1 hnone b hb
    rw [hdocument, if_neg hx]
  · have htext : (line (f 1)).length - 1 = 75 ∧ (ofBits 1).toText = "4.94065645841247e-324" := by
      decide +kernel
    rw [hdocument, if_pos (by decide +kernel), htext.1, htext.2]
  · have htext : (line (f 0x800FFFFFFFFFFFFF)).length - 1 = 77 ∧
        (ofBits 0x800FFFFFFFFFFFFF).toText = "-2.225073858507201e-308" := by
      decide +kernel
    rw [hdocument, if_pos (by decide +kernel), htext.1, htext.2]

end NTriples
end FactGraph
