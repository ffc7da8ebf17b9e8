/-!
# Attempts

Working through a list until a step fails. What the steps in front of the failure did stays done, so
an attempt answers with the state that it leaves and with the failure that ended it, if one did.
-/

namespace FactGraph

/-- The state that a computation leaves, and the failure that ended it. -/
abbrev Attempt (ε σ : Type) := σ × Option ε

namespace Attempt

variable {ε σ α : Type}

/-- Applies a step to the elements of a list, one by one, up to the first failure. -/
def forEach (step : σ → α → Attempt ε σ) (s : σ) : List α → Attempt ε σ
  | [] => (s, none)
  | a :: rest =>
    match step s a with
    | (s, none) => forEach step s rest
    | (s, some e) => (s, some e)

@[simp] theorem forEach_nil (step : σ → α → Attempt ε σ) (s : σ) :
    forEach step s [] = (s, none) := rfl

/-- What every step keeps holds at the end, whether or not a step failed. -/
theorem forEach_induction {step : σ → α → Attempt ε σ} {motive : σ → Prop} {l : List α} {s : σ}
    (start : motive s) (next : ∀ s a, a ∈ l → motive s → motive (step s a).1) :
    motive (forEach step s l).1 := by
  induction l generalizing s with
  | nil => exact start
  | cons a rest ih =>
    have first := next s a (by simp) start
    rw [forEach]
    split
    · next h =>
      rw [h] at first
      exact ih first fun s b hb => next s b (by simp [hb])
    · next h =>
      rw [h] at first
      exact first

/-- If steps fail for certain reasons only, so does working through a list. -/
theorem forEach_failure {step : σ → α → Attempt ε σ} {motive : ε → Prop} {l : List α} {s : σ}
    (each : ∀ s a e, (step s a).2 = some e → motive e) {e : ε}
    (h : (forEach step s l).2 = some e) : motive e := by
  induction l generalizing s with
  | nil => cases h
  | cons a rest ih =>
    rw [forEach] at h
    split at h
    · exact ih h
    · next heq => exact each s a e (by rw [heq]; exact h)

/-- Turns an attempt on a state into an attempt with a result, if it did not fail. -/
def result (a : Attempt ε σ) : Except ε σ :=
  match a with
  | (s, none) => .ok s
  | (_, some e) => .error e

end Attempt
end FactGraph
