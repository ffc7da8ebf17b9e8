/-!
# Agendas

An agenda is a list of things to do, the first one next. Doing a thing may put several others in its
place, each of less weight than the thing itself. However many they are, such an agenda comes to an
end; that is what `Lighter.wellFounded` says.
-/

namespace FactGraph

/-- An agenda is lighter than another one if it is the other with the first thing replaced by things
of less weight. -/
def Lighter {α : Type} (weight : α → Nat) (l' l : List α) : Prop :=
  ∃ a rest parts, l = a :: rest ∧ l' = parts ++ rest ∧ ∀ b ∈ parts, weight b < weight a

namespace Lighter

variable {α : Type} {weight : α → Nat}

theorem acc_nil : Acc (Lighter weight) [] :=
  .intro _ fun _ ⟨_, _, _, h, _⟩ => nomatch h

theorem acc_append {parts rest : List α}
    (each : ∀ b ∈ parts, ∀ l, Acc (Lighter weight) l → Acc (Lighter weight) (b :: l))
    (h : Acc (Lighter weight) rest) : Acc (Lighter weight) (parts ++ rest) := by
  induction parts with
  | nil => exact h
  | cons b parts ih =>
    exact each b (by simp) _ (ih fun c hc => each c (by simp [hc]))

theorem acc_cons (a : α) (rest : List α) (h : Acc (Lighter weight) rest) :
    Acc (Lighter weight) (a :: rest) := by
  induction hn : weight a using Nat.strongRecOn generalizing a rest with
  | ind n ih =>
    refine .intro _ fun l' hl => ?_
    obtain ⟨a', rest', parts, heq, rfl, hlt⟩ := hl
    obtain ⟨rfl, rfl⟩ := List.cons.inj heq
    exact acc_append (fun b hb l hl => ih _ (hn ▸ hlt b hb) b l hl rfl) h

theorem acc (l : List α) : Acc (Lighter weight) l := by
  induction l with
  | nil => exact acc_nil
  | cons a rest ih => exact acc_cons a rest ih

/-- Every agenda comes to an end. -/
theorem wellFounded (weight : α → Nat) : WellFounded (Lighter weight) := ⟨acc⟩

end Lighter
end FactGraph
