import FactGraph.Proofs.Outcome

/-!
# Two runs of a computation

Two runs that read the same facts from different places need not answer with the same lists: what
is found comes in different orders, or more than once. Nor need they fail together. `Concur` relates
the answers of two runs that both succeed, and says that they succeed together under a condition. It
is kept by steps (`Concur.bind`) and by trying a step on all members of lists (`Concur.mapM`), which
relates the results member by member (`Matched`).
-/

namespace FactGraph

variable {ε α β γ δ : Type}

/-! ## Lists related member by member -/

/-- Whether every member of each of two lists is related to some member of the other one. -/
def Matched (R : α → β → Prop) (l : List α) (l' : List β) : Prop :=
  (∀ a ∈ l, ∃ b ∈ l', R a b) ∧ ∀ b ∈ l', ∃ a ∈ l, R a b

/-- Whether two lists have the same members. -/
abbrev Same (l l' : List α) : Prop := Matched Eq l l'

theorem same_iff {l l' : List α} : Same l l' ↔ ∀ a, a ∈ l ↔ a ∈ l' := by
  simp only [Matched, exists_eq_right, exists_eq_right']
  exact ⟨fun h a => ⟨h.1 a, h.2 a⟩, fun h => ⟨fun a => (h a).1, fun a => (h a).2⟩⟩

namespace Matched

variable {R : α → β → Prop} {l : List α} {l' : List β}

theorem refl (l : List α) : Same l l := same_iff.2 fun _ => Iff.rfl

theorem mono {R' : α → β → Prop} (h : Matched R l l') (hR : ∀ a b, R a b → R' a b) :
    Matched R' l l' := by
  constructor
  · intro a ha
    obtain ⟨b, hb, hab⟩ := h.1 a ha
    exact ⟨b, hb, hR a b hab⟩
  · intro b hb
    obtain ⟨a, ha, hab⟩ := h.2 b hb
    exact ⟨a, ha, hR a b hab⟩

theorem flatten {l : List (List α)} {l' : List (List β)} (h : Matched (Matched R) l l') :
    Matched R l.flatten l'.flatten := by
  constructor
  · intro a ha
    obtain ⟨x, hx, ha⟩ := List.mem_flatten.1 ha
    obtain ⟨y, hy, hxy⟩ := h.1 x hx
    obtain ⟨b, hb, hab⟩ := hxy.1 a ha
    exact ⟨b, List.mem_flatten.2 ⟨y, hy, hb⟩, hab⟩
  · intro b hb
    obtain ⟨y, hy, hb⟩ := List.mem_flatten.1 hb
    obtain ⟨x, hx, hxy⟩ := h.2 y hy
    obtain ⟨a, ha, hab⟩ := hxy.2 b hb
    exact ⟨a, List.mem_flatten.2 ⟨x, hx, ha⟩, hab⟩

theorem append {m : List α} {m' : List β} (h : Matched R l l') (hm : Matched R m m') :
    Matched R (l ++ m) (l' ++ m') := by
  have hboth : Matched (Matched R) [l, m] [l', m'] := by
    constructor
    · simpa using ⟨Or.inl h, Or.inr hm⟩
    · simpa using ⟨Or.inl h, Or.inr hm⟩
  simpa using hboth.flatten

theorem filter {l l' : List α} (h : Same l l') (p : α → Bool) :
    Same (l.filter p) (l'.filter p) := by
  rw [same_iff] at h ⊢
  intro a
  rw [List.mem_filter, List.mem_filter, h]

theorem filterMap {l l' : List α} (h : Same l l') (g : α → Option γ) :
    Same (l.filterMap g) (l'.filterMap g) := by
  rw [same_iff] at h ⊢
  intro c
  simp only [List.mem_filterMap, h]

theorem map {l l' : List α} (h : Same l l') (g : α → γ) : Same (l.map g) (l'.map g) := by
  rw [same_iff] at h ⊢
  intro c
  simp only [List.mem_map, h]

theorem any_eq {l l' : List α} (h : Same l l') (p : α → Bool) : l.any p = l'.any p := by
  rw [same_iff] at h
  rw [Bool.eq_iff_iff, List.any_eq_true, List.any_eq_true]
  simp only [h]

end Matched

/-! ## Answers related -/

/-- Whether two computations have related answers if both succeed, and succeed together under a
condition. -/
structure Concur (P : Prop) (R : α → β → Prop) (x : Except ε α) (y : Except ε β) : Prop where
  /-- The answers are related. -/
  related : ∀ a b, x = .ok a → y = .ok b → R a b
  /-- Under the condition, one succeeds if and only if the other one does. -/
  together : P → ((∃ a, x = .ok a) ↔ ∃ b, y = .ok b)

namespace Concur

variable {P : Prop} {R : α → β → Prop} {T : γ → δ → Prop} {x : Except ε α} {y : Except ε β}

theorem ok {a : α} {b : β} (h : R a b) : Concur P R (.ok a : Except ε α) (.ok b) where
  related := fun a' b' ha hb => by
    cases ha
    cases hb
    exact h
  together := fun _ => ⟨fun _ => ⟨b, rfl⟩, fun _ => ⟨a, rfl⟩⟩

/-- Computations that succeed whether or not the condition holds concur if their answers are
related. -/
theorem of_exists (hx : ∃ a, x = .ok a) (hy : ∃ b, y = .ok b)
    (h : ∀ a b, x = .ok a → y = .ok b → R a b) : Concur P R x y :=
  ⟨h, fun _ => ⟨fun _ => hy, fun _ => hx⟩⟩

theorem bind {next : α → Except ε γ} {next' : β → Except ε δ} (h : Concur P R x y)
    (hnext : ∀ a b, x = .ok a → y = .ok b → R a b → Concur P T (next a) (next' b)) :
    Concur P T (x >>= next) (y >>= next') where
  related := by
    intro c d hc hd
    obtain ⟨a, ha, hc⟩ := bind_eq_ok.1 hc
    obtain ⟨b, hb, hd⟩ := bind_eq_ok.1 hd
    exact (hnext a b ha hb (h.related a b ha hb)).related c d hc hd
  together := by
    intro hP
    constructor
    · rintro ⟨c, hc⟩
      obtain ⟨a, ha, hc⟩ := bind_eq_ok.1 hc
      obtain ⟨b, hb⟩ := (h.together hP).1 ⟨a, ha⟩
      obtain ⟨d, hd⟩ := ((hnext a b ha hb (h.related a b ha hb)).together hP).1 ⟨c, hc⟩
      exact ⟨d, bind_eq_ok.2 ⟨b, hb, hd⟩⟩
    · rintro ⟨d, hd⟩
      obtain ⟨b, hb, hd⟩ := bind_eq_ok.1 hd
      obtain ⟨a, ha⟩ := (h.together hP).2 ⟨b, hb⟩
      obtain ⟨c, hc⟩ := ((hnext a b ha hb (h.related a b ha hb)).together hP).2 ⟨d, hd⟩
      exact ⟨c, bind_eq_ok.2 ⟨a, ha, hc⟩⟩

/-- A step that is tried on the members of two lists, which are the same, has related results. -/
theorem mapM {step : α → Except ε γ} {step' : α → Except ε δ} {l l' : List α} (hl : Same l l')
    (h : ∀ a ∈ l, Concur P T (step a) (step' a)) :
    Concur P (Matched T) (l.mapM step) (l'.mapM step') where
  related := by
    intro cs ds hcs hds
    rw [same_iff] at hl
    constructor
    · intro c hc
      obtain ⟨a, ha, hstep⟩ := (mem_of_mapM hcs).1 hc
      obtain ⟨d, hd⟩ := exists_of_mapM hds ((hl a).1 ha)
      exact ⟨d, (mem_of_mapM hds).2 ⟨a, (hl a).1 ha, hd⟩, (h a ha).related c d hstep hd⟩
    · intro d hd
      obtain ⟨a, ha, hstep⟩ := (mem_of_mapM hds).1 hd
      obtain ⟨c, hc⟩ := exists_of_mapM hcs ((hl a).2 ha)
      exact ⟨c, (mem_of_mapM hcs).2 ⟨a, (hl a).2 ha, hc⟩,
        (h a ((hl a).2 ha)).related c d hc hstep⟩
  together := by
    intro hP
    rw [same_iff] at hl
    constructor
    · rintro ⟨cs, hcs⟩
      refine mapM_of_forall_exists fun a ha => ?_
      exact ((h a ((hl a).2 ha)).together hP).1 (exists_of_mapM hcs ((hl a).2 ha))
    · rintro ⟨ds, hds⟩
      refine mapM_of_forall_exists fun a ha => ?_
      exact ((h a ha).together hP).2 (exists_of_mapM hds ((hl a).1 ha))

end Concur
end FactGraph
