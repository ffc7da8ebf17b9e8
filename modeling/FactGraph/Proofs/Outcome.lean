import Mathlib.Data.List.Forall2

/-!
# Computations that may fail

A computation in steps succeeds if every step does; a step that is tried on all members of a list
succeeds if it succeeds on each of them.
-/

namespace FactGraph

theorem bind_eq_ok {ε α β : Type} {x : Except ε α} {next : α → Except ε β} {b : β} :
    x >>= next = .ok b ↔ ∃ a, x = .ok a ∧ next a = .ok b := by
  cases x <;> simp [bind, Except.bind]

theorem bind_eq_error {ε α β : Type} {x : Except ε α} {next : α → Except ε β} {e : ε} :
    x >>= next = .error e ↔ x = .error e ∨ ∃ a, x = .ok a ∧ next a = .error e := by
  cases x <;> simp [bind, Except.bind]

theorem map_eq_ok {ε α β : Type} {x : Except ε α} {g : α → β} {b : β} :
    g <$> x = .ok b ↔ ∃ a, x = .ok a ∧ g a = b := by
  cases x <;> simp [Functor.map, Except.map]

@[simp] theorem pure_eq_ok {ε α : Type} {a b : α} :
    (pure a : Except ε α) = .ok b ↔ a = b := by
  simp [pure, Except.pure]

@[simp] theorem throw_bind {ε α β : Type} {e : ε} {next : α → Except ε β} :
    (throw e : Except ε α) >>= next = throw e := rfl

@[simp] theorem ite_throw_eq_ok {ε α : Type} {p : Prop} [Decidable p] {e : ε} {x : Except ε α}
    {a : α} : (if p then throw e else x) = .ok a ↔ ¬ p ∧ x = .ok a := by
  split <;> simp [*, throw, throwThe, MonadExceptOf.throw]

@[simp] theorem ite_throw_eq_error {ε α : Type} {p : Prop} [Decidable p] {e e' : ε}
    {x : Except ε α} :
    (if p then throw e else x) = .error e' ↔ p ∧ e = e' ∨ ¬ p ∧ x = .error e' := by
  split <;> simp [*, throw, throwThe, MonadExceptOf.throw]

theorem exists_bind {ε α β : Type} {x : Except ε α} {next : α → Except ε β}
    (hx : ∃ a, x = .ok a) (hnext : ∀ a, x = .ok a → ∃ b, next a = .ok b) :
    ∃ b, x >>= next = .ok b := by
  obtain ⟨a, ha⟩ := hx
  obtain ⟨b, hb⟩ := hnext a ha
  exact ⟨b, bind_eq_ok.2 ⟨a, ha, hb⟩⟩

/-- Work on a state goes on with the state that was left, unless there was a failure. -/
theorem run_bind {ε σ α β : Type} (work : ExceptT ε (StateM σ) α)
    (next : α → ExceptT ε (StateM σ) β) (s : σ) : StateT.run (work >>= next).run s =
    match StateT.run work.run s with
    | (.ok a, s') => StateT.run (next a).run s'
    | (.error e, s') => (.error e, s') := by
  simp only [bind, ExceptT.bind, ExceptT.mk, ExceptT.run, StateT.run, StateT.bind]
  rcases work s with ⟨_ | _, _⟩ <;> rfl

/-- Trying a step on all members of a list succeeds if it succeeds on every one. -/
theorem forall₂_of_mapM {ε α β : Type} {step : α → Except ε β} {l : List α} {l' : List β}
    (h : l.mapM step = .ok l') : List.Forall₂ (fun a b => step a = .ok b) l l' := by
  induction l generalizing l' with
  | nil =>
    rw [List.mapM_nil, pure_eq_ok] at h
    exact h ▸ .nil
  | cons a l ih =>
    rw [List.mapM_cons, bind_eq_ok] at h
    obtain ⟨b, ha, h⟩ := h
    rw [bind_eq_ok] at h
    obtain ⟨bs, hl, h⟩ := h
    rw [pure_eq_ok] at h
    exact h ▸ .cons ha (ih hl)

theorem mapM_of_forall₂ {ε α β : Type} {step : α → Except ε β} {l : List α} {l' : List β}
    (h : List.Forall₂ (fun a b => step a = .ok b) l l') : l.mapM step = .ok l' := by
  induction h with
  | nil => rfl
  | cons ha _ ih =>
    rw [List.mapM_cons]
    simp [ha, ih, bind, Except.bind, pure, Except.pure]

theorem mapM_congr {ε α β : Type} {step step' : α → Except ε β} {l : List α}
    (h : ∀ a ∈ l, step a = step' a) : l.mapM step = l.mapM step' := by
  induction l with
  | nil => rfl
  | cons a l ih =>
    rw [List.forall_mem_cons] at h
    rw [List.mapM_cons, List.mapM_cons, h.1, ih h.2]

theorem exists_of_mapM {ε α β : Type} {step : α → Except ε β} {l : List α} {l' : List β}
    (h : l.mapM step = .ok l') {a : α} (ha : a ∈ l) : ∃ b, step a = .ok b := by
  have hall := forall₂_of_mapM h
  clear h
  induction hall with
  | nil => cases ha
  | cons hb _ ih =>
    rcases List.mem_cons.1 ha with rfl | ha
    · exact ⟨_, hb⟩
    · exact ih ha

/-- Where trying a step on all members of a list fails, it fails as it does on one of them. -/
theorem exists_error_of_mapM {ε α β : Type} {step : α → Except ε β} {l : List α} {e : ε}
    (h : l.mapM step = .error e) : ∃ a ∈ l, step a = .error e := by
  induction l with
  | nil => cases h
  | cons a l ih =>
    rw [List.mapM_cons, bind_eq_error] at h
    rcases h with ha | ⟨b, -, h⟩
    · exact ⟨a, List.mem_cons_self, ha⟩
    · rcases bind_eq_error.1 h with hl | ⟨bs, -, h⟩
      · obtain ⟨a', ha', he⟩ := ih hl
        exact ⟨a', List.mem_cons_of_mem a ha', he⟩
      · cases h

theorem mem_of_mapM {ε α β : Type} {step : α → Except ε β} {l : List α} {l' : List β}
    (h : l.mapM step = .ok l') {b : β} : b ∈ l' ↔ ∃ a ∈ l, step a = .ok b := by
  have hall := forall₂_of_mapM h
  clear h
  induction hall with
  | nil => simp
  | cons ha _ ih => simp [ha, ← ih, eq_comm]

theorem mapM_of_forall_exists {ε α β : Type} {step : α → Except ε β} {l : List α}
    (h : ∀ a ∈ l, ∃ b, step a = .ok b) : ∃ l', l.mapM step = .ok l' := by
  induction l with
  | nil => exact ⟨[], rfl⟩
  | cons a l ih =>
    rw [List.forall_mem_cons] at h
    obtain ⟨b, hb⟩ := h.1
    obtain ⟨bs, hbs⟩ := ih h.2
    exact ⟨b :: bs, mapM_of_forall₂ (.cons hb (forall₂_of_mapM hbs))⟩

theorem mem_flatten_of_mapM {ε α β : Type} {step : α → Except ε (List β)} {l : List α}
    {l' : List (List β)} (h : l.mapM step = .ok l') {b : β} :
    b ∈ l'.flatten ↔ ∃ a ∈ l, ∃ bs, step a = .ok bs ∧ b ∈ bs := by
  have hall := forall₂_of_mapM h
  clear h
  induction hall with
  | nil => simp
  | cons ha _ ih => simp [ha, ← ih]

/-- Nothing comes of the members of a list together if nothing comes of any of them. -/
theorem flatten_eq_nil_iff_of_mapM {ε α β : Type} {step : α → Except ε (List β)} {l : List α}
    {l' : List (List β)} (h : l.mapM step = .ok l') :
    l'.flatten = [] ↔ ∀ a ∈ l, step a = .ok [] := by
  have hall := forall₂_of_mapM h
  clear h
  induction hall with
  | nil => simp
  | cons ha _ ih => simp [ha, ih]

theorem flatten_mapM_eq_nil {ε α β : Type} {step : α → Except ε (List β)} {l : List α} :
    (do return (← l.mapM step).flatten) = (.ok [] : Except ε (List β)) ↔
      ∀ a ∈ l, step a = .ok [] := by
  simp only [bind_eq_ok, pure_eq_ok]
  constructor
  · rintro ⟨each, heach, hflat⟩
    exact (flatten_eq_nil_iff_of_mapM heach).1 hflat
  · intro hall
    obtain ⟨each, heach⟩ := mapM_of_forall_exists fun a ha => ⟨_, hall a ha⟩
    exact ⟨each, heach, (flatten_eq_nil_iff_of_mapM heach).2 hall⟩

end FactGraph
