import Mathlib.Data.Set.Basic
import Mathlib.Logic.Relation
import Mathlib.Order.WellFounded
import FactGraph.Proofs.Bindings

/-!
# Unification in place

Atoms are unified place by place in one set of bindings, and an equation that fails adds nothing to
what the places in front of it have added (`attempt`). However such calls follow each other, and
whether the last one fails or not, references lead from every variable to its root and no further,
values stand at roots, and what was resolved stays resolved (`Rooted`, `resolve_resolve`).

A call succeeds if and only if some valuation satisfies its equations and those of all calls before
it, and then the bindings admit these valuations and no others (`unify_mostGeneral`).
-/

namespace FactGraph.Bindings

variable {b b' : Bindings} {σ : Valuation} {v w : Text}

/-! ## References -/

/-- Whether a variable refers to another one. -/
def Refers (b : Bindings) (v w : Text) : Prop := b.aliases.lookup v = some w

/-- Bindings in which references make no circles and lead to roots, where the values are. -/
structure Rooted (b : Bindings) : Prop where
  /-- No variable refers to itself, not even by way of others. -/
  acyclic : ∀ v, ¬ Relation.TransGen b.Refers v v
  /-- References lead from a variable to its root. -/
  follow : ∀ v, Relation.ReflTransGen b.Refers v (b.root v)
  /-- A root refers to no variable. -/
  last : ∀ v w, ¬ b.Refers (b.root v) w
  /-- Only roots have values. -/
  values : ∀ e ∈ b.values, b.root e.1 = e.1

/-- References that were added between roots come to an end. -/
theorem Forest.wellFounded {aliases : List (Text × Text)} (h : Forest aliases) :
    WellFounded fun w v => aliases.lookup v = some w := by
  induction aliases with
  | nil => exact ⟨fun v => .intro v fun w hw => nomatch hw⟩
  | cons e rest ih =>
    obtain ⟨r, s⟩ := e
    obtain ⟨hne, hr, hs, hrest⟩ := h
    have hlast : Acc (fun w v => ((r, s) :: rest).lookup v = some w) s := by
      refine .intro s fun w hw => ?_
      rw [List.lookup_cons, beq_eq_false_iff_ne.2 hne.symm, lookup_eq_none_iff_not_mem.2 hs] at hw
      cases hw
    -- A variable refers to what it referred to before, or it is `r` and refers to `s`.
    refine ⟨fun v => ?_⟩
    induction v using (ih hrest).induction with
    | _ v hv =>
      refine .intro v fun w hw => ?_
      rw [List.lookup_cons] at hw
      split at hw
      · cases hw
        exact hlast
      · exact hv w hw

theorem reflTransGen_follow (aliases : List (Text × Text)) (count : Nat) (v : Text) :
    Relation.ReflTransGen (fun v w => aliases.lookup v = some w) v (follow aliases count v) := by
  induction count generalizing v with
  | zero => exact .refl
  | succ count ih =>
    rw [follow]
    split
    · exact .refl
    · next w hw => exact .head hw (ih w)

theorem WellFormed.rooted (hb : b.WellFormed) : b.Rooted where
  acyclic v hv := by
    have hwf := (Forest.wellFounded hb.forest).transGen
    exact hwf.irrefl.irrefl v (Relation.transGen_swap.2 hv)
  follow v := reflTransGen_follow b.aliases b.aliases.length v
  last v w hw := root_not_mem hb v (List.mem_map_of_mem (mem_of_lookup hw))
  values e he := follow_of_not_mem (hb.roots e he) _

/-! ## Refinement -/

/-- Variables that have one value under all valuations that bindings admit are resolved to the same
term. -/
theorem WellFormed.resolve_var_eq (hb : b.WellFormed) (h : ∀ σ, b.Admits σ → σ v = σ w) :
    b.resolve (.var v) = b.resolve (.var w) := by
  have hvalue {v w : Text} (h : ∀ σ, b.Admits σ → σ v = σ w) {x : Value}
      (hv : b.values.lookup (b.root v) = some x) : b.resolve (.var w) = .constant x :=
    hb.resolve_of_fixed fun σ hσ => by
      rw [← h σ hσ, ← hσ.root hb v]
      exact hσ.values _ (mem_of_lookup hv)
  cases hv : b.values.lookup (b.root v) with
  | some x =>
    rw [hvalue h hv]
    simp only [resolve, hv]
  | none =>
    cases hw : b.values.lookup (b.root w) with
    | some x =>
      rw [hvalue (fun σ hσ => (h σ hσ).symm) hw]
      simp only [resolve, hw]
    | none =>
      -- Roots without values may take different ones, so there is only one of them.
      simp only [resolve, hv, hw, Term.var.injEq]
      by_contra hne
      obtain ⟨x, y, hxy⟩ := exists_pair_ne Value
      obtain ⟨σ, hσ, hρ⟩ := hb.exists_admits fun u => if u = b.root v then x else y
      have heq := h σ hσ
      rw [hρ v hv, hρ w hw, if_pos rfl, if_neg (Ne.symm hne)] at heq
      exact hxy heq

/-- Bindings that admit no other valuations than before resolve a term to what they resolve its
resolution to. -/
theorem WellFormed.resolve_resolve (hb : b.WellFormed) (hb' : b'.WellFormed)
    (h : ∀ σ, b'.Admits σ → b.Admits σ) (t : Term) : b'.resolve (b.resolve t) = b'.resolve t := by
  cases t with
  | any => rfl
  | constant c => rfl
  | var v =>
    rw [resolve]
    cases hv : b.values.lookup (b.root v) with
    | some x =>
      refine (hb'.resolve_of_fixed fun σ hσ => ?_).symm
      rw [← (h σ hσ).root hb]
      exact (h σ hσ).values _ (mem_of_lookup hv)
    | none => exact hb'.resolve_var_eq fun σ hσ => (h σ hσ).root hb v

/-! ## Calls -/

/-- Works through equations until one of them fails: the bindings that are left, and whether all
equations were solved. -/
def attempt (b : Bindings) : List (Term × Term) → Bindings × Bool
  | [] => (b, true)
  | (s, t) :: rest =>
    match b.unify? s t with
    | some b' => b'.attempt rest
    | none => (b, false)

/-- Works through the equations between the places of two atoms. -/
def attemptAtoms (b : Bindings) (a a' : Atom) : Bindings × Bool := b.attempt (a.terms.zip a'.terms)

/-- Bindings that calls leave which were made one after the other and all succeeded. -/
inductive Unified : List (Atom × Atom) → Bindings → Prop
  /-- At first nothing is bound. -/
  | start : Unified [] {}
  /-- One more call succeeds. -/
  | call {calls : List (Atom × Atom)} {b : Bindings} {a a' : Atom} :
      Unified calls b → (b.attemptAtoms a a').2 = true →
      Unified (calls ++ [(a, a')]) (b.attemptAtoms a a').1

variable {equations : List (Term × Term)} {calls : List (Atom × Atom)} {a a' : Atom}

/-- Equations are solved one after the other if all of them are solved in place. -/
theorem unifyEach?_eq_attempt (b : Bindings) (equations : List (Term × Term)) :
    b.unifyEach? equations =
      if (b.attempt equations).2 then some (b.attempt equations).1 else none := by
  induction equations generalizing b with
  | nil => rfl
  | cons e rest ih =>
    obtain ⟨s, t⟩ := e
    rw [unifyEach?, attempt]
    cases b.unify? s t with
    | none => rfl
    | some b' => exact ih b'

theorem WellFormed.attempt (hb : b.WellFormed) : (b.attempt equations).1.WellFormed := by
  induction equations generalizing b with
  | nil => exact hb
  | cons e rest ih =>
    obtain ⟨s, t⟩ := e
    rw [Bindings.attempt]
    split
    · next h => exact ih (hb.unify? h)
    · exact hb

/-- Also where an equation fails, no valuation is admitted that was not admitted before. -/
theorem admits_of_attempt (hb : b.WellFormed) (hσ : (b.attempt equations).1.Admits σ) :
    b.Admits σ := by
  induction equations generalizing b with
  | nil => exact hσ
  | cons e rest ih =>
    obtain ⟨s, t⟩ := e
    rw [attempt] at hσ
    split at hσ
    · next h => exact ((admits_unify? hb h).1 (ih (hb.unify? h) hσ)).1
    · exact hσ

theorem unifyAtoms?_of_attempt (h : (b.attemptAtoms a a').2 = true) :
    b.unifyAtoms? a a' = some (b.attemptAtoms a a').1 := by
  rw [unifyAtoms?, unifyEach?_eq_attempt]
  exact if_pos h

theorem Unified.wellFormed (h : Unified calls b) : b.WellFormed := by
  induction h with
  | start => exact wellFormed_empty
  | call _ _ ih => exact ih.attempt

/-- After calls that succeeded the bindings admit the valuations that satisfy the equations of all
of them. -/
theorem Unified.admits (h : Unified calls b) : b.Admits σ ↔ ∀ c ∈ calls, TogetherIn σ c.1 c.2 := by
  induction h with
  | start => simp [admits_empty]
  | call hcalls hsolved ih =>
    rw [admits_unifyAtoms? hcalls.wellFormed (unifyAtoms?_of_attempt hsolved), ih]
    simp [or_imp, forall_and]

/-- Whether another call succeeds or fails, it leaves bindings in which references make no circles
and only roots have values, and what was resolved before is resolved further at most. The call
succeeds if and only if some valuation satisfies its equations and those of all calls before it,
where wildcards say nothing; then the bindings admit exactly these valuations. -/
theorem unify_mostGeneral (h : Unified calls b) (a a' : Atom) :
    (b.attemptAtoms a a').1.Rooted ∧
    (∀ t, (b.attemptAtoms a a').1.resolve (b.resolve t) = (b.attemptAtoms a a').1.resolve t) ∧
    ((b.attemptAtoms a a').2 = true ↔
      ∃ σ, (∀ c ∈ calls, TogetherIn σ c.1 c.2) ∧ TogetherIn σ a a') ∧
    ((b.attemptAtoms a a').2 = true → ∀ σ, (b.attemptAtoms a a').1.Admits σ ↔
      (∀ c ∈ calls, TogetherIn σ c.1 c.2) ∧ TogetherIn σ a a') := by
  have hb := h.wellFormed
  have hb' : (b.attemptAtoms a a').1.WellFormed := hb.attempt
  have hadmits (hsolved : (b.attemptAtoms a a').2 = true) (σ : Valuation) :
      (b.attemptAtoms a a').1.Admits σ ↔
        (∀ c ∈ calls, TogetherIn σ c.1 c.2) ∧ TogetherIn σ a a' := by
    rw [admits_unifyAtoms? hb (unifyAtoms?_of_attempt hsolved), h.admits]
  have hresolve := hb.resolve_resolve hb' fun σ hσ => admits_of_attempt hb hσ
  refine ⟨hb'.rooted, hresolve, ⟨fun hsolved => ?_, ?_⟩, hadmits⟩
  · obtain ⟨σ, hσ, -⟩ := hb'.exists_admits fun _ => default
    exact ⟨σ, (hadmits hsolved σ).1 hσ⟩
  · rintro ⟨σ, hcalls, htogether⟩
    have hsome := unifyAtoms?_isSome hb (h.admits.2 hcalls) htogether
    rw [unifyAtoms?, unifyEach?_eq_attempt] at hsome
    by_contra hfailed
    rw [attemptAtoms] at hfailed
    rw [if_neg hfailed] at hsome
    cases hsome

/-- A call that identifies three variables, then one that gives them a value, and in its place one
that fails at its last place, by which time they have the value. -/
theorem unify_mostGeneral_chain :
    let first : Atom × Atom := (⟨.var "x", .named "p", .var "y"⟩, ⟨.var "y", .named "p", .var "z"⟩)
    let b : Bindings := { aliases := [("y", "z"), ("x", "y")] }
    let a : Atom := ⟨.var "x", .any, .var "u"⟩
    let solved : Atom := ⟨.named "b", .named "p", .var "y"⟩
    let failed : Atom := ⟨.named "b", .named "p", .named "c"⟩
    Unified [first] b ∧
      b.attemptAtoms a solved =
        ({ b with values := [("u", .named "b"), ("z", .named "b")] }, true) ∧
      (∀ σ, (b.attemptAtoms a solved).1.Admits σ ↔
        TogetherIn σ first.1 first.2 ∧ TogetherIn σ a solved) ∧
      b.attemptAtoms { a with object := .var "x" } failed =
        ({ b with values := [("z", .named "b")] }, false) ∧
      (b.attemptAtoms { a with object := .var "x" } failed).1.Rooted ∧
      ¬ ∃ σ, TogetherIn σ first.1 first.2 ∧ TogetherIn σ { a with object := .var "x" } failed := by
  intro first b a solved failed
  have hfirst : attemptAtoms {} first.1 first.2 = (b, true) := by decide +kernel
  have hcalls : Unified [first] b := by
    have hsucceeds : (attemptAtoms {} first.1 first.2).2 = true := by rw [hfirst]
    have h := Unified.start.call hsucceeds
    rwa [hfirst] at h
  have hsolved : b.attemptAtoms a solved =
      ({ b with values := [("u", .named "b"), ("z", .named "b")] }, true) := by decide +kernel
  have hfailed : b.attemptAtoms { a with object := .var "x" } failed =
      ({ b with values := [("z", .named "b")] }, false) := by decide +kernel
  obtain ⟨-, -, -, hadmits⟩ := unify_mostGeneral hcalls a solved
  obtain ⟨hrooted, -, hiff, -⟩ := unify_mostGeneral hcalls { a with object := .var "x" } failed
  simp only [List.forall_mem_singleton] at hadmits hiff
  exact ⟨hcalls, hsolved, hadmits (by rw [hsolved]), hfailed, hrooted,
    fun h => by simpa [hfailed] using hiff.2 h⟩

end FactGraph.Bindings
