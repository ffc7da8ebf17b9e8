import Mathlib.Data.List.Nodup
import FactGraph.Proofs.Consequence

/-!
# Rules without faults and rulebooks from drafts

A rule without faults binds what it uses: the variable of a guard occurs in a condition up to the
guard, and the variables of heads occur in conditions. The rules of a rulebook that was put together
as a draft have no faults and different names, so that a name leads back to its rule.
-/

namespace FactGraph

/-! ## Variables of atoms -/

theorem mem_insertName {v name : Text} {names : List Text} :
    v ∈ insertName name names ↔ v = name ∨ v ∈ names := by
  induction names with
  | nil => simp [insertName]
  | cons other rest ih =>
    rw [insertName]
    split
    · simp
    · next h =>
      have : name = other := Std.LawfulEqCmp.eq_of_compare h
      simp [this]
    · simp only [List.mem_cons, ih]
      tauto

theorem mem_sortNames {v : Text} {names : List Text} : v ∈ sortNames names ↔ v ∈ names := by
  induction names with
  | nil => simp [sortNames]
  | cons name names ih =>
    rw [sortNames, List.foldr_cons, mem_insertName, List.mem_cons, ← ih, sortNames]

@[simp] theorem Atom.mem_varNames {a : Atom} {v : Text} : v ∈ a.varNames ↔ .var v ∈ a.terms := by
  rw [Atom.varNames, mem_sortNames, List.mem_filterMap]
  constructor
  · rintro ⟨t, ht, h⟩
    cases t <;> simp [Term.var?] at h
    exact h ▸ ht
  · intro h
    exact ⟨_, h, rfl⟩

/-! ## Rules without faults -/

/-- The variable of every guard occurs in its condition, in one before it or among those bound
before. -/
def Condition.GuardsBound : List Text → List Condition → Prop
  | _, [] => True
  | bound, c :: rest =>
    (∀ g ∈ c.guard, g.var ∈ bound ++ c.atom.varNames) ∧
      Condition.GuardsBound (bound ++ c.atom.varNames) rest

/-- What a rule without faults keeps to. -/
structure Rule.Sound (r : Rule) : Prop where
  /-- There are conditions. -/
  conditions : r.conditions ≠ []
  /-- Guards are on variables that have a value when their turn comes. -/
  guards : Condition.GuardsBound [] r.conditions
  /-- Heads have no wildcards. -/
  heads : ∀ head ∈ r.heads, head.hasWildcard = false
  /-- Conditions bind the variables of heads. -/
  binds : ∀ head ∈ r.heads, ∀ v, .var v ∈ head.terms → v ∈ Rule.boundVariables r.conditions

namespace Rule

theorem guardsBound_of_conditionFaults {index : Nat} {bound : List Text}
    {conditions : List Condition} (h : conditionFaults index bound conditions = []) :
    Condition.GuardsBound bound conditions := by
  induction conditions generalizing index bound with
  | nil => trivial
  | cons c rest ih =>
    rw [conditionFaults] at h
    simp only [List.append_eq_nil_iff] at h
    obtain ⟨⟨-, hg⟩, hrest⟩ := h
    refine ⟨fun g hc => ?_, ih hrest⟩
    rw [Option.mem_def] at hc
    by_contra hb
    simp [hc, hb] at hg

theorem heads_of_actionFaults {bound : List Text} {index : Nat} {head : Atom}
    (h : actionFaults bound (.derive head) index = []) :
    head.hasWildcard = false ∧ ∀ v, .var v ∈ head.terms → v ∈ bound := by
  simp only [actionFaults, Action.head?, Action.atom, List.append_eq_nil_iff, Option.isSome_some,
    Bool.true_and, List.map_eq_nil_iff, List.filter_eq_nil_iff, Atom.mem_varNames] at h
  obtain ⟨⟨-, hw⟩, hv⟩ := h
  exact ⟨by simpa using hw, fun v hm => by simpa using hv v hm⟩

theorem mem_heads {r : Rule} {head : Atom} : head ∈ r.heads ↔ .derive head ∈ r.actions := by
  simp only [heads, List.mem_filterMap]
  constructor
  · rintro ⟨a, ha, h⟩
    cases a <;> simp [Action.head?] at h
    exact h ▸ ha
  · intro h
    exact ⟨_, h, rfl⟩

theorem sound_of_faults {r : Rule} (h : r.faults = []) : r.Sound := by
  simp only [faults, List.append_eq_nil_iff, List.flatMap_eq_nil_iff] at h
  obtain ⟨⟨⟨⟨-, hsome⟩, -⟩, hconditions⟩, hactions⟩ := h
  have hhead : ∀ head ∈ r.heads,
      head.hasWildcard = false ∧ ∀ v, .var v ∈ head.terms → v ∈ boundVariables r.conditions := by
    intro head hm
    obtain ⟨i, hi, heq⟩ := List.getElem_of_mem (mem_heads.1 hm)
    have hz : (Action.derive head, i) ∈ r.actions.zipIdx := by
      rw [List.mem_zipIdx_iff_getElem?, List.getElem?_eq_getElem hi, heq]
    exact heads_of_actionFaults (hactions _ hz)
  refine ⟨?_, guardsBound_of_conditionFaults hconditions, fun head hm => (hhead head hm).1,
    fun head hm => (hhead head hm).2⟩
  rintro hnil
  simp [hnil] at hsome

theorem faults_of_checked {r r' : Rule} (h : r.checked = .ok r') : r' = r ∧ r.faults = [] := by
  rw [checked] at h
  split at h
  · next hf =>
    cases h
    exact ⟨rfl, hf⟩
  · cases h

end Rule

/-! ## Rulebooks from drafts -/

namespace Rulebook

/-- Drafts to which rules were added or in which rules were replaced, one after the other. A change
that fails may have added the rules in front of the one that could not be added. -/
inductive Draft.Made : Draft → Prop
  /-- A draft without rules. -/
  | new (name : Text) : Made { name }
  /-- A rule was added. -/
  | add {d d' : Draft} {r : Rule} : Made d → d.add r = .ok d' → Made d'
  /-- A rule was replaced or added. -/
  | replace {d d' : Draft} {r : Rule} : Made d → d.replace r = .ok d' → Made d'
  /-- Rules were added up to the first that could not be. -/
  | addAll {d : Draft} (rules : List Rule) : Made d → Made (d.addAll rules).1

/-- Rulebooks that were put together as drafts. -/
def Made (b : Rulebook) : Prop := ∃ d : Draft, d.Made ∧ b = d.finish

/-- Rules without faults and with different names. -/
structure Consistent (rules : List Rule) : Prop where
  /-- The rules have no faults. -/
  faults : ∀ r ∈ rules, r.faults = []
  /-- The names are different. -/
  names : (rules.map Rule.name).Nodup

namespace Draft

variable {d d' : Draft} {r : Rule}

theorem has_iff {name : Text} : d.has name = true ↔ name ∈ d.rules.map Rule.name := by
  simp only [has, List.any_eq_true, List.mem_map, beq_iff_eq]

theorem consistent_append {rules : List Rule} (h : Consistent rules) (hr : r.faults = [])
    (new : r.name ∉ rules.map Rule.name) : Consistent (rules ++ [r]) where
  faults := by
    intro r' hr'
    rcases List.mem_append.1 hr' with hr' | hr'
    · exact h.faults r' hr'
    · rw [List.mem_singleton.1 hr']
      exact hr
  names := by
    rw [List.map_append, List.map_singleton, List.nodup_append]
    refine ⟨h.names, List.nodup_singleton _, ?_⟩
    rintro a ha b hb rfl
    exact new (List.mem_singleton.1 hb ▸ ha)

theorem map_name_substitute (rules : List Rule) :
    (substitute r rules).map Rule.name = rules.map Rule.name := by
  induction rules with
  | nil => rfl
  | cons old rules ih =>
    rw [substitute]
    split
    · next h => simp [beq_iff_eq.1 h]
    · rw [List.map_cons, List.map_cons, ih]

theorem mem_substitute {rules : List Rule} {r' : Rule} (h : r' ∈ substitute r rules) :
    r' = r ∨ r' ∈ rules := by
  induction rules with
  | nil => cases h
  | cons old rules ih =>
    rw [substitute] at h
    split at h
    · rcases List.mem_cons.1 h with h | h
      · exact Or.inl h
      · exact Or.inr (List.mem_cons_of_mem _ h)
    · rcases List.mem_cons.1 h with rfl | h
      · exact Or.inr (List.mem_cons_self ..)
      · exact (ih h).imp_right (List.mem_cons_of_mem _)

theorem consistent_add (h : Consistent d.rules) (hd : d.add r = .ok d') : Consistent d'.rules := by
  simp only [add, bind, Except.bind] at hd
  split at hd
  · cases hd
  · next r' hr =>
    obtain ⟨rfl, hf⟩ := Rule.faults_of_checked hr
    split at hd
    · cases hd
    · next hnew =>
      cases hd
      exact consistent_append h hf fun hm => by simp [has_iff.2 hm] at hnew

theorem consistent_replace (h : Consistent d.rules) (hd : d.replace r = .ok d') :
    Consistent d'.rules := by
  simp only [replace, bind, Except.bind] at hd
  split at hd
  · cases hd
  · next r' hr =>
    obtain ⟨rfl, hf⟩ := Rule.faults_of_checked hr
    split at hd <;> cases hd
    · refine ⟨fun r'' hr'' => ?_, ?_⟩
      · rcases mem_substitute hr'' with rfl | hr''
        · exact hf
        · exact h.faults r'' hr''
      · rw [map_name_substitute]
        exact h.names
    · next hnew => exact consistent_append h hf fun hm => hnew (has_iff.2 hm)

theorem consistent_addAll (rules : List Rule) (h : Consistent d.rules) :
    Consistent (d.addAll rules).1.rules := by
  induction rules generalizing d with
  | nil => exact h
  | cons r rules ih =>
    rw [addAll]
    split
    · next hd => exact ih (consistent_add h hd)
    · exact h

theorem Made.consistent (h : d.Made) : Consistent d.rules := by
  induction h with
  | new => exact ⟨by simp, by simp⟩
  | add _ hd ih => exact consistent_add ih hd
  | replace _ hd ih => exact consistent_replace ih hd
  | addAll rules _ ih => exact consistent_addAll rules ih

end Draft

variable {b : Rulebook}

/-- A rulebook has the rules of its draft. -/
theorem Made.consistent (h : b.Made) : Consistent b.rules := by
  obtain ⟨d, hd, rfl⟩ := h
  have hp : d.finish.rules.Perm d.rules := List.mergeSort_perm ..
  exact ⟨fun r hr => hd.consistent.faults r (hp.mem_iff.1 hr),
    ((hp.map Rule.name).nodup_iff).2 hd.consistent.names⟩

/-- Rules that can be added one by one, none of higher priority than one in front of it, make a
rulebook. -/
theorem made_of_addAll
    (hadd : ({ name := b.name } : Draft).addAll b.rules = (⟨b.name, b.rules⟩, none))
    (hsorted : b.rules.Pairwise fun r r' => r'.priority ≤ r.priority) : b.Made := by
  have hmade := Draft.Made.addAll b.rules (.new b.name)
  rw [hadd] at hmade
  refine ⟨_, hmade, ?_⟩
  have hsorted' : b.rules.Pairwise fun r r' => decide (r'.priority ≤ r.priority) = true := by
    simpa using hsorted
  rw [Draft.finish, List.mergeSort_of_pairwise hsorted']

theorem Made.sound (h : b.Made) : ∀ r ∈ b.rules, r.Sound :=
  fun r hr => Rule.sound_of_faults (h.consistent.faults r hr)

/-- A rule is found by its name. -/
theorem Made.find?_name (h : b.Made) {r : Rule} (hr : r ∈ b.rules) : b.find? r.name = some r := by
  have hnames := h.consistent.names
  rw [find?]
  generalize b.rules = rules at hr hnames
  induction rules with
  | nil => cases hr
  | cons r' rules ih =>
    rw [List.map_cons, List.nodup_cons] at hnames
    rw [List.find?_cons]
    rcases List.mem_cons.1 hr with rfl | hr
    · simp
    · have hne : (r'.name == r.name) = false := by
        rw [beq_eq_false_iff_ne]
        exact fun e => hnames.1 (e ▸ List.mem_map_of_mem hr)
      rw [hne]
      exact ih hr hnames.2

end Rulebook
end FactGraph
