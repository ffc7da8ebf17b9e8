import Mathlib
import FactGraph.Proofs.Rulebook

/-!
# What a draft of a rulebook holds

A draft is changed by calls, some of which fail, and the calls that follow go on with what a failing
call leaves. What the draft holds is told by the rules that were accepted so far and by nothing
else: the names stand in the order in which they were accepted first, and the rule under a name is
the one that was accepted last (`Draft.Holds`). Each call keeps to this, and whether it fails and
with what error is told by the accepted rules, too (`Draft.change_outcome`).

The rulebook that is made of a draft has its rules by priority, those of one priority in the order
of the draft (`Draft.arranges_finish`). As a rulebook adds to an empty draft without an error and is
sorted already, a rule more never disturbs the others (`Made.withRule`). `assembled` puts both
together.
-/

namespace FactGraph

namespace Rulebook

/-! ## Calls on a draft -/

/-- A call that changes a draft. -/
inductive Draft.Change where
  /-- Adds a rule with a new name. -/
  | add (r : Rule)
  /-- Puts a rule in the place of the one with its name, or adds it where there is none. -/
  | replace (r : Rule)
  /-- Adds the rules of a finished rulebook. -/
  | addAll (b : Rulebook) (made : b.Made)

namespace Draft

/-- What a call leaves of a draft, and the error if it fails. -/
def change (d : Draft) : Change → Draft × Option LogicError
  | .add r =>
    match d.add r with
    | .ok d' => (d', none)
    | .error e => (d, some e)
  | .replace r =>
    match d.replace r with
    | .ok d' => (d', none)
    | .error e => (d, some e)
  | .addAll b _ => d.addAll b.rules

/-- What calls leave of a draft, one after the other, and the errors of those that fail. -/
def changes (d : Draft) : List Change → Draft × List (Option LogicError)
  | [] => (d, [])
  | c :: rest =>
    let rest := (d.change c).1.changes rest
    (rest.1, (d.change c).2 :: rest.2)

end Draft

/-! ## Accepted rules -/

/-- The rule that was accepted last under a name. -/
def latest? (accepted : List Rule) (name : Text) : Option Rule :=
  accepted.reverse.find? fun r => r.name == name

/-- Whether no rule was accepted under the name of a rule. -/
def isNew (accepted : List Rule) (r : Rule) : Bool := !(accepted.map Rule.name).contains r.name

/-- The rules that a call has accepted after others, and the error if it fails. -/
def Draft.Change.outcome (accepted : List Rule) : Draft.Change → List Rule × Option LogicError
  | .add r =>
    match r.faults with
    | fault :: _ => ([], some (.invalidRule r.name fault))
    | [] => if isNew accepted r then ([r], none) else ([], some (.duplicateRule r.name))
  | .replace r =>
    match r.faults with
    | fault :: _ => ([], some (.invalidRule r.name fault))
    | [] => ([r], none)
  | .addAll b _ =>
    (b.rules.takeWhile (isNew accepted),
      (b.rules.dropWhile (isNew accepted)).head?.map fun r => .duplicateRule r.name)

/-- The rules that a failing call leaves in a draft of some rules: those of a rulebook in front of
the first of a known name. -/
def Draft.Change.kept (rules : List Rule) : Draft.Change → List Rule
  | .addAll b _ => b.rules.takeWhile (isNew rules)
  | _ => []

/-- All rules that were accepted, in order, after calls one after the other, and the errors of the
calls that fail. -/
def Draft.outcomes (accepted : List Rule) :
    List Draft.Change → List Rule × List (Option LogicError)
  | [] => (accepted, [])
  | c :: rest =>
    let rest := Draft.outcomes (accepted ++ (c.outcome accepted).1) rest
    (rest.1, (c.outcome accepted).2 :: rest.2)

/-- What a draft holds of the rules that were accepted. -/
structure Draft.Holds (rules accepted : List Rule) : Prop where
  /-- The names stand in the order in which they were accepted first. -/
  names : rules.map Rule.name = (accepted.map Rule.name).eraseDups
  /-- The rule under a name is the one that was accepted last. -/
  latest : ∀ name, rules.find? (fun r => r.name == name) = latest? accepted name

/-- How a rulebook arranges the rules of a draft. -/
structure Draft.Arranges (d : Draft) (b : Rulebook) : Prop where
  /-- The collection has the name of the draft. -/
  name : b.name = d.name
  /-- The names of the rules are different. -/
  names : (b.rules.map Rule.name).Nodup
  /-- The rules have no faults. -/
  checked : ∀ r ∈ b.rules, r.checked = .ok r
  /-- No rule has a higher priority than one in front of it. -/
  sorted : b.rules.Pairwise fun r r' => r'.priority ≤ r.priority
  /-- The rules of one priority are those of the draft, in its order. -/
  ties : ∀ priority, (b.rules.filter fun r => r.priority = priority) =
    d.rules.filter fun r => r.priority = priority

/-- The rules with a rule in the place of the one with its name, or at the end. -/
def putIn (r : Rule) (rules : List Rule) : List Rule :=
  if r.name ∈ rules.map Rule.name then substitute r rules else rules ++ [r]

/-! ## Lists of rules -/

section Lists

variable {accepted rules new : List Rule} {r : Rule} {name : Text}

theorem find?_cons_name (old : Rule) :
    ((old :: rules).find? fun r => r.name == name) =
      if old.name = name then some old else rules.find? fun r => r.name == name := by
  by_cases h : old.name = name
  · rw [List.find?_cons_of_pos (by simpa using h), if_pos h]
  · rw [List.find?_cons_of_neg (by simpa using h), if_neg h]

theorem latest?_append_singleton :
    latest? (accepted ++ [r]) name = if r.name = name then some r else latest? accepted name := by
  rw [latest?, List.reverse_append, List.reverse_singleton, List.singleton_append, find?_cons_name,
    latest?]

theorem isNew_iff : isNew accepted r = true ↔ r.name ∉ accepted.map Rule.name := by
  simp [isNew]

theorem find?_name_eq_none (h : name ∉ rules.map Rule.name) :
    rules.find? (fun r => r.name == name) = none := by
  rw [List.find?_eq_none]
  intro r hr hname
  exact h (beq_iff_eq.1 hname ▸ List.mem_map_of_mem hr)

theorem find?_substitute (hmem : r.name ∈ rules.map Rule.name) :
    (substitute r rules).find? (fun r' => r'.name == name) =
      if r.name = name then some r else rules.find? fun r' => r'.name == name := by
  induction rules with
  | nil => cases hmem
  | cons old rules ih =>
    rw [substitute]
    by_cases hold : old.name = r.name
    · rw [if_pos (by simpa using hold), find?_cons_name, find?_cons_name, hold]
      by_cases hname : r.name = name
      · rw [if_pos hname, if_pos hname]
      · simp only [if_neg hname]
    · have hmem' : r.name ∈ rules.map Rule.name :=
        (List.mem_cons.1 hmem).resolve_left fun h => hold h.symm
      rw [if_neg (by simpa using hold), find?_cons_name, find?_cons_name, ih hmem']
      by_cases hname : r.name = name
      · rw [if_pos hname, if_pos hname, if_neg fun h => hold (h.trans hname.symm)]
      · simp only [if_neg hname]

theorem filter_substitute :
    ((substitute r rules).filter fun r' => r'.name ≠ r.name) =
      rules.filter fun r' => r'.name ≠ r.name := by
  induction rules with
  | nil => rfl
  | cons old rules ih =>
    rw [substitute]
    by_cases hold : old.name = r.name
    · simp [hold]
    · rw [if_neg (by simpa using hold), List.filter_cons, List.filter_cons, ih]

theorem mem_putIn : r ∈ putIn r rules := by
  rw [putIn]
  split
  · next h =>
    have hfind : (substitute r rules).find? (fun r' => r'.name == r.name) = some r := by
      rw [find?_substitute h, if_pos rfl]
    exact List.mem_of_find?_eq_some hfind
  · simp

theorem filter_putIn :
    ((putIn r rules).filter fun r' => r'.name ≠ r.name) =
      rules.filter fun r' => r'.name ≠ r.name := by
  rw [putIn]
  split
  · exact filter_substitute
  · simp

/-- Sorting keeps the order of elements that stand in order among themselves. -/
theorem filter_mergeSort {α : Type} {le : α → α → Bool} {p : α → Bool} {l : List α}
    (trans : ∀ a b c, le a b = true → le b c = true → le a c = true)
    (total : ∀ a b, (le a b || le b a) = true)
    (sorted : (l.filter p).Pairwise fun a b => le a b = true) :
    (l.mergeSort le).filter p = l.filter p := by
  have hsub : ((l.filter p).filter p).Sublist ((l.mergeSort le).filter p) :=
    (List.sublist_mergeSort trans total sorted List.filter_sublist).filter p
  rw [List.filter_filter, funext fun a => Bool.and_self (p a)] at hsub
  have hperm := (List.mergeSort_perm l le).filter p
  exact (hsub.eq_of_length hperm.length_eq.symm).symm

end Lists

/-! ## What a draft holds -/

namespace Draft

section Holds

variable {d d' : Draft} {accepted rules new : List Rule} {r : Rule} {name : Text}

theorem Holds.mem_names (h : Holds rules accepted) :
    name ∈ rules.map Rule.name ↔ name ∈ accepted.map Rule.name := by
  rw [h.names, List.mem_eraseDups]

theorem Holds.has_eq (h : Holds d.rules accepted) : d.has r.name = !isNew accepted r := by
  rw [Bool.eq_iff_iff, has_iff, h.mem_names, isNew, Bool.not_not, List.contains_iff_mem]

theorem Holds.nil : Holds [] [] := ⟨rfl, fun _ => rfl⟩

/-- A rule under a new name comes last. -/
theorem Holds.append (h : Holds rules accepted) (new : r.name ∉ accepted.map Rule.name) :
    Holds (rules ++ [r]) (accepted ++ [r]) where
  names := by
    have herase : [r.name].removeAll (accepted.map Rule.name) = [r.name] := by
      simpa [List.removeAll] using new
    rw [List.map_append, List.map_append, List.map_singleton, List.eraseDups_append, herase,
      h.names]
    rfl
  latest := by
    intro name
    rw [latest?_append_singleton, List.find?_append, find?_cons_name, ← h.latest]
    by_cases hname : r.name = name
    · have hnone : rules.find? (fun r => r.name == name) = none :=
        find?_name_eq_none fun hm => new (hname ▸ h.mem_names.1 hm)
      rw [hnone, if_pos hname, if_pos hname, Option.none_or]
    · rw [if_neg hname, if_neg hname, List.find?_nil, Option.or_none]

/-- A rule under a known name comes in the place of the one before. -/
theorem Holds.substitute (h : Holds rules accepted) (known : r.name ∈ accepted.map Rule.name) :
    Holds (Rulebook.substitute r rules) (accepted ++ [r]) where
  names := by
    have herase : [r.name].removeAll (accepted.map Rule.name) = [] := by
      simpa [List.removeAll] using known
    rw [map_name_substitute, List.map_append, List.map_singleton, List.eraseDups_append, herase,
      h.names, List.eraseDups_nil, List.append_nil]
  latest := by
    intro name
    rw [find?_substitute (h.mem_names.2 known), latest?_append_singleton, h.latest]

theorem Holds.putIn (h : Holds rules accepted) :
    Holds (Rulebook.putIn r rules) (accepted ++ [r]) := by
  rw [Rulebook.putIn]
  split
  · next hmem => exact h.substitute (h.mem_names.1 hmem)
  · next hmem => exact h.append fun hm => hmem (h.mem_names.2 hm)

/-- Rules of different new names come last, one after the other. -/
theorem Holds.appendAll (h : Holds rules accepted) (names : (new.map Rule.name).Nodup)
    (hnew : ∀ r ∈ new, r.name ∉ accepted.map Rule.name) :
    Holds (rules ++ new) (accepted ++ new) := by
  induction new generalizing rules accepted with
  | nil => simpa using h
  | cons r new ih =>
    rw [List.map_cons, List.nodup_cons] at names
    rw [List.append_cons, List.append_cons accepted]
    refine ih (h.append (hnew r List.mem_cons_self)) names.2 fun r' hr' hmem => ?_
    rw [List.map_append, List.mem_append, List.map_singleton, List.mem_singleton] at hmem
    rcases hmem with hmem | hmem
    · exact hnew r' (List.mem_cons_of_mem _ hr') hmem
    · exact names.1 (hmem ▸ List.mem_map_of_mem hr')

end Holds

/-! ## Each call -/

section Calls

variable {d d' : Draft} {accepted rules : List Rule} {r : Rule} {fault : RuleFault}
  {faults : List RuleFault}

theorem add_of_faults (h : r.faults = fault :: faults) :
    d.add r = .error (.invalidRule r.name fault) := by
  rw [add, Rule.checked, h]
  rfl

theorem replace_of_faults (h : r.faults = fault :: faults) :
    d.replace r = .error (.invalidRule r.name fault) := by
  rw [replace, Rule.checked, h]
  rfl

theorem add_of_has (h : r.faults = []) (hhas : d.has r.name = true) :
    d.add r = .error (.duplicateRule r.name) := by
  simp only [add, Rule.checked, h, bind, Except.bind, hhas]
  rfl

theorem add_of_new (h : r.faults = []) (hhas : d.has r.name = false) :
    d.add r = .ok { d with rules := d.rules ++ [r] } := by
  simp only [add, Rule.checked, h, bind, Except.bind, hhas]
  rfl

theorem replace_eq (h : r.faults = []) :
    d.replace r = .ok { d with rules := putIn r d.rules } := by
  simp only [replace, Rule.checked, h, bind, Except.bind, putIn, ← has_iff]
  cases d.has r.name <;> rfl

/-- Rules without faults and of different names are added up to the first of a known name. -/
theorem addAll_eq (h : Consistent rules)
    (hknown : ∀ r ∈ rules, d.has r.name = !isNew accepted r) :
    d.addAll rules = ({ d with rules := d.rules ++ rules.takeWhile (isNew accepted) },
      (rules.dropWhile (isNew accepted)).head?.map fun r => .duplicateRule r.name) := by
  induction rules generalizing d with
  | nil => simp [addAll]
  | cons r rules ih =>
    have hr := h.faults r List.mem_cons_self
    have hhas := hknown r List.mem_cons_self
    have hnames := List.nodup_cons.1 h.names
    rw [addAll, List.takeWhile_cons, List.dropWhile_cons]
    cases hnew : isNew accepted r with
    | false =>
      rw [hnew] at hhas
      simp [add_of_has hr hhas]
    | true =>
      rw [hnew] at hhas
      have hrest : Consistent rules :=
        ⟨fun r hr => h.faults r (List.mem_cons_of_mem _ hr), hnames.2⟩
      rw [add_of_new hr hhas]
      simp only [↓reduceIte]
      rw [ih hrest, List.append_assoc, List.singleton_append]
      intro r' hr'
      have hother : r.name ≠ r'.name := fun h => hnames.1 (h ▸ List.mem_map_of_mem hr')
      rw [← hknown r' (List.mem_cons_of_mem _ hr')]
      simp [has, hother]

/-- A call accepts what is told by the rules accepted before, and fails as is told by them. -/
theorem change_outcome (hd : d.Made) (h : Holds d.rules accepted) (c : Change) :
    (d.change c).2 = (c.outcome accepted).2 ∧ (d.change c).1.Made ∧
      (d.change c).1.name = d.name ∧
      Holds (d.change c).1.rules (accepted ++ (c.outcome accepted).1) := by
  cases c with
  | add r =>
    rw [change, Change.outcome]
    cases hf : r.faults with
    | cons fault faults =>
      rw [add_of_faults hf]
      exact ⟨rfl, hd, rfl, by simpa using h⟩
    | nil =>
      have hhas := h.has_eq (r := r)
      cases hnew : isNew accepted r with
      | false =>
        rw [add_of_has hf (by rw [hhas, hnew]; rfl)]
        exact ⟨rfl, hd, rfl, by simpa using h⟩
      | true =>
        have hadd := add_of_new hf (d := d) (by rw [hhas, hnew]; rfl)
        rw [hadd]
        exact ⟨rfl, hd.add hadd, rfl, h.append (isNew_iff.1 hnew)⟩
  | replace r =>
    rw [change, Change.outcome]
    cases hf : r.faults with
    | cons fault faults =>
      rw [replace_of_faults hf]
      exact ⟨rfl, hd, rfl, by simpa using h⟩
    | nil =>
      have hreplace := replace_eq hf (d := d)
      rw [hreplace]
      exact ⟨rfl, hd.replace hreplace, rfl, h.putIn⟩
  | addAll b made =>
    rw [change, Change.outcome, addAll_eq made.consistent fun r _ => h.has_eq]
    refine ⟨rfl, ?_, rfl, ?_⟩
    · have hmade := hd.addAll b.rules
      rwa [addAll_eq made.consistent fun r _ => h.has_eq] at hmade
    · refine h.appendAll ?_ fun r hr => isNew_iff.1 (List.all_eq_true.1 List.all_takeWhile r hr)
      exact made.consistent.names.sublist ((List.takeWhile_sublist _).map _)

/-- Calls one after the other keep to what is told by the rules accepted before them. -/
theorem changes_outcomes (hd : d.Made) (h : Holds d.rules accepted) (cs : List Change) :
    (d.changes cs).2 = (outcomes accepted cs).2 ∧ (d.changes cs).1.Made ∧
      (d.changes cs).1.name = d.name ∧
      Holds (d.changes cs).1.rules (outcomes accepted cs).1 := by
  induction cs generalizing d accepted with
  | nil => exact ⟨rfl, hd, rfl, h⟩
  | cons c rest ih =>
    obtain ⟨herror, hmade, hname, hholds⟩ := change_outcome hd h c
    obtain ⟨herrors, hmade', hname', hholds'⟩ := ih hmade hholds
    exact ⟨by rw [changes, outcomes, herror, herrors], hmade', hname'.trans hname, hholds'⟩

/-- A call that fails adds nothing to the draft but what it keeps. -/
theorem change_of_error {c : Change} {e : LogicError} (he : (d.change c).2 = some e) :
    (d.change c).1 = { d with rules := d.rules ++ c.kept d.rules } := by
  cases c with
  | add r =>
    rw [change] at he ⊢
    cases hadd : d.add r with
    | ok d' => simp [hadd] at he
    | error e => simp [Change.kept]
  | replace r =>
    rw [change] at he ⊢
    cases hreplace : d.replace r with
    | ok d' => simp [hreplace] at he
    | error e => simp [Change.kept]
  | addAll b made =>
    rw [change, addAll_eq made.consistent fun r _ => ?_, Change.kept]
    rw [Bool.eq_iff_iff, has_iff, isNew, Bool.not_not, List.contains_iff_mem]

end Calls

/-! ## The rulebook of a draft -/

section Finish

variable {d : Draft} {accepted : List Rule}

theorem arranges_finish (hd : d.Made) : d.Arranges d.finish := by
  have hmade : d.finish.Made := ⟨d, hd, rfl⟩
  refine ⟨rfl, hmade.consistent.names, fun r hr => ?_, ?_, fun priority => ?_⟩
  · rw [Rule.checked, hmade.consistent.faults r hr]
  · have hsorted := @List.pairwise_mergeSort Rule (fun a b => decide (b.priority ≤ a.priority))
      (by grind) (by grind) d.rules
    simpa [finish] using hsorted
  · refine filter_mergeSort (by grind) (by grind) (List.pairwise_of_forall_mem_list ?_)
    intro r hr r' hr'
    simp only [List.mem_filter, decide_eq_true_eq] at hr hr' ⊢
    rw [hr.2, hr'.2]

theorem Holds.find?_finish (hd : d.Made) (h : Holds d.rules accepted) (name : Text) :
    d.finish.find? name = latest? accepted name := by
  have hperm : d.finish.rules.Perm d.rules := List.mergeSort_perm ..
  rw [← h.latest]
  cases hfind : d.rules.find? fun r => r.name == name with
  | none =>
    rw [List.find?_eq_none] at hfind
    rw [find?, List.find?_eq_none]
    exact fun r hr => hfind r (hperm.mem_iff.1 hr)
  | some r =>
    have hname : r.name = name := by simpa using List.find?_some hfind
    have hmem := hperm.mem_iff.2 (List.mem_of_find?_eq_some hfind)
    rw [← hname]
    exact Made.find?_name ⟨d, hd, rfl⟩ hmem

end Finish

end Draft

/-! ## A rule more -/

variable {b : Rulebook} {r : Rule}

theorem Made.sorted (h : b.Made) : b.rules.Pairwise fun r r' => r'.priority ≤ r.priority := by
  obtain ⟨d, hd, rfl⟩ := h
  exact (Draft.arranges_finish hd).sorted

/-- The rules of a rulebook can be added to an empty draft. -/
theorem Made.addAll_eq (h : b.Made) :
    ({ name := b.name } : Draft).addAll b.rules = ({ name := b.name, rules := b.rules }, none) := by
  have hall : ∀ r ∈ b.rules, isNew [] r = true := fun r _ => rfl
  have hknown : ∀ r ∈ b.rules, ({ name := b.name } : Draft).has r.name = !isNew [] r :=
    fun r _ => rfl
  rw [Draft.addAll_eq h.consistent hknown, List.takeWhile_eq_self_iff.2 hall,
    List.dropWhile_eq_nil_iff.2 hall]
  rfl

/-- A rule without faults can be put into any rulebook; then it is the one under its name, and the
other rules stand as they stood. -/
theorem Made.withRule (h : b.Made) (hr : r.checked = .ok r) :
    ∃ b', b.withRule r = .ok b' ∧ b'.Made ∧ b'.name = b.name ∧ b'.find? r.name = some r ∧
      (b'.rules.filter fun r' => r'.name ≠ r.name) = b.rules.filter fun r' => r'.name ≠ r.name := by
  let d : Draft := { name := b.name, rules := b.rules }
  let d' : Draft := { name := b.name, rules := putIn r b.rules }
  have hd : d.Made := by
    have hadd := (Draft.Made.new b.name).addAll b.rules
    rwa [h.addAll_eq] at hadd
  have hreplace : d.replace r = .ok d' := by
    rw [Draft.replace_eq (Rule.faults_of_checked hr).2]
  have hmade : d'.finish.Made := ⟨d', hd.replace hreplace, rfl⟩
  refine ⟨d'.finish, ?_, hmade, rfl, ?_, ?_⟩
  · rw [Rulebook.withRule, h.addAll_eq]
    simp only [hreplace, d]
    rfl
  · exact hmade.find?_name ((List.mergeSort_perm ..).mem_iff.2 mem_putIn)
  · have hsorted : ((putIn r b.rules).filter fun r' => r'.name ≠ r.name).Pairwise
        fun r r' => decide (r'.priority ≤ r.priority) = true := by
      rw [filter_putIn]
      simpa using h.sorted.filter _
    rw [Draft.finish, filter_mergeSort (by grind) (by grind) hsorted, filter_putIn]

/-- However a draft of a rulebook was put together, failing calls included: every call fails or not,
and with the error, that the rules accepted before it tell, and a failing call leaves the draft as
it is, but for the rules of a rulebook in front of the first of a known name. The rulebook of the
draft has the rule accepted last under each name, and no two rules of one name and none with a
fault; its rules stand by priority, those of one priority as in the draft, whose names stand in the
order in which they were accepted first. To every rulebook, a rule without faults can be added or
put in the place of the one with its name, and the others stay in their order. -/
theorem assembled :
    (∀ (name : Text) (cs : List Draft.Change),
      let d := (({ name } : Draft).changes cs).1
      let accepted := (Draft.outcomes [] cs).1
      (({ name } : Draft).changes cs).2 = (Draft.outcomes [] cs).2 ∧
        Draft.Holds d.rules accepted ∧
        (∀ (c : Draft.Change) (e : LogicError), (d.change c).2 = some e →
          (d.change c).1 = { d with rules := d.rules ++ c.kept d.rules }) ∧
        d.finish.Made ∧ d.finish.name = name ∧ d.Arranges d.finish ∧
        ∀ ruleName, d.finish.find? ruleName = latest? accepted ruleName) ∧
      ∀ (b : Rulebook) (r : Rule), b.Made → r.checked = .ok r →
        ∃ b', b.withRule r = .ok b' ∧ b'.Made ∧ b'.name = b.name ∧ b'.find? r.name = some r ∧
          (b'.rules.filter fun r' => r'.name ≠ r.name) =
            b.rules.filter fun r' => r'.name ≠ r.name := by
  refine ⟨fun name cs => ?_, fun b r h hr => h.withRule hr⟩
  obtain ⟨herrors, hmade, hname, hholds⟩ := Draft.changes_outcomes (.new name) Draft.Holds.nil cs
  exact ⟨herrors, hholds, fun c e he => Draft.change_of_error he, ⟨_, hmade, rfl⟩, hname,
    Draft.arranges_finish hmade, hholds.find?_finish hmade⟩

/-- A rule under a taken name is refused, and so is a rulebook that has one after a new rule, which
stays. In the rulebook of the draft, one of the rules can be replaced. -/
theorem assembled_refused :
    let rule (name : Text) (priority : Int) : Rule := {
      name, priority
      conditions := [{ atom := ⟨.var "x", .named "a", .any⟩ }]
      actions := [.reject "no"] }
    let other : Rulebook := { rules := [rule "c" 0, rule "a" 0] }
    ∃ made : other.Made,
      let d := (({ } : Draft).changes [.add (rule "a" 0), .add (rule "b" 0), .add (rule "b" 1)]).1
      let b := (d.change (.addAll other made)).1.finish
      (d.change (.addAll other made)).2 = some (.duplicateRule "a") ∧
        (d.change (.addAll other made)).1.rules = [rule "a" 0, rule "b" 0, rule "c" 0] ∧
        b.find? "b" = some (rule "b" 0) ∧
        ∃ b', b.withRule (rule "b" 2) = .ok b' ∧ b'.find? "b" = some (rule "b" 2) ∧
          (b'.rules.filter fun r => r.name ≠ ("b" : Text)) =
            b.rules.filter fun r => r.name ≠ ("b" : Text) := by
  intro rule other
  have made : other.Made := made_of_addAll rfl (by decide)
  refine ⟨made, ?_⟩
  intro d b
  obtain ⟨-, -, herror, -⟩ :=
    assembled.1 "default" [.add (rule "a" 0), .add (rule "b" 0), .add (rule "b" 1)]
  obtain ⟨-, -, -, hmade, -, -, hfind⟩ := assembled.1 "default"
    [.add (rule "a" 0), .add (rule "b" 0), .add (rule "b" 1), .addAll other made]
  have hkept : (d.change (.addAll other made)).1 = _ :=
    herror (.addAll other made) (.duplicateRule "a") rfl
  obtain ⟨b', hwith, -, -, hfind', hfilter⟩ := assembled.2 b (rule "b" 2) hmade rfl
  exact ⟨rfl, by rw [hkept]; rfl, (hfind "b").trans (by cbv), b', hwith, hfind', hfilter⟩

end Rulebook
end FactGraph
