import FactGraph.Proofs.Candidates
import FactGraph.Rulebook.Standard

/-!
# What the rules on the form of facts find

The rules on the form of facts have one condition each, which every fact matches or every fact that
points at itself, and reject its matches. So they ask nothing of a store, and what they find against
a fact can be read off the fact (`Fact.malformations`). The checks without rules report under names
of their own, so that validation attributes to these rules just what they find
(`Store.validate_integrity`).
-/

namespace FactGraph

/-! ## Reports -/

namespace Report

variable {r : Report} {found : List Finding}

/-- The findings of a report that are attributed to the rules of a rulebook. -/
def attributed (r : Report) (rules : Rulebook) : List Finding :=
  r.findings.filter fun x => (rules.find? x.rule).isSome

/-- Keeping some findings comes to the same before and after they are added. -/
theorem filter_addAll (p : Finding → Bool) :
    (r.addAll found).findings.filter p =
      (addAll ⟨r.findings.filter p⟩ (found.filter p)).findings := by
  induction found generalizing r with
  | nil => rfl
  | cons x found ih =>
    have hadd : (r.add x).findings.filter p =
        if p x then (add ⟨r.findings.filter p⟩ x).findings else r.findings.filter p := by
      simp only [add]
      split_ifs <;> simp_all
    rw [addAll, List.foldl_cons, ← addAll, ih, hadd]
    cases hx : p x <;> simp [addAll, hx]

theorem findings_addAll_of_nodup (h : found.Nodup) (hnew : ∀ x ∈ found, x ∉ r.findings) :
    (r.addAll found).findings = r.findings ++ found := by
  induction found generalizing r with
  | nil => simp [addAll]
  | cons x found ih =>
    rw [List.nodup_cons] at h
    rw [List.forall_mem_cons] at hnew
    have hadd : r.add x = ⟨r.findings ++ [x]⟩ := by simp [add, hnew.1]
    rw [addAll, List.foldl_cons, ← addAll, hadd, ih h.2]
    · simp
    · intro y hy
      simp only [List.mem_append, List.mem_singleton, not_or]
      exact ⟨hnew.2 y hy, fun e => h.1 (e ▸ hy)⟩

end Report

/-! ## Rules with one condition -/

/-- The values that the variables of `Condition.everyFact` get. -/
def Fact.bindings (f : Fact) : Substitution :=
  [("o", f.object), ("p", .named f.predicate), ("s", .node f.subject)]

/-- The values that the variables of `Rule.noSelfReference` get from a fact that points at itself. -/
def Fact.selfBindings (f : Fact) : Substitution :=
  [("p", .named f.predicate), ("x", .node f.subject)]

namespace Rule

variable {r : Rule} {c : Condition} {reason : Text} (view : View) (f : Fact)

/-- A rule that rejects the matches of its only condition looks at nothing but the fact. -/
theorem findings_of_reject (hconditions : r.conditions = [c])
    (hactions : r.actions = [.reject reason]) (hreason : reason.isEmpty = false) :
    r.findings view f = .ok ((Condition.unifyAll [c] [f]).toList.map fun s =>
      ⟨r.severity, r.name, s.render reason⟩) := by
  have hmatches : r.matchesAt view f 0 c =
      .ok ((Condition.unifyAll [c] [f]).toList.map fun s => ⟨s, []⟩) := by
    simp only [matchesAt, hconditions, Condition.unifyAll, Condition.unifyEach]
    cases hu : c.atom.unify f [] with
    | none => rfl
    | some s =>
      cases hc : c.holds s <;>
        simp [Condition.allMatches, Condition.join, Condition.allHold, hc, bind, Except.bind, pure,
          Except.pure]
  simp only [findings, hconditions, hactions, List.zipIdx_cons, List.zipIdx_nil, List.mapM_cons,
    List.mapM_nil, hmatches]
  cases Condition.unifyAll [c] [f] with
  | none => rfl
  | some s =>
    simp [judge, hreason, bind, Except.bind, pure, Except.pure]

theorem findings_everyFact {g : Guard} (hconditions : r.conditions = [.everyFact g])
    (hactions : r.actions = [.reject reason]) (hreason : reason.isEmpty = false) {x : Value}
    (hx : f.bindings.lookup g.var = some x) : r.findings view f =
      .ok (if g.holds x then [⟨r.severity, r.name, f.bindings.render reason⟩] else []) := by
  have hunify : Condition.unifyAll [.everyFact g] [f] =
      if g.holds x then some f.bindings else none := by
    have heach : Condition.unifyEach [.everyFact g] [f] [] = some f.bindings := rfl
    have hall : Condition.allHold [.everyFact g] f.bindings = g.holds x := by
      simp [Condition.allHold, Condition.everyFact, Condition.holds, hx]
    simp [Condition.unifyAll, heach, hall]
  rw [findings_of_reject view f hconditions hactions hreason, hunify]
  split <;> rfl

theorem unifyAll_noSelfReference : Condition.unifyAll noSelfReference.conditions [f] =
    if f.object = .node f.subject then some f.selfBindings else none := by
  have hatom : (⟨.var "x", .var "p", .var "x"⟩ : Atom).unify f [] =
      if Value.node f.subject == f.object then some f.selfBindings else none := by
    have hlater : compare ("x" : Text) "p" = .gt := by decide
    have hsame : compare ("x" : Text) "x" = .eq := by decide
    -- The last place finds a value that the first place gave to its variable.
    show f.selfBindings.bind "x" f.object = _
    simp only [Fact.selfBindings, Substitution.bind, hlater, hsame]
    split <;> rfl
  simp only [noSelfReference, Condition.unifyAll, Condition.unifyEach, hatom, beq_iff_eq,
    eq_comm (b := f.object)]
  split <;> rfl

theorem findings_noSelfReference : noSelfReference.findings view f =
    .ok (if f.object = .node f.subject then [⟨.warning, "no_self_reference",
      f.subject.toText ++ " refers to itself through " ++ (Value.named f.predicate).toText⟩]
    else []) := by
  have hrender : f.selfBindings.render "?x refers to itself through ?p" =
      f.subject.toText ++ " refers to itself through " ++ (Value.named f.predicate).toText := by
    rw [← List.append_nil (Value.toText _), List.append_assoc]
    rfl
  have hunify := unifyAll_noSelfReference f
  rw [noSelfReference] at hunify
  rw [findings_of_reject (r := noSelfReference) view f rfl rfl rfl, hunify, ← hrender]
  split <;> rfl

/-! ### Guards on fields -/

theorem holds_equal_node {v : Text} {n m : Node} :
    Guard.holds ⟨v, .equal, .node n⟩ (.node m) = true ↔ m = n := by
  simp [Guard.holds, Comparison.holds, Comparison.same, Value.isNumeric]

/-- Whether there is a name that holds white space. -/
def spaced (name? : Option Text) : Bool := name?.any fun name => name.any Text.isSpace

theorem contains_whitespace (c : UInt8) : whitespace.contains c = Text.isSpace c := by
  have hbytes : whitespace = [32, 9, 10, 11, 12, 13] := by decide
  have hblank : ' '.toUInt8 = 32 := rfl
  rw [hbytes, Bool.eq_iff_iff, Text.isSpace, hblank]
  simp [UInt8.le_iff_toNat_le, ← UInt8.toNat_inj]
  omega

theorem holds_whitespace {v : Text} {x : Value} :
    Guard.holds ⟨v, .nameHolds, .string whitespace⟩ x = spaced x.name? := by
  simp only [Guard.holds, Comparison.holds, spaced]
  cases x.name? with
  | none => rfl
  | some name => exact congrArg name.any (funext contains_whitespace)

end Rule

/-! ## Facts that are not well formed -/

/-- What the rules on the form of facts find against a fact, in the order of the rules. -/
def Fact.malformations (f : Fact) : List Finding :=
  (if f.predicate = [] then
    [⟨.error, "no_empty_predicate", "empty predicate on " ++ f.subject.toText⟩] else []) ++
  (if f.subject = .named [] then
    [⟨.error, "no_empty_subject", "empty subject name"⟩] else []) ++
  (if f.object = .node f.subject then
    [⟨.warning, "no_self_reference", f.subject.toText ++ " refers to itself through " ++
      (Value.named f.predicate).toText⟩] else []) ++
  (if Rule.spaced f.subject.name? then
    [⟨.error, "no_whitespace_in_subject", "subject " ++ f.subject.toText ++
      " contains whitespace"⟩] else []) ++
  (if Rule.spaced f.object.name? then
    [⟨.error, "no_whitespace_in_object_node", "object " ++ f.object.toText ++ " of " ++
      f.subject.toText ++ " contains whitespace"⟩] else [])

namespace Rulebook

theorem rules_integrity : integrity.rules = [.noEmptyPredicate, .noEmptySubject, .noSelfReference,
    .noWhitespaceInSubject, .noWhitespaceInObject] := by
  simp [integrity, Draft.finish, List.mergeSort, List.MergeSort.Internal.splitInTwo,
    Rule.noEmptyPredicate, Rule.noEmptySubject, Rule.noSelfReference, Rule.noWhitespaceInSubject,
    Rule.noWhitespaceInObject]

theorem findings_integrity (view : View) (f : Fact) :
    integrity.findings view f = .ok f.malformations := by
  have hpredicate := Rule.findings_everyFact (r := .noEmptyPredicate) view f rfl rfl rfl rfl
  have hsubject := Rule.findings_everyFact (r := .noEmptySubject) view f rfl rfl rfl rfl
  have hspace := Rule.findings_everyFact (r := .noWhitespaceInSubject) view f rfl rfl rfl rfl
  have hspace' := Rule.findings_everyFact (r := .noWhitespaceInObject) view f rfl rfl rfl rfl
  simp only [Rule.holds_equal_node, Rule.holds_whitespace] at hpredicate hsubject hspace hspace'
  have hself := Rule.findings_noSelfReference view f
  have hchecking : (integrity.rules.filter fun r => r.enabled && r.validates) = integrity.rules := by
    rw [rules_integrity]
    rfl
  have hpredicateText : f.bindings.render "empty predicate on ?s" =
      "empty predicate on " ++ f.subject.toText := by
    rw [← List.append_nil f.subject.toText]
    rfl
  have hobjectText : f.bindings.render "object ?o of ?s contains whitespace" =
      "object " ++ f.object.toText ++ " of " ++ f.subject.toText ++ " contains whitespace" := by
    simp only [List.append_assoc]
    rfl
  rw [findings, hchecking, rules_integrity]
  simp only [List.mapM_cons, List.mapM_nil, hpredicate, hsubject, hspace, hspace', hself, bind,
    Except.bind, pure, Except.pure, List.flatten_cons, List.flatten_nil, List.append_nil,
    Node.named.injEq, hpredicateText, hobjectText]
  simp only [Fact.malformations, List.append_assoc]
  rfl

end Rulebook

/-! ## Validation with the rules on the form of facts -/

/-- Each rule on the form of facts finds one thing at most. -/
theorem Fact.rules_malformations (f : Fact) : (f.malformations.map Finding.rule).Sublist
    (Rulebook.integrity.rules.map Rule.name) := by
  have hone (P : Prop) [Decidable P] (x : Finding) :
      ((if P then [x] else []).map Finding.rule).Sublist [x.rule] := by
    split <;> simp
  rw [Rulebook.rules_integrity]
  simp only [malformations, List.map_append]
  exact ((((hone _ _).append (hone _ _)).append (hone _ _)).append (hone _ _)).append (hone _ _)

theorem Fact.nodup_malformations (f : Fact) : f.malformations.Nodup := by
  have hnames : (Rulebook.integrity.rules.map Rule.name).Nodup := by
    rw [Rulebook.rules_integrity]
    decide
  exact (hnames.sublist f.rules_malformations).of_map

/-- The checks without rules do not report under the names of rules on the form of facts. -/
theorem Schema.find?_rule_of_checks {schema : Schema} {v : View} {f : Fact}
    {a b c : List Finding} (ha : schema.checkFunctional v f = .ok a)
    (hb : schema.checkExclusive v f = .ok b) (hc : schema.checkTemporal v f = .ok c) :
    ∀ x ∈ a ++ b ++ c, Rulebook.integrity.find? x.rule = none := by
  have hnames : ∀ r ∈ Rulebook.integrity.rules, ':'.toUInt8 ∉ r.name := by
    rw [Rulebook.rules_integrity]
    decide
  have hcolon : ∀ x ∈ a ++ b ++ c, ':'.toUInt8 ∈ x.rule := by
    intro x hx
    rw [List.mem_append, List.mem_append] at hx
    obtain (hx | hx) | hx := hx
    · obtain ⟨other, rfl⟩ := of_mem_checkFunctional ha hx
      exact List.mem_append_left _ (by decide)
    · obtain ⟨pair, other, rfl⟩ := of_mem_checkExclusive hb hx
      simp only [exclusiveFinding, List.append_assoc]
      exact List.mem_append_left _ (by decide)
    · rw [of_mem_checkTemporal hc hx]
      exact List.mem_append_left _ (by decide)
  intro x hx
  rw [Rulebook.find?, List.find?_eq_none]
  exact fun r hr heq => hnames r hr (beq_iff_eq.1 heq ▸ hcolon x hx)

namespace Store

theorem validate_singleton_eq_ok {s : Store} {schema : Schema} {rules : Rulebook} {f : Fact}
    {report : Report} : s.validate schema rules [f] = .ok report ↔
      ∃ found, schema.findings rules (s.overlay [f]) f = .ok found ∧
        Report.addAll {} found = report := by
  simp only [validate, List.mapM_cons, List.mapM_nil]
  cases schema.findings rules (s.overlay [f]) f with
  | error e => simp [bind, Except.bind]
  | ok found => simp [bind, Except.bind, pure, Except.pure]

/-- Validation with the rules on the form of facts attributes to them what they find against the
candidate, whatever is stored. It returns where the storage is open and the fields of the candidate,
and the predicates that its own excludes, are within the limit. -/
theorem validate_integrity (s : Store) (schema : Schema) (f : Fact) :
    (∀ report, s.validate schema .integrity [f] = .ok report →
      report.attributed .integrity = f.malformations) ∧
    (s.Coherent → s.storage.isOpen = true → f.WithinLimit → schema.ExclusionsWithinLimit {f} →
      ∃ report, s.validate schema .integrity [f] = .ok report) := by
  constructor
  · intro report h
    obtain ⟨found, hfound, rfl⟩ := validate_singleton_eq_ok.1 h
    obtain ⟨a, b, c, d, ha, hb, hc, hd, rfl⟩ := Schema.findings_eq_ok.1 hfound
    obtain rfl := Except.ok.inj ((Rulebook.findings_integrity _ f).symm.trans hd)
    have hchecks :
        (a ++ b ++ c).filter (fun x => (Rulebook.integrity.find? x.rule).isSome) = [] := by
      rw [List.filter_eq_nil_iff]
      intro x hx
      simp [Schema.find?_rule_of_checks ha hb hc x hx]
    have hrules : f.malformations.filter (fun x => (Rulebook.integrity.find? x.rule).isSome) =
        f.malformations := by
      rw [List.filter_eq_self]
      intro x hx
      obtain ⟨r, hr, hname⟩ :=
        List.mem_map.1 (f.rules_malformations.subset (List.mem_map_of_mem hx))
      exact List.find?_isSome.2 ⟨r, hr, beq_iff_eq.2 hname⟩
    rw [Report.attributed, Report.filter_addAll, List.filter_append, hchecks, hrules,
      List.nil_append, Report.findings_addAll_of_nodup f.nodup_malformations] <;> simp
  · intro hs ho hf hexclusions
    obtain ⟨a, ha⟩ := exists_checkFunctional hs ho schema hf [f]
    obtain ⟨b, hb⟩ := exists_checkExclusive ho hf (hexclusions f rfl) [f]
    obtain ⟨c, hc⟩ := exists_checkTemporal hs ho schema (List.forall_mem_singleton.2 hf) hf
    have hfindings := Schema.findings_eq_ok.2
      ⟨a, b, c, _, ha, hb, hc, Rulebook.findings_integrity (s.overlay [f]) f, rfl⟩
    exact ⟨_, validate_singleton_eq_ok.2 ⟨_, hfindings, rfl⟩⟩

/-- A candidate with four faults in its form. -/
theorem validate_integrity_spaced :
    let stored : Fact := ⟨.named "a", "p", .integer 1⟩
    let f : Fact := ⟨.named "a b", [], .named "a b"⟩
    let schema : Schema := { functional := ["p"] }
    let s := (insertAll { storage := .memory {} } [stored]).1
    ∃ report, s.validate schema .integrity [f] = .ok report ∧
      (report.attributed .integrity).map Finding.toText =
        ["[error] no_empty_predicate: empty predicate on <a b>",
          "[warning] no_self_reference: <a b> refers to itself through <>",
          "[error] no_whitespace_in_subject: subject <a b> contains whitespace",
          "[error] no_whitespace_in_object_node: object <a b> of <a b> contains whitespace"] := by
  intro stored f schema s
  have hs : s.Represents {stored} :=
    represents_insertAll_singleton ⟨rfl, rfl, rfl⟩ rfl (by decide +kernel)
  have hf : ∀ x ∈ f.values, ∀ t ∈ x.fields, t.length ≤ fieldLimit := by decide
  have hexclusions : schema.ExclusionsWithinLimit {f} := fun _ _ _ hpair => by cases hpair
  obtain ⟨hattributed, hreturns⟩ := validate_integrity s schema f
  obtain ⟨report, hreport⟩ :=
    hreturns hs.coherent hs.writable.isOpen (Fact.withinLimit_iff.2 hf) hexclusions
  refine ⟨report, hreport, ?_⟩
  rw [hattributed report hreport]
  decide

end Store
end FactGraph
