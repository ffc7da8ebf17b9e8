import FactGraph.Proofs.Validation

/-!
# How reports come about

A report starts empty and takes up single findings and whole reports, which have come about in the
same way (`Report.Making`). However that is nested, its findings are a set in the order in which
they first came: a report joined to another adds those of its findings that are new
(`Report.Making.unites`). So it does not matter how joins are bracketed, nor that a report is joined
twice, and the order of two reports matters for the order of the findings only.

Validity and verdict are functions of the list of findings. A report that is filled step by step
can keep its validity beside the list (`Report.Ledger`), since a finding that is there already has
had its effect, and can look for its verdict in one pass, which ends at the first fatal finding and
otherwise remembers the first error (`Report.reason`).
-/

namespace FactGraph
namespace Report

/-! ## Ways to fill a report -/

/-- A way in which a report comes about. -/
inductive Making where
  /-- Nothing is in it. -/
  | empty
  /-- A finding is added. -/
  | add (m : Making) (f : Finding)
  /-- The findings of another report are added. -/
  | merge (m other : Making)

/-- The report that has come about. -/
def Making.report : Making → Report
  | empty => {}
  | add m f => m.report.add f
  | merge m other => m.report.merge other.report

/-- Findings with a flag that is kept beside them. -/
structure Ledger where
  /-- The findings, each once and in the order in which they were made. -/
  findings : List Finding := []
  /-- Whether nothing worse than a warning has been entered. -/
  accepted : Bool := true

namespace Ledger

/-- Enters a finding unless it is there. -/
def add (l : Ledger) (f : Finding) : Ledger :=
  if l.findings.contains f then l
  else ⟨l.findings ++ [f], if f.severity == .warning then l.accepted else false⟩

/-- Enters the findings of another ledger one by one. -/
def merge (l other : Ledger) : Ledger := other.findings.foldl add l

end Ledger

/-- The ledger that has come about. -/
def Making.ledger : Making → Ledger
  | empty => {}
  | add m f => m.ledger.add f
  | merge m other => m.ledger.merge other.ledger

/-- The reason against candidates, found in one pass over the findings behind those of which the
first error is remembered. -/
def reason (first : Option Finding) : List Finding → LogicError
  | [] => .validationFailed ((first.map Finding.toText).getD "invalid")
  | f :: found =>
    if f.severity == .fatal then .contradiction f.toText
    else reason (if first.isNone && f.severity == .error then some f else first) found

/-- Nothing if the flag says so, and the reason against the candidates if not. -/
def Ledger.verdict (l : Ledger) : Except LogicError Unit :=
  if l.accepted then .ok () else .error (reason none l.findings)

/-- What is to be said of findings. -/
inductive Judged : List Finding → Except LogicError Unit → Prop
  /-- Nothing is worse than a warning. -/
  | accepted {found : List Finding} (h : ∀ g ∈ found, g.severity = .warning) :
      Judged found (.ok ())
  /-- A fatal finding is there, and the first one is named. -/
  | contradicted {before after : List Finding} {f : Finding}
      (hbefore : ∀ g ∈ before, g.severity ≠ .fatal) (hf : f.severity = .fatal) :
      Judged (before ++ f :: after) (.error (.contradiction f.toText))
  /-- Nothing is fatal but an error is there, and the first one is named. -/
  | failed {before after : List Finding} {f : Finding}
      (hbefore : ∀ g ∈ before, g.severity ≠ .error) (hf : f.severity = .error)
      (hfatal : ∀ g ∈ before ++ f :: after, g.severity ≠ .fatal) :
      Judged (before ++ f :: after) (.error (.validationFailed f.toText))

variable {r q : Report} {found : List Finding} {f : Finding} {v : Except LogicError Unit}

/-! ## Findings are united -/

theorem add_of_mem (h : f ∈ r.findings) : r.add f = r := by
  simp [add, h]

theorem add_of_notMem (h : f ∉ r.findings) : r.add f = ⟨r.findings ++ [f]⟩ := by
  simp [add, h]

theorem nodup_add (h : r.findings.Nodup) : (r.add f).findings.Nodup := by
  by_cases hf : f ∈ r.findings
  · rwa [add_of_mem hf]
  · rw [add_of_notMem hf]
    exact h.append (List.nodup_singleton f) (by simpa using hf)

theorem nodup_addAll (h : r.findings.Nodup) : (r.addAll found).findings.Nodup := by
  rw [addAll]
  induction found generalizing r with
  | nil => exact h
  | cons f found ih => exact ih (nodup_add h)

theorem addAll_of_subset (h : found ⊆ r.findings) : r.addAll found = r := by
  rw [addAll]
  induction found with
  | nil => rfl
  | cons f found ih =>
    rw [List.cons_subset] at h
    rw [List.foldl_cons, add_of_mem h.1, ih h.2]

theorem addAll_append (found more : List Finding) :
    r.addAll (found ++ more) = (r.addAll found).addAll more :=
  List.foldl_append

/-- What one report takes up on its way into another makes no difference there. -/
theorem addAll_findings_addAll :
    r.addAll (q.addAll found).findings = (r.addAll q.findings).addAll found := by
  induction found generalizing q with
  | nil => rfl
  | cons f found ih =>
    have hadd : r.addAll (q.add f).findings = (r.addAll q.findings).add f := by
      by_cases hf : f ∈ q.findings
      · rw [add_of_mem hf, add_of_mem (mem_addAll.2 (.inr hf))]
      · rw [add_of_notMem hf, addAll_append]
        rfl
    change r.addAll ((q.add f).addAll found).findings = ((r.addAll q.findings).add f).addAll found
    rw [ih, hadd]

theorem mem_merge : f ∈ (r.merge q).findings ↔ f ∈ r.findings ∨ f ∈ q.findings :=
  mem_addAll

theorem merge_assoc (r q p : Report) : (r.merge q).merge p = r.merge (q.merge p) :=
  addAll_findings_addAll.symm

theorem merge_merge_self (r q : Report) : (r.merge q).merge q = r.merge q :=
  addAll_of_subset fun _ hf => mem_merge.2 (.inr hf)

theorem merge_perm (hr : r.findings.Nodup) (hq : q.findings.Nodup) :
    (r.merge q).findings.Perm (q.merge r).findings := by
  refine (List.perm_ext_iff_of_nodup (nodup_addAll hr) (nodup_addAll hq)).2 fun f => ?_
  rw [mem_addAll, mem_addAll, or_comm]

theorem isValid_merge : (r.merge q).isValid = (r.isValid && q.isValid) := by
  rw [Bool.eq_iff_iff, Bool.and_eq_true, isValid_iff, isValid_iff, isValid_iff]
  simp only [mem_merge, or_imp, forall_and]

theorem Making.nodup (m : Making) : m.report.findings.Nodup := by
  induction m with
  | empty => exact List.nodup_nil
  | add m f ih => exact nodup_add ih
  | merge m other ih _ => exact nodup_addAll ih

/-! ## The flag -/

theorem isValid_add : (r.add f).isValid = (r.isValid && f.severity == .warning) := by
  by_cases hf : f ∈ r.findings
  · rw [add_of_mem hf, eq_comm, Bool.and_eq_left_iff_imp, isValid_iff]
    exact fun hvalid => beq_iff_eq.2 (hvalid f hf)
  · simp [add_of_notMem hf, isValid]

/-- The ledger in which the findings of a report are entered. -/
def entered (r : Report) : Ledger := ⟨r.findings, r.isValid⟩

theorem entered_add : r.entered.add f = (r.add f).entered := by
  by_cases hf : f ∈ r.findings
  · simp [Ledger.add, entered, add_of_mem hf, hf]
  · rw [entered, entered, isValid_add, add_of_notMem hf]
    cases hwarning : f.severity == .warning <;> simp [Ledger.add, hf, hwarning]

theorem entered_merge : r.entered.merge q.entered = (r.merge q).entered := by
  have hfold (found : List Finding) (r : Report) :
      found.foldl Ledger.add r.entered = (r.addAll found).entered := by
    induction found generalizing r with
    | nil => rfl
    | cons f found ih => rw [List.foldl_cons, entered_add, ih]; rfl
  exact hfold q.findings r

/-- The flag of a ledger says whether the report is valid. -/
theorem Making.ledger_eq (m : Making) : m.ledger = m.report.entered := by
  induction m with
  | empty => rfl
  | add m f ih => rw [ledger, ih, entered_add, report]
  | merge m other ih ihother => rw [ledger, ih, ihother, entered_merge, report]

theorem isValid_iff_forall_ne :
    r.isValid = true ↔ ∀ f ∈ r.findings, f.severity ≠ .error ∧ f.severity ≠ .fatal := by
  have hworse (s : Severity) : s = .warning ↔ s ≠ .error ∧ s ≠ .fatal := by
    cases s <;> decide
  simp only [isValid_iff, hworse]

/-! ## The verdict -/

theorem first?_eq_some {s : Severity} : r.first? s = some f ↔ f.severity = s ∧
    ∃ before after, r.findings = before ++ f :: after ∧ ∀ g ∈ before, g.severity ≠ s := by
  simp [first?, List.find?_eq_some_iff_append]

theorem first?_eq_none {s : Severity} :
    r.first? s = none ↔ ∀ g ∈ r.findings, g.severity ≠ s := by
  simp [first?]

/-- A report without errors and fatal findings is valid. -/
theorem isValid_of_none (hfatal : r.first? .fatal = none) (herror : r.first? .error = none) :
    r.isValid = true := by
  rw [first?_eq_none] at hfatal herror
  exact isValid_iff_forall_ne.2 fun f hf => ⟨herror f hf, hfatal f hf⟩

theorem judged_verdict (r : Report) : Judged r.findings r.verdict := by
  rw [verdict]
  cases hfatal : r.first? .fatal with
  | some f =>
    obtain ⟨hf, before, after, hfindings, hbefore⟩ := first?_eq_some.1 hfatal
    rw [hfindings]
    exact .contradicted hbefore hf
  | none =>
    cases herror : r.first? .error with
    | some f =>
      obtain ⟨hf, before, after, hfindings, hbefore⟩ := first?_eq_some.1 herror
      rw [first?_eq_none, hfindings] at hfatal
      rw [hfindings]
      exact .failed hbefore hf hfatal
    | none => exact .accepted (isValid_iff.1 (isValid_of_none hfatal herror))

theorem Judged.verdict_eq (h : Judged r.findings v) : r.verdict = v := by
  rw [verdict]
  generalize hfindings : r.findings = found at h
  cases h with
  | accepted h =>
    have hnone {s : Severity} (hs : s ≠ .warning) : r.first? s = none :=
      first?_eq_none.2 fun g hg => (h g (hfindings ▸ hg)).symm ▸ hs.symm
    rw [hnone (by decide), hnone (by decide)]
  | contradicted hbefore hf =>
    rw [first?_eq_some.2 ⟨hf, _, _, hfindings, hbefore⟩]
  | failed hbefore hf hfatal =>
    rw [first?_eq_none.2 (hfindings ▸ hfatal), first?_eq_some.2 ⟨hf, _, _, hfindings, hbefore⟩]

theorem verdict_eq_iff : r.verdict = v ↔ Judged r.findings v :=
  ⟨fun h => h ▸ r.judged_verdict, Judged.verdict_eq⟩

theorem verdict_eq_ok : r.verdict = .ok () ↔ r.isValid = true := by
  rw [verdict_eq_iff, isValid_iff]
  generalize r.findings = found
  constructor
  · rintro ⟨h⟩
    exact h
  · exact .accepted

/-- One pass finds the first fatal finding, or else the first error if none was remembered. -/
theorem reason_eq (first : Option Finding) (found : List Finding) : reason first found =
    match first? ⟨found⟩ .fatal with
    | some f => .contradiction f.toText
    | none => .validationFailed
        (((first.or (first? ⟨found⟩ .error)).map Finding.toText).getD "invalid") := by
  induction found generalizing first with
  | nil => simp [reason, first?]
  | cons f found ih =>
    rw [reason, ih]
    cases hf : f.severity <;> cases first <;> simp [first?, hf]

theorem verdict_entered : r.entered.verdict = r.verdict := by
  cases hvalid : r.isValid with
  | true => rw [verdict_eq_ok.2 hvalid, entered, Ledger.verdict, if_pos hvalid]
  | false =>
    rw [entered, Ledger.verdict, if_neg (by simp [hvalid]), reason_eq, verdict]
    cases hfatal : r.first? .fatal with
    | some f => rfl
    | none =>
      cases herror : r.first? .error with
      | some f => rfl
      | none =>
        rw [isValid_of_none hfatal herror] at hvalid
        cases hvalid

/-! ## Reports as sets of findings -/

/-- However a report comes about, it holds no finding twice; it is valid if and only if nothing in
it is an error or fatal, and a flag kept on the way says the same; reports are joined as sets are,
in brackets of any kind, in any order up to that of the findings, and once for all; and candidates
are accepted if and only if the report is valid, the reason against them being the first fatal
finding, or the first error where there is none, which one pass finds as well. -/
theorem Making.unites (m m₁ m₂ m₃ : Making) :
    m.report.findings.Nodup ∧
    (m.report.isValid = true ↔
      ∀ f ∈ m.report.findings, f.severity ≠ .error ∧ f.severity ≠ .fatal) ∧
    (m.ledger.findings = m.report.findings ∧ m.ledger.accepted = m.report.isValid ∧
      m.ledger.verdict = m.report.verdict) ∧
    (∀ f, f ∈ (m₁.merge m₂).report.findings ↔
      f ∈ m₁.report.findings ∨ f ∈ m₂.report.findings) ∧
    ((m.merge m).report = m.report ∧
      ((m₁.merge m₂).merge m₂).report = (m₁.merge m₂).report) ∧
    ((m₁.merge m₂).report.findings.Perm (m₂.merge m₁).report.findings ∧
      (m₁.merge m₂).report.isValid = (m₂.merge m₁).report.isValid) ∧
    ((m₁.merge m₂).merge m₃).report = (m₁.merge (m₂.merge m₃)).report ∧
    (m.report.verdict = .ok () ↔ m.report.isValid = true) ∧
    ∀ v, m.report.verdict = v ↔ Judged m.report.findings v := by
  have hledger := m.ledger_eq
  refine ⟨m.nodup, isValid_iff_forall_ne, ⟨?_, ?_, ?_⟩, fun f => mem_merge, ⟨?_, ?_⟩, ⟨?_, ?_⟩, ?_,
    verdict_eq_ok, fun v => verdict_eq_iff⟩
  · rw [hledger, entered]
  · rw [hledger, entered]
  · rw [hledger, verdict_entered]
  · exact addAll_of_subset (List.Subset.refl _)
  · exact merge_merge_self _ _
  · exact merge_perm m₁.nodup m₂.nodup
  · simp only [report, isValid_merge, Bool.and_comm]
  · exact merge_assoc _ _ _

end Report
end FactGraph
