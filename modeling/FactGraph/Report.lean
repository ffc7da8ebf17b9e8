import FactGraph.LogicError

/-!
# Reports

A report lists what was found against candidates, each finding once and in the order in which it was
made. Candidates are accepted if nothing worse than a warning was found. Otherwise the verdict names
the first fatal finding, or the first error where nothing is fatal.
-/

namespace FactGraph

/-- What a check found. -/
structure Finding where
  /-- How bad it is. -/
  severity : Severity
  /-- The rule or the built-in check that found it. -/
  rule : Text
  /-- What was found, in words. -/
  message : Text
deriving DecidableEq

/-- The text of a finding. -/
def Finding.toText (f : Finding) : Text :=
  "[" ++ f.severity.name ++ "] " ++ f.rule ++ ": " ++ f.message

/-- Everything that was found against candidates. -/
structure Report where
  /-- The findings, each once and in the order in which they were made. -/
  findings : List Finding := []
deriving DecidableEq

namespace Report

/-- Adds a finding unless it is there. -/
def add (r : Report) (f : Finding) : Report :=
  if r.findings.contains f then r else ⟨r.findings ++ [f]⟩

/-- Adds findings one by one. -/
def addAll (r : Report) (findings : List Finding) : Report := findings.foldl add r

/-- Adds the findings of another report. -/
def merge (r other : Report) : Report := r.addAll other.findings

/-- Whether nothing worse than a warning was found. -/
def isValid (r : Report) : Bool := r.findings.all fun f => f.severity == .warning

/-- How many findings are of a severity. -/
def count (r : Report) (severity : Severity) : Nat :=
  r.findings.countP fun f => f.severity == severity

/-- The first finding of a severity. -/
def first? (r : Report) (severity : Severity) : Option Finding :=
  r.findings.find? fun f => f.severity == severity

/-- Nothing if the candidates are accepted, and the reason against them if not. -/
def verdict (r : Report) : Except LogicError Unit :=
  match r.first? .fatal, r.first? .error with
  | some f, _ => .error (.contradiction f.toText)
  | none, some f => .error (.validationFailed f.toText)
  | none, none => .ok ()

end Report
end FactGraph
