import FactGraph.Cli.Argument
import FactGraph.Cli.Usage
import FactGraph.Forward
import FactGraph.Rulebook.Standard
import FactGraph.Search
import FactGraph.Storage.Kind
import FactGraph.Store.Exchange
import FactGraph.Store.Page
import FactGraph.Validation

/-!
# Commands

What each command does with an open store, and what it prints. A command that fails has still
changed the store as far as it came.
-/

namespace FactGraph.Cli

/-- What a run prints, and its exit status. -/
structure Output where
  /-- The exit status. -/
  status : Nat := 0
  /-- What is written to the standard output. -/
  out : Text := []
  /-- What is written to the standard error. -/
  err : Text := []
deriving DecidableEq

/-- The output of a run that prints a text. -/
def Output.print (out : Text) (status : Nat := 0) : Output := { status, out }

/-- The output of a run that was refused for a reason. -/
def Output.refuse (err : Text) : Output := { status := 1, err }

/-- What a command depends on. -/
structure Setting where
  /-- What stands on the command line. -/
  options : Options
  /-- The rules. -/
  rules : Rulebook
  /-- The path by which the program was started. -/
  program : Text
  /-- What the nodes of the labels in documents are drawn from. -/
  seed : Text
  /-- The files. -/
  disk : Disk

/-- The store that a command leaves, and its output or why it failed. -/
abbrev Done := Store × Except Failure Output

namespace Setting

/-- A command that changes the store only if it does not fail. -/
def changing (s : Store) (r : Except Failure (Store × Output)) : Done :=
  match r with
  | .ok (s, output) => (s, .ok output)
  | .error e => (s, .error e)

/-- A command that reads the store. -/
def reading (s : Store) (r : Except Failure Output) : Done := (s, r)

/-- Output that could be asked for as JSON, which there is not. -/
def plain (x : Setting) (output : Output) : Except Failure Output :=
  if x.options.json then .error (.store (.reported .config "JSON output is not available"))
  else .ok output

/-- The message in front of which the command stands. -/
def note (x : Setting) (message : Text) : Text :=
  "[" ++ x.options.command ++ "] " ++ message ++ "\n"

/-- What is said where a fact is not complete. -/
def incomplete (x : Setting) : Output :=
  .refuse (x.note "--subj, --pred and --obj are required")

/-- The bound on the sweeps of forward chaining. -/
def sweeps (x : Setting) : Nat := x.options.sweeps.elim 64 UInt64.toNat

/-- The bound on the depth of a search. -/
def depth (x : Setting) : Nat := x.options.depth.elim 32 UInt64.toNat

/-- What is known about predicates. -/
def schema (x : Setting) : Schema := { functional := x.options.functional }

/-- The line of a fact with the beginning of its digest. -/
def factLine (f : Fact) : Text := f.digest.short ++ "  " ++ f.toText ++ "\n"

/-- The line of a finding. -/
def findingLine (f : Finding) : Text := "  " ++ f.toText ++ "\n"

/-- The lines of a conflict. -/
def conflictLines (c : Conflict) : Text :=
  c.description ++ "\n  " ++ c.first.toText ++ "\n  " ++ c.second.toText ++ "\n"

/-- A line of the statistics: a title in a column, and a text. -/
def statisticsLine (title : String) (t : Text) : Text := Text.ofString title ++ t ++ "\n"

/-- Shows numbers about the store. -/
def stats (x : Setting) (s : Store) : Done := reading s do
  let n ← StoreError.lift s.statistics
  x.plain <| .print <|
    "Store Statistics\n" ++
    "═══════════════════════════════\n" ++
    statisticsLine "  Backend:     " s.storage.name ++
    statisticsLine "  Triples:     " (Text.ofNat n.facts) ++
    statisticsLine "  Subjects:    " (Text.ofNat n.subjects) ++
    statisticsLine "  Predicates:  " (Text.ofNat n.predicates) ++
    statisticsLine "  Objects:     " (Text.ofNat n.objects) ++
    statisticsLine "  Storage:     " (Text.ofNat n.bytes ++ " bytes")

/-- Stores a fact. -/
def insert (x : Setting) (s : Store) : Done :=
  if x.options.isComplete then
    match StoreError.lift (x.options.fact >>= s.insert) with
    | .error e => (s, .error e)
    | .ok (s, id, new) =>
      let mark : Text := if new then "" else "  (already present)"
      reading s do
        StoreError.lift s.flush
        x.plain (.print (id.toHex ++ mark ++ "\n"))
  else (s, .ok x.incomplete)

/-- Takes a fact out of the store. -/
def remove (x : Setting) (s : Store) : Done :=
  match Digest.ofHex? x.options.argument with
  | none => (s, .ok (.refuse (x.note ("not a triple id: " ++ x.options.argument))))
  | some id => changing s do
    let (s, existed) ← StoreError.lift (s.remove id)
    if existed then
      StoreError.lift s.flush
      return (s, .print ("removed " ++ id.short ++ "\n"))
    else return (s, .refuse (x.note ("no triple " ++ id.short)))

/-- Shows a page of the facts that a query accepts. -/
def find (x : Setting) (s : Store) : Done := reading s do
  let q ← StoreError.lift x.options.query
  let page ← StoreError.lift (s.page q x.options.limit x.options.offset)
  let more : Text := if page.hasMore then " (more)" else ""
  x.plain <| .print <| page.facts.flatMap factLine ++ Text.ofNat page.facts.length ++ " of " ++
    Text.ofNat page.total ++ " triples" ++ more ++ "\n"

/-- Checks a fact before it is stored. -/
def validate (x : Setting) (s : Store) : Done :=
  if x.options.isComplete then reading s do
    let f ← StoreError.lift x.options.fact
    let report ← StoreError.lift (s.validate x.schema x.rules [f])
    let head : Text := if report.isValid then "valid\n" else "invalid\n"
    x.plain <| .print (head ++ report.findings.flatMap findingLine)
      (if report.isValid then 0 else 2)
  else (s, .ok x.incomplete)

/-- Shows the conflicts in the store. -/
def check (x : Setting) (s : Store) : Done := reading s do
  let found ← StoreError.lift (s.conflicts x.schema)
  x.plain <| .print (found.flatMap conflictLines ++ Text.ofNat found.length ++ " contradictions\n")
    (if found.isEmpty then 0 else 2)

/-- Stores what the rules derive. -/
def infer (x : Setting) (s : Store) : Done :=
  let r := s.infer {} x.rules x.sweeps
  reading r.store do
    let derived ← r.outcome
    StoreError.lift r.store.flush
    x.plain <| .print <| derived.flatMap factLine ++ Text.ofNat derived.length ++
      " triples derived in " ++ Text.ofNat r.counters.sweeps ++ " iterations\n"

/-- Shows a proof of a goal. -/
def prove (x : Setting) (s : Store) : Done := reading s do
  let goal ← StoreError.lift x.options.query
  let proof ← (s.prove {} x.rules x.depth goal).2
  x.plain (.print proof.toText)

/-- Stores the facts of a document. -/
def importFile (x : Setting) (s : Store) : Done :=
  match x.disk.read? x.options.argument with
  | none => (s, .ok (.refuse (x.note ("cannot open " ++ x.options.argument))))
  | some document =>
    let (s, added) := s.importDocument x.seed document
    reading s do
      let added ← StoreError.lift added
      StoreError.lift s.flush
      return .print ("imported " ++ Text.ofNat added ++ " new triples\n")

/-- Shows the document of all facts. -/
def exportAll (s : Store) : Done := reading s do
  let (_, document) ← StoreError.lift s.exportDocument
  return .print document

/-- Compacts the journal. -/
def compact (s : Store) : Done :=
  match s.storage with
  | .journal j =>
    let (j, gain) := j.compact
    ({ s with storage := .journal j }, .ok (.print ("reclaimed " ++ Text.ofNat gain ++ " bytes\n")))
  | storage => (s, .ok (.print (storage.name ++ " backend has nothing to compact\n")))

/-- Runs the command that is given. Saved proofs are JSON, which there is not. -/
def run (x : Setting) (s : Store) : Done :=
  let command := x.options.command
  if command == "stats" then x.stats s
  else if command == "insert" then x.insert s
  else if command == "remove" then x.remove s
  else if command == "find" then x.find s
  else if command == "validate" then x.validate s
  else if command == "check" then x.check s
  else if command == "infer" then x.infer s
  else if command == "prove" then x.prove s
  else if command == "verify" then
    (s, .error (.store (.reported .config "saved proofs cannot be read")))
  else if command == "import" then x.importFile s
  else if command == "export" then exportAll s
  else if command == "compact" then compact s
  else (s, .ok (.refuse ("Unknown command: " ++ command ++ "\n" ++ usage x.program)))

end Setting
end FactGraph.Cli
