import FactGraph.Text

/-!
# Usage

The text that explains the command line.
-/

namespace FactGraph.Cli

/-- The version of the program. -/
def version : Text := "0.4.1"

/-- The last name of a path. -/
def baseName (path : Text) : Text := (path.reverse.takeWhile (· != '/'.toUInt8)).reverse

/-- The lines that say what can be written on the command line. -/
def usageLines : List String :=
  ["",
   "Graph Commands:",
   "  stats              Show triple, subject, predicate and object counts",
   "  insert             Add --subj --pred --obj",
   "  remove <id>        Remove the triple with this id (64 hex chars)",
   "  find               Triples matching --subj --pred --obj (any may be omitted)",
   "  import <file.nt>   Load N-Triples",
   "  export             Write the store as N-Triples to stdout",
   "  compact            Rewrite the log backend without dead entries",
   "",
   "Logic Commands:",
   "  validate           Validate --subj --pred --obj without inserting it",
   "  check              Report contradictions already in the store",
   "  infer              Run forward chaining and insert what it derives",
   "  prove              Prove the goal --subj --pred --obj",
   "  verify <proof>     Check a proof written by 'prove --json'",
   "",
   "Options:",
   "  --path PATH        Store path (default: ~/.nyaya/store)",
   "  --backend KIND     memory | sqlite | log (default: sqlite)",
   "  --config FILE      JSON configuration file",
   "  --rules FILE       JSON rule set",
   "  --builtin          Add the built-in integrity and semantic rules",
   "  --functional PRED  Treat PRED as single-valued (repeatable)",
   "  --max-iterations N Forward chaining budget",
   "  --max-depth N      Backward chaining depth bound",
   "  --limit N          Page size for find",
   "  --offset N         Skip N results for find",
   "  --json             Output as JSON",
   "  --verbose          Enable verbose debug logging",
   "  -v, --version      Show version",
   "  -h, --help         Show this help",
   "",
   "Objects: <name> or _:b<hex> is a node, \"text\" a string;",
   "integers, decimals, true and false are typed; other words are strings.",
   "",
   "Exit status: 0 on success, 1 on error, 2 when validate rejects the triple,",
   "check finds contradictions or verify rejects the proof."]

/-- The usage of the program, which was started by a path. -/
def usage (program : Text) : Text :=
  "nyaya " ++ version ++ " - triple store and logic engine\n\nUsage: " ++ baseName program ++
    " <command> [options]\n" ++ usageLines.flatMap fun l => Text.ofString l ++ [Text.newline]

end FactGraph.Cli
