import FactGraph.Cli.Command

/-!
# The command line

A run reads the command line, opens the store, runs the command and closes the store. It is a
function of the command line, of the environment and of the files, and answers with what is printed
and with the files that it leaves.
-/

namespace FactGraph.Cli

/-- What a run finds around it. -/
structure Environment where
  /-- The path by which the program was started. -/
  program : Text
  /-- The home directory. -/
  home : Option Text
  /-- The time. -/
  time : UInt64
  /-- What the nodes of the labels in documents are drawn from. -/
  seed : Text

/-- The path of the store where none is given. -/
def defaultPath (e : Environment) : Text := e.home.getD "." ++ "/.nyaya/store"

/-- What is printed where reading the command line stopped. -/
def Stop.output (program : Text) : Stop → Output
  | help => { err := usage program }
  | version => .print ("nyaya " ++ Cli.version ++ "\n")
  | badCount option value =>
    .refuse (option ++ " expects a non-negative integer, got '" ++ value ++ "'\n")
  | unexpected word => .refuse ("Unexpected argument: " ++ word ++ "\n")
  | unknown word => .refuse ("Unknown option: " ++ word ++ "\n" ++ usage program)

/-- What is printed about a failure; a proof that does not hold has an exit status of its own. -/
def failureOutput (o : Options) (e : Failure) : Output where
  status := match e with
    | .logic (.invalidProof _) => 2
    | _ => 1
  err := "[" ++ o.command ++ "] " ++ e.describe.untilNul ++ "\n"

/-- What is printed without opening a store: where there is no command, or none of the arguments
that it needs. -/
def early? (program : Text) (o : Options) : Option Output :=
  let needsArgument := o.command == "remove" || o.command == "verify" || o.command == "import"
  if o.command.isEmpty then some { status := 1, err := usage program }
  else if o.command == "help" then some { err := usage program }
  else if needsArgument && o.argument.isEmpty then
    some (.refuse ("[" ++ o.command ++ "] missing argument\n"))
  else none

/-- Refuses configurations, which have to be JSON. -/
def checkConfig (o : Options) (d : Disk) : Except StoreError Unit :=
  if o.config.isEmpty then .ok ()
  else match d.read? o.config with
    | none => .error (.reported .config ("cannot open " ++ o.config))
    | some _ => .error (.reported .config (o.config ++ ": JSON is not available"))

/-- The rules of a run. Rules in files have to be JSON, which there is not. -/
def rulebook (o : Options) : Except Failure Rulebook := do
  if !o.rules.isEmpty then
    throw (.store (.reported .config (o.rules ++ ": JSON is not available")))
  let draft : Rulebook.Draft := { name := "cli" }
  if o.builtin then
    match draft.addAll (Rulebook.integrity.rules ++ Rulebook.semantic.rules) with
    | (_, some e) => throw (.logic e)
    | (draft, none) => return draft.finish
  else return draft.finish

/-- Makes the directories for the file of a storage. -/
def makeDirectories (kind : StorageKind) (path : Text) (d : Disk) : Attempt StoreError Disk :=
  if kind == .memory || path == ":memory:" then (d, none)
  else match Disk.directoryOf? path with
    | none => (d, none)
    | some directory =>
      match d.makeDirectories directory with
      | (d, none) => (d, none)
      | (d, some reason) =>
        (d, some (.reported .unavailable ("cannot create " ++ directory ++ ": " ++ reason)))

/-- Opens the store, runs the command and closes the store. -/
def runOnStore (e : Environment) (o : Options) (kind : StorageKind) (path : Text)
    (rules : Rulebook) (d : Disk) : Disk × Except Failure Output :=
  match makeDirectories kind path d with
  | (d, some e) => (d, .error (.store e))
  | (d, none) =>
    match (Storage.opened kind path e.time).on d with
    | (d, .error e) => (d, .error (.store e))
    | (d, .ok storage) =>
      match Store.opened (some storage) with
      | .error e => (storage.leave d, .error (.store e))
      | .ok store =>
        let setting : Setting :=
          { options := o, rules, program := e.program, seed := e.seed, disk := d }
        let (store, output) := setting.run store
        (store.storage.leave d, output)

/-- A run with options. -/
def runWith (e : Environment) (o : Options) (d : Disk) : Disk × Output :=
  let failed (e : Failure) : Disk × Output := (d, failureOutput o e)
  match checkConfig o d with
  | .error e => failed (.store e)
  | .ok () =>
    match StorageKind.parse? (o.backend.getD "sqlite") with
    | none => (d, .refuse ("Unknown backend: " ++ o.backend.getD [] ++ "\n"))
    | some kind =>
      match rulebook o with
      | .error e => failed e
      | .ok rules =>
        match runOnStore e o kind (o.path.getD (defaultPath e)) rules d with
        | (d, .ok output) => (d, output)
        | (d, .error e) => (d, failureOutput o e)

/-- A run of the program. -/
def run (e : Environment) (args : List Text) (d : Disk) : Disk × Output :=
  let e := { e with program := e.program.untilNul, home := e.home.map Text.untilNul }
  match Options.read {} (args.map Text.untilNul) with
  | .error stop => (d, stop.output e.program)
  | .ok o =>
    match early? e.program o with
    | some output => (d, output)
    | none => runWith e o d

end FactGraph.Cli
