import FactGraph.Numeral

/-!
# Options

The command line is read word by word. An option takes the word behind it as its value where it
needs one; the words that are no options are the command and its argument. Of an option that is
given twice the last value counts, except that functional predicates add up. Reading stops at the
first word that asks for help or that cannot be read.
-/

namespace FactGraph.Cli

/-- What stands on the command line. -/
structure Options where
  /-- The command. -/
  command : Text := []
  /-- The argument of the command. -/
  argument : Text := []
  /-- The path of the configuration. -/
  config : Text := []
  /-- The path of the rules. -/
  rules : Text := []
  /-- The path of the store. -/
  path : Option Text := none
  /-- The word for the kind of storage. -/
  backend : Option Text := none
  /-- The bound on the sweeps of forward chaining. -/
  sweeps : Option UInt64 := none
  /-- The bound on the depth of a search. -/
  depth : Option UInt64 := none
  /-- The functional predicates. -/
  functional : List Text := []
  /-- The subject. -/
  subject : Text := []
  /-- The predicate. -/
  predicate : Text := []
  /-- The object. -/
  object : Text := []
  /-- How many facts to show at most; zero for all. -/
  limit : UInt64 := 0
  /-- How many facts to leave out in front. -/
  offset : UInt64 := 0
  /-- Whether the standard rules apply. -/
  builtin : Bool := false
  /-- Whether to write JSON. -/
  json : Bool := false
  /-- Whether to explain what is done. -/
  verbose : Bool := false

/-- Why the command line was not read to its end. -/
inductive Stop where
  /-- Help is asked for. -/
  | help
  /-- The version is asked for. -/
  | version
  /-- The value of an option is no count. -/
  | badCount (option value : Text)
  /-- There is a word behind the argument of the command. -/
  | unexpected (word : Text)
  /-- An option that does not exist, or that lacks its value. -/
  | unknown (word : Text)

namespace Options

/-- An option with a value: what the value does to the options. -/
abbrev Setter := Options → Text → Except Stop Options

/-- The option whose value is a count. -/
def counting (option : Text) (set : Options → UInt64 → Options) : Setter := fun o value =>
  match Numeral.count? value with
  | some n => .ok (set o n)
  | none => .error (.badCount option value)

/-- The option with a value that a word is. -/
def setter? (word : Text) : Option Setter :=
  if word == "--path" then some fun o v => .ok { o with path := some v }
  else if word == "--backend" then some fun o v => .ok { o with backend := some v }
  else if word == "--config" then some fun o v => .ok { o with config := v }
  else if word == "--rules" then some fun o v => .ok { o with rules := v }
  else if word == "--functional" then
    some fun o v => .ok { o with functional := o.functional ++ [v] }
  else if word == "--max-iterations" then
    some (counting word fun o n => { o with sweeps := some n })
  else if word == "--max-depth" then some (counting word fun o n => { o with depth := some n })
  else if word == "--limit" then some (counting word fun o n => { o with limit := n })
  else if word == "--offset" then some (counting word fun o n => { o with offset := n })
  else if word == "--subj" then some fun o v => .ok { o with subject := v }
  else if word == "--pred" then some fun o v => .ok { o with predicate := v }
  else if word == "--obj" then some fun o v => .ok { o with object := v }
  else none

/-- What a word that is no option with a value does to the options. -/
def word (o : Options) (w : Text) : Except Stop Options :=
  if w == "--builtin" then .ok { o with builtin := true }
  else if w == "--json" then .ok { o with json := true }
  else if w == "--verbose" then .ok { o with verbose := true }
  else if w == "-h" || w == "--help" then .error .help
  else if w == "-v" || w == "--version" then .error .version
  else if w.head? == some '-'.toUInt8 then .error (.unknown w)
  else if o.command.isEmpty then .ok { o with command := w }
  else if o.argument.isEmpty then .ok { o with argument := w }
  else .error (.unexpected w)

/-- Reads words onto options. -/
def read (o : Options) : List Text → Except Stop Options
  | [] => .ok o
  | [w] => o.word w
  | w :: value :: rest =>
    match setter? w with
    | some set => do read (← set o value) rest
    | none => do read (← o.word w) (value :: rest)

end Options
end FactGraph.Cli
