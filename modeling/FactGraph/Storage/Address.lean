import FactGraph.Numeral

/-!
# Addresses of tables

A table is found by a path, or by an address that begins with `file:`. An address goes on with the
name of the machine, which can only be this one, the path, and parameters behind a question mark;
what follows a hash sign does not count. Bytes are written as a percent sign and two digits in base
sixteen; a zero byte written in this way ends the part that it stands in.

The parameters `mode`, which says how the file is opened, `vfs`, which names the way to reach files,
and `cache`, which has to be `shared` or `private`, are read one after the other, so that the last
one counts. Of the others, the first one of a name counts: `immutable` says that nobody changes the
file, `nolock` that nobody else uses it, `readonly_shm` that the index of its log is not to be
changed, and `modeof` names an item from which a new file takes who may use it.
-/

namespace FactGraph

/-- How the file of a table is opened. -/
inductive Access where
  /-- For reading. -/
  | reading
  /-- For writing; it has to exist. -/
  | writing
  /-- For writing; it is made where it does not exist. -/
  | making
  /-- Not at all: the table is kept in memory. -/
  | memory
deriving DecidableEq

namespace Access

/-- The word for a way of opening. -/
def name : Access → Text
  | reading => "ro"
  | writing => "rw"
  | making => "rwc"
  | memory => "memory"

/-- The way of opening that a word means. -/
def parse? (t : Text) : Option Access :=
  [reading, writing, making, memory].find? fun a => t == a.name

/-- How much a way of opening allows. -/
def rank : Access → Nat
  | reading => 0
  | writing => 1
  | making => 2
  | memory => 3

/-- Whether one way of opening can be changed to another: memory is always at hand, and otherwise no
more can be allowed than before. -/
def canBecome (a b : Access) : Bool := b == memory || b.rank ≤ a.rank

end Access

/-- Where a table is kept. -/
structure Address where
  /-- The path of its file. -/
  path : Text
  /-- How the file is opened. -/
  access : Access := .making
  /-- The way to reach files. -/
  system : Text := "unix"
  /-- The names and values of all parameters. -/
  parameters : List (Text × Text) := []
deriving DecidableEq

namespace Address

/-! ## Flags -/

/-- The number at the front of a text, in base ten, or in base sixteen behind the mark `0x`. It is
taken for zero where it does not fit in 32 bits with a sign. -/
def number (t : Text) : Nat :=
  let body := t.drop 2
  let n :=
    if Numeral.startsWithWord "0x" t && (body.head?.any Numeral.isHexDigit) then
      Numeral.hexValue (body.takeWhile Numeral.isHexDigit)
    else Numeral.decimalValue (t.takeWhile Text.isDigit)
  if n < 2147483648 then n else 0

/-- The truth value that a word means: that of the lowest byte of a number, or one of three words in
any case. Everything else is false. -/
def truth (word : Text) : Bool :=
  if word.head?.any Text.isDigit then number word % 256 != 0
  else (["on", "yes", "true"].map Text.ofString).contains (word.map Text.toLower)

/-- The value of the first parameter of a name. -/
def parameter? (a : Address) (name : Text) : Option Text := a.parameters.lookup name

/-- Whether a parameter is given that is true. -/
def flag (a : Address) (name : Text) : Bool := (a.parameter? name).any truth

/-! ## What an address says -/

/-- Whether nothing is opened for a table, neither on a disk nor elsewhere. -/
def isUnnamed (a : Address) : Bool :=
  a.path.isEmpty || a.path == ":memory:" || a.access == .memory

/-- Whether a table has no file. -/
def isVolatile (a : Address) : Bool := a.isUnnamed || a.system == "memdb"

/-- The longest path of a table that is kept in memory by the way to reach files. -/
def volatileLimit : Nat := 1016

/-- Whether the path of a table without a file is short enough. -/
def isShort (a : Address) : Bool := a.isUnnamed || a.path.length ≤ volatileLimit

/-- Whether a table is only opened where its file exists. -/
def needsFile (a : Address) : Bool := a.access == .reading || a.access == .writing

/-- Whether nobody changes the file of a table, so that it is only read. -/
def isImmutable (a : Address) : Bool := !a.isUnnamed && a.flag "immutable"

/-- Whether the rows of a table can be changed. -/
def isWritable (a : Address) : Bool := a.access != .reading && !a.isImmutable

/-- Whether users of a file can be told to the others by a mark beside it. -/
def isMarkable (a : Address) : Bool := a.system == "unix-dotfile"

/-- Whether the user of a file is told to the others by a mark beside it. -/
def usesMark (a : Address) : Bool := a.isMarkable && !a.flag "nolock"

/-- Whether the system does not keep others from using a file. -/
def isUnguarded (a : Address) : Bool :=
  a.flag "nolock" || a.system == "unix-none" || a.isMarkable

/-- Whether the changes of a file can be kept in a log. -/
def canLog (a : Address) : Bool := !a.isUnguarded

/-- Whether the index of a log is kept beside the file. The only user of a file, who may change it,
has it in memory. -/
def keepsIndex (a : Address) : Bool := a.system == "unix" || a.access == .reading

/-- The ways to reach files that there are. -/
def systems : List String := ["unix", "unix-none", "unix-dotfile", "unix-excl", "memdb"]

/-- Refuses an address with a way to reach files that there is not. -/
def checked (a : Address) : Except Text Address :=
  if (systems.map Text.ofString).contains a.system then .ok a
  else .error ("no such vfs: " ++ a.system)

/-! ## Parts of an address -/

/-- The byte that two digits stand for behind a percent sign. -/
def escaped? (percent high low : UInt8) : Option UInt8 := do
  if percent != '%'.toUInt8 then none
  else return (← Text.hexValue? high) <<< 4 ||| (← Text.hexValue? low)

/-- The bytes that a part of an address stands for. -/
def decode : Text → Text
  | c :: high :: low :: rest =>
    match escaped? c high low with
    | some b => if b == 0 then [] else b :: decode rest
    | none => c :: decode (high :: low :: rest)
  | t => t

/-- What stands in front of the first separator, and what stands behind it. -/
def cut (separator : UInt8) (t : Text) : Text × Text :=
  let front := t.takeWhile (· != separator)
  (front, t.drop (front.length + 1))

/-- The name and the value of a parameter. -/
def parameter (t : Text) : Text × Text :=
  let (name, value) := cut '='.toUInt8 t
  (decode name, decode value)

/-- The parameters in a part of an address; those without a name do not count. -/
def splitParameters (t : Text) : List (Text × Text) :=
  ((Text.splitAt '&'.toUInt8 t).map parameter).filter fun p => !p.1.isEmpty

/-- What a parameter says about where a table is kept. -/
def apply (a : Address) (p : Text × Text) : Except Text Address :=
  if p.1 == "vfs" then .ok { a with system := p.2 }
  else if p.1 == "cache" then
    if p.2 == "shared" || p.2 == "private" then .ok a
    else .error ("no such cache mode: " ++ p.2)
  else if p.1 == "mode" then
    match Access.parse? p.2 with
    | none => .error ("no such access mode: " ++ p.2)
    | some access =>
      if a.access.canBecome access then .ok { a with access }
      else .error ("access mode not allowed: " ++ p.2)
  else .ok a

/-- What follows the name of the machine. -/
def withoutMachine (t : Text) : Except Text Text :=
  let slashes : Text := "//"
  if slashes.isPrefixOf t then
    let machine := (t.drop 2).takeWhile (· != '/'.toUInt8)
    if machine.isEmpty || machine == "localhost" then .ok (t.drop (2 + machine.length))
    else .error ("invalid uri authority: " ++ machine)
  else .ok t

/-- The mark at the beginning of an address. -/
def mark : Text := "file:"

/-- Where a table is kept by a path or an address; or what is wrong with the address. -/
def parse (t : Text) : Except Text Address := do
  if !mark.isPrefixOf t then return { path := t }
  let body ← withoutMachine (t.drop mark.length)
  let (path, parameterText) := cut '?'.toUInt8 (cut '#'.toUInt8 body).1
  let parameters := splitParameters parameterText
  checked (← parameters.foldlM apply { path := decode path, parameters })

end Address
end FactGraph
