/-!
# Texts

A text is a string of bytes, with no promise about its encoding. Names, literals, messages and
documents are all texts. This module holds the plain operations on them: numerals in base ten and
sixteen, quoting, lines, and the split of a name into its namespace and its local part.
-/

namespace FactGraph

/-- A string of bytes. -/
abbrev Text := List UInt8

namespace Text

/-- The UTF-8 bytes of a string. -/
def ofString (s : String) : Text := s.toUTF8.data.toList

instance : Coe String Text := ⟨ofString⟩

/-- Whether two texts have the same bytes. -/
def same : Text → Text → Bool
  | [], [] => true
  | a :: s, b :: t => a == b && same s t
  | _, _ => false

theorem same_iff : ∀ {s t : Text}, same s t = true ↔ s = t
  | [], [] => by simp [same]
  | [], _ :: _ => by simp [same]
  | _ :: _, [] => by simp [same]
  | _ :: s, _ :: t => by simp [same, same_iff (s := s) (t := t)]

/-- Texts are compared byte by byte. -/
instance : DecidableEq Text := fun _ _ => decidable_of_iff _ same_iff

/-- The line feed that ends a line. -/
abbrev newline : UInt8 := '\n'.toUInt8

/-! ## Numerals -/

/-- The decimal numeral of a natural number. -/
def ofNat (n : Nat) : Text := (Nat.toDigits 10 n).map Char.toUInt8

/-- The decimal numeral of an integer, with a minus sign in front of a negative one. -/
def ofInt (n : Int) : Text :=
  if n < 0 then '-'.toUInt8 :: ofNat n.natAbs else ofNat n.natAbs

/-- The numeral of a half byte in base sixteen, in lower case. -/
def hexDigit (n : UInt8) : UInt8 :=
  if n < 10 then '0'.toUInt8 + n else 'a'.toUInt8 + (n - 10)

/-- The two digits of a byte in base sixteen. -/
def hexByte (b : UInt8) : Text := [hexDigit (b >>> 4), hexDigit (b &&& 0x0F)]

/-- The bytes of a text in base sixteen, two digits each. -/
def hex (t : Text) : Text := t.flatMap hexByte

/-- Whether a byte is a decimal digit. -/
def isDigit (c : UInt8) : Bool := '0'.toUInt8 ≤ c && c ≤ '9'.toUInt8

/-- The value of a digit in base sixteen, in either case. -/
def hexValue? (c : UInt8) : Option UInt8 :=
  if isDigit c then some (c - '0'.toUInt8)
  else if 'a'.toUInt8 ≤ c && c ≤ 'f'.toUInt8 then some (c - 'a'.toUInt8 + 10)
  else if 'A'.toUInt8 ≤ c && c ≤ 'F'.toUInt8 then some (c - 'A'.toUInt8 + 10)
  else none

/-- The bytes that a text in base sixteen stands for, if it is one. -/
def unhex? : Text → Option Text
  | [] => some []
  | [_] => none
  | a :: b :: rest => do
    let high ← hexValue? a
    let low ← hexValue? b
    let tail ← unhex? rest
    return (high <<< 4 ||| low) :: tail

/-! ## Classes of bytes -/

/-- White space: blank, tab, line feed, vertical tab, form feed and carriage return. -/
def isSpace (c : UInt8) : Bool := c == ' '.toUInt8 || (9 ≤ c && c ≤ 13)

/-- Whether a byte is an ASCII letter. -/
def isLetter (c : UInt8) : Bool :=
  ('a'.toUInt8 ≤ c && c ≤ 'z'.toUInt8) || ('A'.toUInt8 ≤ c && c ≤ 'Z'.toUInt8)

/-- Whether a byte may stand in the name of a placeholder: a letter, a digit or an underscore. -/
def isWord (c : UInt8) : Bool := isLetter c || isDigit c || c == '_'.toUInt8

/-- The lower case form of an ASCII letter; every other byte stays. -/
def toLower (c : UInt8) : UInt8 :=
  if 'A'.toUInt8 ≤ c && c ≤ 'Z'.toUInt8 then c + 32 else c

/-! ## Parts of a text -/

/-- What stands before the first zero byte. -/
def untilNul (t : Text) : Text := t.takeWhile (· != 0)

/-- Whether the needle occurs somewhere in the text. -/
def occursIn (needle : Text) : Text → Bool
  | [] => needle.isPrefixOf []
  | c :: rest => needle.isPrefixOf (c :: rest) || occursIn needle rest

/-- Whether a byte closes a namespace: a hash sign, a slash or a colon. -/
def closesNamespace (c : UInt8) : Bool :=
  c == '#'.toUInt8 || c == '/'.toUInt8 || c == ':'.toUInt8

/-- The part of a name behind its last hash sign, slash or colon. -/
def localPart (name : Text) : Text :=
  (name.reverse.takeWhile (fun c => !closesNamespace c)).reverse

/-- The part of a name up to and including its last hash sign, slash or colon. -/
def namespacePart (name : Text) : Text :=
  (name.reverse.dropWhile (fun c => !closesNamespace c)).reverse

/-- The parts of a text between separators; there is one part more than there are separators. -/
def splitAt (separator : UInt8) (t : Text) : List Text :=
  t.foldr
    (fun c parts =>
      if c == separator then [] :: parts
      else match parts with
        | [] => [[c]]
        | part :: parts => (c :: part) :: parts)
    [[]]

/-- The lines of a text without their line feeds. What follows the last line feed is a line of its
own unless it is empty. -/
def lines (t : Text) : List Text :=
  t.foldr
    (fun c ls =>
      if c == newline then [] :: ls
      else match ls with
        | [] => [[c]]
        | l :: ls => (c :: l) :: ls)
    []

/-! ## Quoting -/

/-- A byte as it is written between quotation marks. -/
def quoteByte (c : UInt8) : Text :=
  if c == '"'.toUInt8 then ['\\'.toUInt8, '"'.toUInt8]
  else if c == '\\'.toUInt8 then ['\\'.toUInt8, '\\'.toUInt8]
  else if c == '\n'.toUInt8 then ['\\'.toUInt8, 'n'.toUInt8]
  else if c == '\r'.toUInt8 then ['\\'.toUInt8, 'r'.toUInt8]
  else if c == '\t'.toUInt8 then ['\\'.toUInt8, 't'.toUInt8]
  else [c]

/-- The text between quotation marks, with quotation marks, backslashes, line feeds, carriage
returns and tabs escaped. -/
def quote (t : Text) : Text := '"'.toUInt8 :: (t.flatMap quoteByte ++ ['"'.toUInt8])

/-- The text between angle brackets. -/
def bracket (t : Text) : Text := '<'.toUInt8 :: (t ++ ['>'.toUInt8])

end Text
end FactGraph
