import FactGraph.Binary64.Decimal

/-!
# Reading numerals

A numeral is read from the front of a text: white space is skipped, a sign may follow, and as many
bytes as possible are taken. What is left behind the numeral is for the caller to judge, so every
reading comes with the number of bytes that it used.
-/

namespace FactGraph.Numeral

open Text

/-- A number read from the front of a text. -/
structure Reading (α : Type) where
  /-- The number. -/
  value : α
  /-- How many bytes were read, white space and sign included. -/
  used : Nat

/-- A sign in front of a numeral: whether it is a minus sign, and what follows it. -/
def splitSign : Text → Bool × Text
  | [] => (false, [])
  | c :: rest =>
    if c == '-'.toUInt8 then (true, rest)
    else if c == '+'.toUInt8 then (false, rest)
    else (false, c :: rest)

/-! ## Values of digits -/

/-- Joins digits two by two to digits in the square of the base; the lowest digits come first, and
joined digits are gathered the latest first. -/
def joinPairs (base : Nat) : List Nat → List Nat → List Nat
  | joined, low :: high :: rest => joinPairs base ((low + base * high) :: joined) rest
  | joined, digits => (digits ++ joined).reverse

theorem length_joinPairs (base : Nat) (joined digits : List Nat) :
    (joinPairs base joined digits).length = joined.length + (digits.length + 1) / 2 := by
  fun_induction joinPairs base joined digits with
  | case1 joined low high rest ih =>
    simp only [ih, List.length_cons]
    omega
  | case2 joined digits h =>
    match digits with
    | [] | [_] => simp
    | low :: high :: rest => exact absurd rfl (h low high rest)

/-- The value of digits in a base, the lowest first. Neighbours are joined until one digit is left,
so that the numbers that are multiplied are of one length. -/
def ofDigits (base : Nat) : List Nat → Nat
  | [] => 0
  | [digit] => digit
  | low :: high :: rest => ofDigits (base * base) (joinPairs base [] (low :: high :: rest))
termination_by digits => digits.length
decreasing_by
  simp only [length_joinPairs, List.length_cons, List.length_nil]
  omega

/-- A digit in front of a value. -/
abbrev prepend (base digit value : Nat) : Nat := digit + base * value

theorem foldr_joinPairs (base : Nat) (joined digits : List Nat) :
    (joinPairs base joined digits).foldr (prepend (base * base)) 0 =
      joined.reverse.foldr (prepend (base * base)) (digits.foldr (prepend base) 0) := by
  fun_induction joinPairs base joined digits with
  | case1 joined low high rest ih =>
    simp [ih, prepend, Nat.mul_add, Nat.mul_assoc, Nat.add_assoc]
  | case2 joined digits h =>
    match digits with
    | [] | [_] => simp [prepend]
    | low :: high :: rest => exact absurd rfl (h low high rest)

/-- Joining neighbours does not change the value. -/
theorem ofDigits_eq_foldr (base : Nat) (digits : List Nat) :
    ofDigits base digits = digits.foldr (prepend base) 0 := by
  fun_induction ofDigits base digits with
  | case1 => rfl
  | case2 base digit => simp [prepend]
  | case3 base low high rest ih => simp [ih, foldr_joinPairs]

/-- The value of decimal digits. -/
def decimalValue (digits : Text) : Nat :=
  ofDigits 10 (digits.reverse.map fun c => (c - '0'.toUInt8).toNat)

/-- The value of digits in base sixteen. -/
def hexValue (digits : Text) : Nat :=
  ofDigits 16 (digits.reverse.map fun c => ((hexValue? c).getD 0).toNat)

/-- Whether a byte is a digit in base sixteen. -/
def isHexDigit (c : UInt8) : Bool := (hexValue? c).isSome

/-! ## Whole numbers -/

/-- The sign and the absolute value of a decimal integer at the front of a text. -/
def signed? (t : Text) : Option (Reading (Bool × Nat)) :=
  let (negative, rest) := splitSign (t.dropWhile isSpace)
  let digits := rest.takeWhile isDigit
  if digits.isEmpty then none
  else some ⟨(negative, decimalValue digits), t.length - (rest.drop digits.length).length⟩

/-- A decimal integer at the front of a text. -/
def integer? (t : Text) : Option (Reading Int) :=
  (signed? t).map fun r => ⟨if r.value.1 then -(r.value.2 : Int) else r.value.2, r.used⟩

/-- Whether an integer fits in 64 bits with a sign. -/
def fitsInt64 (n : Int) : Bool := Int64.minValue.toInt ≤ n && n ≤ Int64.maxValue.toInt

/-- A count: a text that begins with no minus sign, is read to its end as an integer, and whose
absolute value fits in 64 bits. A minus sign behind white space counts downwards from `2 ^ 64`. -/
def count? (t : Text) : Option UInt64 :=
  if t.head? == some '-'.toUInt8 then none
  else match signed? t with
    | none => none
    | some ⟨(negative, n), used⟩ =>
      if used != t.length || UInt64.size ≤ n then none
      else some (if negative then 0 - UInt64.ofNat n else UInt64.ofNat n)

/-! ## Floating point -/

/-- A double read from a text, and whether the number it was read from is in range. -/
structure Rounded where
  /-- The nearest double. -/
  value : Binary64
  /-- Whether the number neither overflows nor falls below the normal doubles inexactly. -/
  inRange : Bool

/-- The double nearest to a quotient of which bits down to `2 ^ finest` are known. -/
def roundQuotient (negative : Bool) (finest : Int) (n d : Nat) : Rounded :=
  ⟨Binary64.ofMagnitude negative (Binary64.round n d), Binary64.inRange finest n d⟩

/-- Decimal digits are turned into bits down to a quarter of the least positive double; of what is
finer only its presence is known. -/
def finestDecimalBit : Int := -1076

/-- The double nearest to the value of decimal digits times `10 ^ power`. Numbers far outside the
range of doubles are told by their order of magnitude alone. -/
def roundDecimal (negative : Bool) (digits : Text) (power : Int) : Rounded :=
  let digits := digits.dropWhile (· == '0'.toUInt8)
  let order : Int := digits.length + power
  if digits.isEmpty then ⟨Binary64.ofMagnitude negative 0, true⟩
  else if 400 < order then ⟨Binary64.infinity negative, false⟩
  else if order < -400 then ⟨Binary64.ofMagnitude negative 0, false⟩
  else
    let (n, d) := Binary64.decimalQuotient (decimalValue digits) power
    roundQuotient negative finestDecimalBit n d

/-- The double nearest to `digits · 2 ^ power`, of which all bits are known. -/
def roundBinary (negative : Bool) (digits : Nat) (power : Int) : Rounded :=
  let order : Int := digits.log2 + power
  if digits = 0 then ⟨Binary64.ofMagnitude negative 0, true⟩
  else if 1200 < order then ⟨Binary64.infinity negative, false⟩
  else if order < -1200 then ⟨Binary64.ofMagnitude negative 0, false⟩
  else
    let (n, d) := Binary64.scaleDown digits 1 (-power)
    roundQuotient negative power n d

/-- The exponent behind a mark, if digits follow the mark and its sign, and how many bytes it
takes. -/
def exponent (mark : UInt8) : Text → Int × Nat
  | [] => (0, 0)
  | c :: rest =>
    let (negative, body) := splitSign rest
    let digits := body.takeWhile isDigit
    if toLower c != mark || digits.isEmpty then (0, 0)
    else
      let value : Int := decimalValue digits
      (if negative then -value else value, 1 + (rest.length - body.length) + digits.length)

/-- The digits before and behind a point, and how many bytes they take with it. There has to be a
digit on one side. -/
def mantissa? (isMember : UInt8 → Bool) (t : Text) : Option (Text × Text × Nat) :=
  let whole := t.takeWhile isMember
  match t.drop whole.length with
  | [] => if whole.isEmpty then none else some (whole, [], whole.length)
  | c :: rest =>
    let fraction := if c == '.'.toUInt8 then rest.takeWhile isMember else []
    if whole.isEmpty && fraction.isEmpty then none
    else if c == '.'.toUInt8 then some (whole, fraction, whole.length + 1 + fraction.length)
    else some (whole, [], whole.length)

/-- A decimal number without a sign. -/
def decimal? (negative : Bool) (t : Text) : Option (Reading Rounded) :=
  (mantissa? isDigit t).map fun (whole, fraction, length) =>
    let (power, more) := exponent 'e'.toUInt8 (t.drop length)
    ⟨roundDecimal negative (whole ++ fraction) (power - fraction.length),
      length + more⟩

/-- A number in base sixteen without a sign, behind its mark `0x`. -/
def hexadecimal? (negative : Bool) : Text → Option (Reading Rounded)
  | zero :: mark :: t =>
    if zero != '0'.toUInt8 || toLower mark != 'x'.toUInt8 then none
    else
      (mantissa? isHexDigit t).map fun (whole, fraction, length) =>
        let (power, more) := exponent 'p'.toUInt8 (t.drop length)
        ⟨roundBinary negative (hexValue (whole ++ fraction)) (power - 4 * fraction.length),
          2 + length + more⟩
  | _ => none

/-- Whether a text begins with a word, whatever its case. -/
def startsWithWord (word : Text) (t : Text) : Bool := (t.take word.length).map toLower == word

/-- The length of a note in parentheses: letters, digits and underscores, closed. -/
def noteLength : Text → Nat
  | [] => 0
  | c :: rest =>
    let note := rest.takeWhile isWord
    if c == '('.toUInt8 && (rest.drop note.length).head? == some ')'.toUInt8 then note.length + 2
    else 0

/-- An infinity or the value that is not a number, without a sign. -/
def special? (negative : Bool) (t : Text) : Option (Reading Rounded) :=
  if startsWithWord "infinity" t then some ⟨⟨Binary64.infinity negative, true⟩, 8⟩
  else if startsWithWord "inf" t then some ⟨⟨Binary64.infinity negative, true⟩, 3⟩
  else if startsWithWord "nan" t then some ⟨⟨Binary64.nan, true⟩, 3 + noteLength (t.drop 3)⟩
  else none

/-- A floating point number at the front of a text: a special value, a number in base sixteen, or a
decimal number. -/
def float? (t : Text) : Option (Reading Rounded) :=
  let (negative, rest) := splitSign (t.dropWhile isSpace)
  let skipped := t.length - rest.length
  (special? negative rest <|> hexadecimal? negative rest <|> decimal? negative rest).map
    fun r => ⟨r.value, skipped + r.used⟩

end FactGraph.Numeral
