import FactGraph.Text
import FactGraph.Binary64

/-!
# Decimal text of double precision numbers

A finite double is written with 15, 16 or 17 significant digits, the fewest of these that read back
as the same double. Numbers from `0.0001` up to the digit count are written positionally, all others
with a power of ten; trailing zeros are dropped, and a point is kept so that the text is not taken
for an integer.
-/

namespace FactGraph.Binary64

/-! ## From decimal to double -/

/-- Numerator and denominator of `digits · 10 ^ power`. -/
def decimalQuotient (digits : Nat) (power : Int) : Nat × Nat :=
  if 0 ≤ power then (digits * Nat.pow 10 power.toNat, 1) else (digits, Nat.pow 10 (-power).toNat)

/-- The bits below the sign of the double nearest to `digits · 10 ^ power`. -/
def roundDecimal (digits : Nat) (power : Int) : Nat :=
  let (n, d) := decimalQuotient digits power
  round n d

/-! ## From double to decimal -/

/-- Whether `n / d` lies below a power of ten. -/
def belowPower (n d : Nat) (power : Int) : Bool :=
  if 0 ≤ power then n < d * Nat.pow 10 power.toNat else n * Nat.pow 10 (-power).toNat < d

/-- The power of ten of the first digit of a positive quotient `n / d`. The logarithm to base two,
known to within one, gives it to within one. -/
def leadingPower (n d : Nat) : Int :=
  let guess : Int := ((n.log2 : Int) - d.log2) * 30103 / 100000
  if belowPower n d guess then guess - 1
  else if belowPower n d (guess + 1) then guess
  else guess + 1

/-- The number of `count` significant digits nearest to `n / d`, the even one of two that are
equally near, and the power of ten of its first digit. -/
def significantDigits (count n d : Nat) : Nat × Int :=
  let power := leadingPower n d
  let shift : Int := (count : Int) - 1 - power
  let digits :=
    if 0 ≤ shift then roundQuotient (n * Nat.pow 10 shift.toNat) d
    else roundQuotient n (d * Nat.pow 10 (-shift).toNat)
  if digits = Nat.pow 10 count then (Nat.pow 10 (count - 1), power + 1) else (digits, power)

/-- Numerator and denominator of the absolute value of a finite double. -/
def quotient (x : Binary64) : Nat × Nat :=
  scaleDown x.significand 1 (-x.exponent)

/-- Whether `count` significant digits of the absolute value read back as the same double. -/
def readsBack (x : Binary64) (count : Nat) : Bool :=
  let (n, d) := x.quotient
  let (digits, power) := significantDigits count n d
  roundDecimal digits (power - ((count : Int) - 1)) == x.magnitude

/-- The fewest of 15, 16 and 17 significant digits that read back; 17 always do. -/
def digitCount (x : Binary64) : Nat :=
  if x.readsBack 15 then 15 else if x.readsBack 16 then 16 else 17

/-- The digits without the zeros at their end. -/
def dropTrailingZeros (digits : Text) : Text :=
  (digits.reverse.dropWhile (· == '0'.toUInt8)).reverse

/-- A fraction behind its point, or nothing where there is no fraction. -/
def pointed (fraction : Text) : Text :=
  if fraction.isEmpty then [] else '.'.toUInt8 :: fraction

/-- The exponent of a power of ten: its sign and at least two digits. -/
def exponentText (power : Int) : Text :=
  let sign : UInt8 := if power < 0 then '-'.toUInt8 else '+'.toUInt8
  let digits := Text.ofNat power.natAbs
  sign :: (if digits.length < 2 then '0'.toUInt8 :: digits else digits)

/-- The text of `count` digits whose first stands for `10 ^ power`: positional if that power is at
least `-4` and below `count`, and with a power of ten otherwise. -/
def digitsText (count : Nat) (digits : Text) (power : Int) : Text :=
  let short := dropTrailingZeros digits
  if power < -4 || (count : Int) ≤ power then
    short.take 1 ++ pointed (short.drop 1) ++ 'e'.toUInt8 :: exponentText power
  else if power < 0 then
    '0'.toUInt8 :: pointed (List.replicate (-power - 1).toNat '0'.toUInt8 ++ short)
  else
    digits.take (power.toNat + 1) ++ pointed (short.drop (power.toNat + 1))

/-- Whether a text has a point or an exponent. -/
def isMarked (t : Text) : Bool :=
  t.any fun c => c == '.'.toUInt8 || c == 'e'.toUInt8 || c == 'E'.toUInt8

/-- The text of the absolute value of a finite double. -/
def absoluteText (x : Binary64) : Text :=
  if x.magnitude = 0 then ['0'.toUInt8]
  else
    let (n, d) := x.quotient
    let (digits, power) := significantDigits x.digitCount n d
    digitsText x.digitCount (Text.ofNat digits) power

/-- The text of a double. -/
def toText (x : Binary64) : Text :=
  if x.isNaN then "NaN"
  else if x.isInfinite then (if x.isNegative then "-INF" else "INF")
  else
    let body := if x.isNegative then '-'.toUInt8 :: x.absoluteText else x.absoluteText
    if isMarked body then body else body ++ ".0"

end FactGraph.Binary64
