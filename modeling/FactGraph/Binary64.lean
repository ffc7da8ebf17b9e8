/-!
# Double precision numbers

A `Binary64` is an IEEE 754 double given by its bits, with a single value that is not a number.
Order and rounding are stated on the exact value: a double other than an infinity or a NaN is
`significand · 2 ^ exponent`, and `round` takes the nearest double to a quotient of natural numbers,
the one with the even significand when two are equally near.
-/

namespace FactGraph

namespace Binary64

/-- The bits below the sign of an infinity. -/
abbrev infinityMagnitude : Nat := 0x7FF0000000000000

/-- The bits of the one value that is not a number. -/
abbrev nanBits : UInt64 := 0x7FF8000000000000

/-- The weight of the sign bit. -/
abbrev signWeight : Nat := 0x8000000000000000

/-- The weight of the lowest bit of the exponent, which is also that of the leading bit of a
significand with 53 bits. -/
abbrev leadingWeight : Nat := 0x10000000000000

end Binary64

/-- A double precision number. All bit patterns that are not a number are one value. -/
structure Binary64 where
  /-- The sign, the exponent and the fraction, from the highest bit down. -/
  bits : UInt64
  /-- There is one pattern that is not a number. -/
  canonical :
    Binary64.infinityMagnitude < bits.toNat % Binary64.signWeight → bits = Binary64.nanBits
deriving DecidableEq

namespace Binary64

/-- The double with the given bits. -/
def ofBits (b : UInt64) : Binary64 :=
  if h : infinityMagnitude < b.toNat % signWeight then ⟨nanBits, fun _ => rfl⟩
  else ⟨b, fun h' => absurd h' h⟩

/-- The bits below the sign; on numbers of one sign they grow with the absolute value. -/
def magnitude (x : Binary64) : Nat := x.bits.toNat % signWeight

/-- Whether the sign bit is set. -/
def isNegative (x : Binary64) : Bool := signWeight ≤ x.bits.toNat

/-- Whether the value is not a number. -/
def isNaN (x : Binary64) : Bool := infinityMagnitude < x.magnitude

/-- Whether the value is an infinity of either sign. -/
def isInfinite (x : Binary64) : Bool := x.magnitude == infinityMagnitude

/-- The double with a sign and the bits below it. -/
def ofMagnitude (negative : Bool) (m : Nat) : Binary64 :=
  ofBits (UInt64.ofNat (if negative then signWeight + m else m))

/-- The value that is not a number. -/
def nan : Binary64 := ofBits nanBits

/-- The infinity of a sign. -/
def infinity (negative : Bool) : Binary64 := ofMagnitude negative infinityMagnitude

/-! ## Order -/

/-- A number that orders doubles by value; both zeros have rank zero. -/
def rank (x : Binary64) : Int := if x.isNegative then -(x.magnitude : Int) else x.magnitude

/-- The order of two doubles by value, if both are numbers. -/
def compare? (x y : Binary64) : Option Ordering :=
  if x.isNaN || y.isNaN then none else some (compare x.rank y.rank)

/-- The order used to list doubles: by value, with the value that is not a number behind all
others. -/
instance : Ord Binary64 where
  compare x y :=
    match x.isNaN, y.isNaN with
    | true, true => .eq
    | true, false => .gt
    | false, true => .lt
    | false, false => compare x.rank y.rank

/-! ## Exact values -/

/-- The integer part of the exact value of a finite double. -/
def significand (x : Binary64) : Nat :=
  if x.magnitude < leadingWeight then x.magnitude else leadingWeight + x.magnitude % leadingWeight

/-- The power of two in the exact value of a finite double. -/
def exponent (x : Binary64) : Int :=
  if x.magnitude < leadingWeight then -1074 else (x.magnitude / leadingWeight : Nat) - 1075

/-! ## Rounding -/

/-- The natural number nearest to `n / d`, the even one of two that are equally near. -/
def roundQuotient (n d : Nat) : Nat :=
  if 2 * (n % d) < d then n / d
  else if d < 2 * (n % d) then n / d + 1
  else if n / d % 2 = 0 then n / d else n / d + 1

/-- Numerator and denominator of `(n / d) / 2 ^ e`. -/
def scaleDown (n d : Nat) (e : Int) : Nat × Nat :=
  if 0 ≤ e then (n, d * Nat.pow 2 e.toNat) else (n * Nat.pow 2 (-e).toNat, d)

/-- The power of two that leaves a positive quotient `n / d` with 53 bits before the point. -/
def unit (n d : Nat) : Int :=
  let e : Int := n.log2 - d.log2 - 52
  let (a, b) := scaleDown n d e
  if a < leadingWeight * b then e - 1 else e

/-- The bits below the sign of the double nearest to `n / d`; from half a unit above the largest
double on it is an infinity. -/
def round (n d : Nat) : Nat :=
  if n = 0 then 0
  else
    let e := max (unit n d) (-1074)
    let (a, b) := scaleDown n d e
    min infinityMagnitude ((e + 1074).toNat * leadingWeight + roundQuotient a b)

/-- Whether a positive quotient `n / d` below the normal doubles is taken for a double: its first 53
bits are a double, and nothing stands behind them. The bit next to them does not count unless it is
finer than `2 ^ finest`: rounding to 53 bits goes by that bit, but a double in this range has fewer
bits, and rounding goes by one of the 53 instead. -/
def isSubnormal (finest : Int) (n d : Nat) : Bool :=
  let e := unit n d
  let (a, b) := scaleDown n d (e - 1)
  a % b == 0 && a / b / 2 % Nat.pow 2 (-1074 - e).toNat == 0 &&
    (a / b % 2 == 0 || finest ≤ e - 1)

/-- Whether rounding `n / d`, of which bits down to `2 ^ finest` are known, stays in range: it does
not overflow, and if the nearest number with 53 bits lies below every normal double then `n / d` is
taken for a double. -/
def inRange (finest : Int) (n d : Nat) : Bool :=
  n == 0 || (round n d < infinityMagnitude &&
    (-1074 ≤ unit n d || isSubnormal finest n d ||
      (unit n d == -1075 &&
        (let (a, b) := scaleDown n d (-1075)
         roundQuotient a b == 2 * leadingWeight))))

/-- The double nearest to an integer. -/
def ofInt (n : Int) : Binary64 := ofMagnitude (n < 0) (round n.natAbs 1)

end Binary64
end FactGraph
