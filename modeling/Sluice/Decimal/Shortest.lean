/-!
# The shortest decimal of a float

A finite float is a whole number of units, each a power of two, and it is what every real number
close enough to it rounds to. `Decimal.shortest` gives the decimal with the fewest digits among
those numbers; of several with as few digits it is the one nearest to the float, and of two equally
near the one whose last digit is even. The search compares whole numbers only: on the grid of each
power of ten, the two neighbours of the float are the only candidates.
-/

namespace Sluice.Decimal

/-- The magnitude of a finite float: `mantissa * 2 ^ exponent`. -/
structure Binary where
  mantissa : Nat
  exponent : Int
  deriving DecidableEq

/-- The least mantissa with all 53 bits, which is the 52nd power of two. -/
def leastFullMantissa : Nat := 0x10000000000000

/-- The bit that marks a negative float, which is the 63rd power of two. -/
def signBit : Nat := 0x8000000000000000

/-- The magnitude that the bits of a finite float stand for. -/
def Binary.ofBits (bits : UInt64) : Binary :=
  let exponent : Nat := bits.toNat % signBit / leastFullMantissa
  let fraction : Nat := bits.toNat % leastFullMantissa
  if exponent = 0 then ⟨fraction, -1074⟩
  else ⟨leastFullMantissa + fraction, (exponent : Int) - 1075⟩

/-- A value with the ends of the interval that rounds to it, all over one denominator. -/
structure Interval where
  low : Nat
  value : Nat
  high : Nat
  denominator : Nat
  /-- Whether the ends themselves round to the value. -/
  closed : Bool

/-- The interval of the numbers that round to a float. Its lower half is shorter where the unit
changes, that is above a power of two; ends round to an even mantissa. -/
def Binary.interval (x : Binary) : Interval :=
  let below := if x.mantissa = leastFullMantissa && x.exponent > -1074 then 1 else 2
  let quarter := x.exponent - 2
  let scale := Nat.pow 2 quarter.toNat
  ⟨(4 * x.mantissa - below) * scale, 4 * x.mantissa * scale, (4 * x.mantissa + 2) * scale,
    Nat.pow 2 (-quarter).toNat, x.mantissa % 2 = 0⟩

/-- How many decimal digits a whole number has. -/
def digitCount (n : Nat) : Nat := (Nat.toDigits 10 n).length

/-- The exponent of the greatest power of ten that is at most `value / denominator`, for a positive
value. -/
def magnitude (value denominator : Nat) : Int :=
  if denominator ≤ value then (digitCount (value / denominator) : Int) - 1
  else -(digitCount ((denominator + value - 1) / value - 1) : Int)

/-- The interval in units of a power of ten. -/
def Interval.inUnits (x : Interval) (exponent : Int) : Interval :=
  let up := Nat.pow 10 (-exponent).toNat
  ⟨x.low * up, x.value * up, x.high * up, x.denominator * Nat.pow 10 exponent.toNat, x.closed⟩

/-- Whether a whole number lies in an interval. -/
def Interval.contains (x : Interval) (n : Nat) : Bool :=
  let scaled := n * x.denominator
  if x.closed then x.low ≤ scaled && scaled ≤ x.high else x.low < scaled && scaled < x.high

/-- The whole number in an interval that is nearest to its value, if one of the two neighbours of
the value lies in it. -/
def Interval.nearest? (x : Interval) : Option Nat :=
  let lower := x.value / x.denominator
  let upper := lower + 1
  let gapBelow := x.value - lower * x.denominator
  let gapAbove := upper * x.denominator - x.value
  match x.contains lower, x.contains upper with
  | false, false => none
  | true, false => some lower
  | false, true => some upper
  | true, true =>
    if gapBelow < gapAbove then some lower
    else if gapAbove < gapBelow then some upper
    else if lower % 2 = 0 then some lower
    else some upper

/-- Digits without trailing zeros, with the exponent of the first. The value is the digits with a
point after the first, times ten to the exponent. -/
structure Digits where
  digits : List Char
  exponent : Int
  deriving DecidableEq

/-- The digits of `n * 10 ^ exponent`. -/
def Digits.ofScaled (n : Nat) (exponent : Int) : Digits :=
  let digits := Nat.toDigits 10 n
  ⟨(digits.reverse.dropWhile (· == '0')).reverse, exponent + (digits.length : Int) - 1⟩

/-- Searches the grids of ever more digits. -/
def search (x : Interval) (first : Int) : (left count : Nat) → Digits
  | 0, count =>
    let exponent := first - count + 1
    let units := x.inUnits exponent
    .ofScaled (units.value / units.denominator) exponent
  | left + 1, count =>
    let exponent := first - count + 1
    match (x.inUnits exponent).nearest? with
    | some n => .ofScaled n exponent
    | none => search x first left (count + 1)

/-- The shortest decimal that reads back as a positive float. Seventeen digits are always enough. -/
def Binary.shortest (x : Binary) : Digits :=
  let interval := x.interval
  search interval (magnitude interval.value interval.denominator) 17 1

end Sluice.Decimal
