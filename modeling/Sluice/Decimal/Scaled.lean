import Sluice.Decimal.Reading

/-!
# Decimals read with a 64-bit significand

A decimal with a fraction or an exponent is read as a significand, a whole number below 2 ^ 64, and
a power of ten. Digits that the significand has no room for are dropped. The significand is rounded
to a float and then multiplied or divided by a power of ten, so the result may differ from the
nearest float in its last place. A result that is too large is refused; one that is too small is
zero.
-/

namespace Sluice.Decimal

/-- The parts of a written decimal. -/
structure Parts where
  negative : Bool
  whole : List Char
  fraction : List Char
  /-- The sign and the digits of the exponent. -/
  exponent : Option (Bool × List Char)

/-- Takes digits onto a significand while it stays below 2 ^ 64, and gives the digits left over. -/
def absorb : Nat → List Char → Nat × List Char
  | significand, [] => (significand, [])
  | significand, c :: rest =>
    let next := 10 * significand + digitValue c
    if next < UInt64.size then absorb next rest else (significand, c :: rest)

/-- The significand and the power of ten of the digits, without the written exponent. -/
def Parts.significand (parts : Parts) : Nat × Int :=
  let (first, left) := absorb 0 parts.whole
  let (significand, dropped) := absorb first parts.fraction
  (significand, (left.length : Int) - ((parts.fraction.length : Int) - dropped.length))

/-- Divides by powers of ten, by at most 10 ^ 308 at a time. -/
def divide : (steps : Nat) → Float → (power : Nat) → Float
  | 0, x, power => x / Float.ofScientific 1 false power
  | steps + 1, x, power =>
    if power ≤ 308 || x == 0 then x / Float.ofScientific 1 false (min power 308)
    else divide steps (x / Float.ofScientific 1 false 308) (power - 308)

/-- A significand times a power of ten, refused when it is not finite. -/
def scale? (significand : Nat) (power : Int) : Option Float :=
  let x := Float.ofNat significand
  if power < 0 then some (divide (power.natAbs / 308) x power.natAbs)
  else if power ≤ 308 then
    let y := x * Float.ofScientific 1 false power.toNat
    if y.isInf then none else some y
  else if significand = 0 then some 0
  else none

/-- An exponent within 32 signed bits, as far as it goes. -/
def clampExponent (n : Int) : Int := max Int32.minValue.toInt (min n Int32.maxValue.toInt)

/-- The magnitude of a decimal with a fraction or an exponent. -/
def Parts.magnitude? (parts : Parts) : Option Float :=
  let (significand, power) := parts.significand
  match parts.exponent with
  | none => scale? significand power
  | some (negative, digits) =>
    let exponent := ofDigits digits
    if exponent ≤ Int32.maxValue.toInt then
      scale? significand (clampExponent (if negative then power - exponent else power + exponent))
    else if negative || significand = 0 then some 0
    else none

/-- The float of a decimal with a fraction or an exponent, or of a whole number. -/
def Parts.float? (parts : Parts) : Option Float :=
  parts.magnitude?.map fun x => if parts.negative then -x else x

end Sluice.Decimal
