import Sluice.Decimal.Shortest

/-!
# Writing floats

A float is written with the fewest digits that read back as the same float. Where the exponent of
the first digit is small the number is positional and always has a fraction; elsewhere it has a
signed exponent.
-/

namespace Sluice.Decimal

/-- Which exponents of the first digit are written out in positions. -/
structure Notation where
  least : Int
  greatest : Int

/-- The notation of floats in JSON: positional from 0.00001 up to below ten to the sixteenth. -/
def jsonNotation : Notation := ⟨-5, 15⟩

/-- A digit string with a point, for an exponent that is not negative. -/
def positional (digits : List Char) (exponent : Nat) : List Char :=
  let whole := digits.take (exponent + 1)
  let fraction := digits.drop (exponent + 1)
  whole ++ List.replicate (exponent + 1 - digits.length) '0' ++
    '.' :: (if fraction.isEmpty then ['0'] else fraction)

/-- A digit string with a point after the first digit, if there are more, and an exponent. -/
def scientific (digits : List Char) (exponent : Int) : List Char :=
  digits.take 1 ++ (if digits.length ≤ 1 then [] else '.' :: digits.drop 1) ++
    'e' :: (if exponent < 0 then '-' else '+') :: Nat.toDigits 10 exponent.natAbs

/-- The digits of a magnitude, laid out. -/
def Notation.layout (form : Notation) (x : Digits) : List Char :=
  if form.least ≤ x.exponent && x.exponent ≤ form.greatest then
    if x.exponent < 0 then
      ['0', '.'] ++ List.replicate (x.exponent.natAbs - 1) '0' ++ x.digits
    else positional x.digits x.exponent.toNat
  else scientific x.digits x.exponent

/-- The text of a finite float. Zero keeps its sign. -/
def Notation.write (form : Notation) (x : Float) : List Char :=
  let bits := x.toBits
  let sign := if bits.toNat < signBit then [] else ['-']
  let magnitude := Binary.ofBits bits
  sign ++ (if magnitude.mantissa = 0 then ['0', '.', '0'] else form.layout magnitude.shortest)

end Sluice.Decimal
