/-!
# Reading decimal numbers

Numbers in a filter and on the command line are written in plain decimal. A text is a number only
as a whole: `Decimal.int64?` and `Decimal.uint64?` read whole numbers that fit their type, and
`Decimal.float?` reads digits with at most one point and rounds them to the nearest float.
-/

namespace Sluice.Decimal

/-- The number that a digit stands for. -/
def digitValue (c : Char) : Nat := c.toNat - '0'.toNat

/-- The number that digits stand for, the most significant first. -/
def ofDigits (digits : List Char) : Nat :=
  digits.foldl (fun n c => 10 * n + digitValue c) 0

/-- Reads one or more digits. -/
def nat? (cs : List Char) : Option Nat :=
  if !cs.isEmpty && cs.all Char.isDigit then some (ofDigits cs) else none

/-- A whole number that fits 64 signed bits. -/
def fitInt64? (n : Int) : Option Int64 :=
  if Int64.minValue.toInt ≤ n && n ≤ Int64.maxValue.toInt then some (Int64.ofInt n) else none

/-- Reads a whole number, possibly negative, that fits 64 signed bits. -/
def int64? : List Char → Option Int64
  | '-' :: digits => (nat? digits).bind fun n => fitInt64? (-n)
  | digits => (nat? digits).bind fun n => fitInt64? n

/-- Reads a whole number, possibly with a plus sign, that fits 64 unsigned bits. -/
def uint64? (cs : List Char) : Option Nat :=
  let digits := match cs with
    | '+' :: digits => digits
    | digits => digits
  (nat? digits).bind fun n => if n < UInt64.size then some n else none

/-- Reads digits with at most one point among or around them. -/
def unsignedFloat? (cs : List Char) : Option Float :=
  let whole := cs.takeWhile Char.isDigit
  match cs.dropWhile Char.isDigit with
  | [] => if whole.isEmpty then none else some (Float.ofScientific (ofDigits whole) false 0)
  | point :: fraction =>
    if point = '.' && fraction.all Char.isDigit && !(whole.isEmpty && fraction.isEmpty) then
      some (Float.ofScientific (ofDigits (whole ++ fraction)) true fraction.length)
    else none

/-- Reads a number with at most one point, possibly negative, as the nearest float. -/
def float? : List Char → Option Float
  | '-' :: cs => (unsignedFloat? cs).map fun x => -x
  | cs => unsignedFloat? cs

end Sluice.Decimal
