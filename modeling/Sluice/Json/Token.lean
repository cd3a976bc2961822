import Sluice.Json.Basic
import Sluice.Decimal.Scaled

/-!
# Tokens of JSON

A JSON text is cut into brackets, braces, commas, colons, strings, numbers and the three words.
Between them stand spaces, tabs, newlines and carriage returns.
-/

namespace Sluice.Json

/-- A token of a JSON text. -/
inductive Token
  | leftBracket
  | rightBracket
  | leftBrace
  | rightBrace
  | comma
  | colon
  | null
  | bool (b : Bool)
  | number (n : Number)
  | string (s : String)

namespace Token

/-- Whether a character separates tokens and is none itself. -/
def isBlank (c : Char) : Bool := c == ' ' || c == '\t' || c == '\n' || c == '\r'

/-- The value of a hexadecimal digit. -/
def hexDigit? (c : Char) : Option Nat :=
  if '0' ≤ c && c ≤ '9' then some (c.toNat - '0'.toNat)
  else if 'a' ≤ c && c ≤ 'f' then some (c.toNat - 'a'.toNat + 10)
  else if 'A' ≤ c && c ≤ 'F' then some (c.toNat - 'A'.toNat + 10)
  else none

/-- The UTF-16 unit that four hexadecimal digits stand for. -/
def unit? (a b c d : Char) : Option Nat := do
  let a ← hexDigit? a
  let b ← hexDigit? b
  let c ← hexDigit? c
  let d ← hexDigit? d
  some (4096 * a + 256 * b + 16 * c + d)

/-- Whether a code unit is the first of a surrogate pair. -/
def isHighSurrogate (unit : Nat) : Bool := 0xD800 ≤ unit && unit ≤ 0xDBFF

/-- Whether a code unit is the second of a surrogate pair. -/
def isLowSurrogate (unit : Nat) : Bool := 0xDC00 ≤ unit && unit ≤ 0xDFFF

/-- The character that a pair of surrogates stands for. -/
def ofSurrogates (high low : Nat) : Char :=
  Char.ofNat (0x10000 + 0x400 * (high - 0xD800) + (low - 0xDC00))

/-- The character of an escape by one letter. -/
def escaped? : Char → Option Char
  | '"' => some '"'
  | '\\' => some '\\'
  | '/' => some '/'
  | 'b' => some '\x08'
  | 'f' => some '\x0c'
  | 'n' => some '\n'
  | 'r' => some '\r'
  | 't' => some '\t'
  | _ => none

/-- Reads a string after its opening quote. The characters read before come newest first. -/
def string? : List Char → List Char → Option (String × List Char)
  | [], _ => none
  | '"' :: rest, seen => some (String.ofList seen.reverse, rest)
  | '\\' :: 'u' :: a :: b :: c :: d :: rest, seen =>
    match unit? a b c d with
    | none => none
    | some unit =>
      if isLowSurrogate unit then none
      else if isHighSurrogate unit then
        match rest with
        | '\\' :: 'u' :: e :: f :: g :: h :: rest =>
          match unit? e f g h with
          | none => none
          | some low =>
            if isLowSurrogate low then string? rest (ofSurrogates unit low :: seen) else none
        | _ => none
      else string? rest (Char.ofNat unit :: seen)
  | '\\' :: c :: rest, seen =>
    match escaped? c with
    | none => none
    | some c => string? rest (c :: seen)
  | c :: rest, seen => if c.toNat < 0x20 || c = '\\' then none else string? rest (c :: seen)

/-- Reads the digits after a point, of which there is at least one, or nothing. -/
def fraction? : List Char → Option (Option (List Char) × List Char)
  | '.' :: rest =>
    let digits := rest.takeWhile Char.isDigit
    if digits.isEmpty then none else some (some digits, rest.dropWhile Char.isDigit)
  | rest => some (none, rest)

/-- Reads the digits of an exponent, of which there is at least one. -/
def exponentDigits? (negative : Bool) (cs : List Char) :
    Option (Option (Bool × List Char) × List Char) :=
  let digits := cs.takeWhile Char.isDigit
  if digits.isEmpty then none else some (some (negative, digits), cs.dropWhile Char.isDigit)

/-- Reads an exponent, or nothing. -/
def exponent? : List Char → Option (Option (Bool × List Char) × List Char)
  | [] => some (none, [])
  | c :: rest =>
    if c = 'e' || c = 'E' then
      match rest with
      | '+' :: rest => exponentDigits? false rest
      | '-' :: rest => exponentDigits? true rest
      | rest => exponentDigits? false rest
    else some (none, c :: rest)

/-- The number with the given parts. Without fraction and exponent it is an integer if it fits 64
bits; negative zero is a float. -/
def numberOf? (negative : Bool) (whole : List Char) (fraction : Option (List Char))
    (exponent : Option (Bool × List Char)) : Option Number :=
  let float := (Decimal.Parts.float? ⟨negative, whole, fraction.getD [], exponent⟩).map Number.real
  if fraction.isSome || exponent.isSome then float
  else
    let n := Decimal.ofDigits whole
    if negative then if 0 < n && Int64.minValue.toInt ≤ -n then some (.integer (-n)) else float
    else if n < UInt64.size then some (.integer n)
    else float

/-- Reads a number after its sign. A leading zero stands alone. -/
def unsigned? (negative : Bool) (cs : List Char) : Option (Number × List Char) :=
  let whole := cs.takeWhile Char.isDigit
  if whole.isEmpty || (whole.head? = some '0' && 1 < whole.length) then none
  else do
    let (fraction, rest) ← fraction? (cs.dropWhile Char.isDigit)
    let (exponent, rest) ← exponent? rest
    let n ← numberOf? negative whole fraction exponent
    some (n, rest)

/-- Reads the token at the front of a text that starts with `c`, which is not blank. -/
def read? (c : Char) (rest : List Char) : Option (Token × List Char) :=
  match c, rest with
  | '[', _ => some (leftBracket, rest)
  | ']', _ => some (rightBracket, rest)
  | '\x7b', _ => some (leftBrace, rest)
  | '\x7d', _ => some (rightBrace, rest)
  | ',', _ => some (comma, rest)
  | ':', _ => some (colon, rest)
  | '"', _ => (string? rest []).map fun (s, rest) => (string s, rest)
  | 'n', 'u' :: 'l' :: 'l' :: rest => some (null, rest)
  | 't', 'r' :: 'u' :: 'e' :: rest => some (bool true, rest)
  | 'f', 'a' :: 'l' :: 's' :: 'e' :: rest => some (bool false, rest)
  | '-', _ => (unsigned? true rest).map fun (n, rest) => (number n, rest)
  | _, _ => (unsigned? false (c :: rest)).map fun (n, rest) => (number n, rest)

/-- Reads up to `limit` blanks and tokens. The tokens read before come newest first. -/
def allWithin : Nat → List Char → List Token → Option (List Token)
  | _, [], seen => some seen.reverse
  | 0, _ :: _, _ => none
  | limit + 1, c :: rest, seen =>
    if isBlank c then allWithin limit rest seen
    else
      match read? c rest with
      | none => none
      | some (token, rest) => allWithin limit rest (token :: seen)

/-- Reads all tokens of a text. Each takes at least one character. -/
def all? (text : String) : Option (List Token) :=
  let cs := text.toList
  allWithin cs.length cs []

end Token

end Sluice.Json
