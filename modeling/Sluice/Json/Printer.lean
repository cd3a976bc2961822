import Sluice.Json.Basic
import Sluice.Decimal.Notation

/-!
# Writing JSON

The compact form has no blanks. The pretty form gives every item and entry a line of its own,
indented by two spaces for each array or object around it; empty ones stay on one line.
-/

namespace Sluice.Json

/-- The escape of a character inside a string, or the character itself. -/
def escape (c : Char) : List Char :=
  if c = '"' then ['\\', '"']
  else if c = '\\' then ['\\', '\\']
  else if c = '\x08' then ['\\', 'b']
  else if c = '\t' then ['\\', 't']
  else if c = '\n' then ['\\', 'n']
  else if c = '\x0c' then ['\\', 'f']
  else if c = '\r' then ['\\', 'r']
  else if c.toNat < 0x20 then
    ['\\', 'u', '0', '0', Nat.digitChar (c.toNat / 16), Nat.digitChar (c.toNat % 16)]
  else [c]

/-- A string between quotes. -/
def quoteString (s : String) : String :=
  String.ofList ('"' :: s.toList.flatMap escape ++ ['"'])

/-- The text of a number, in full for an integer and with the fewest digits for a float. -/
def Number.render : Number → String
  | integer n => toString n
  | real x => String.ofList (Decimal.jsonNotation.write x)

mutual

/-- The compact form. -/
def compact : Json → String
  | null => "null"
  | bool b => toString b
  | number n => n.render
  | string s => quoteString s
  | array items => "[" ++ ",".intercalate (compactItems items) ++ "]"
  | object entries => "\x7b" ++ ",".intercalate (compactEntries entries) ++ "\x7d"
termination_by structural document => document

/-- The compact forms of items. -/
def compactItems : List Json → List String
  | [] => []
  | item :: rest => compact item :: compactItems rest
termination_by structural items => items

/-- The compact forms of entries. -/
def compactEntries : List (String × Json) → List String
  | [] => []
  | (key, value) :: rest => (quoteString key ++ ":" ++ compact value) :: compactEntries rest
termination_by structural entries => entries

end

/-- A new line with the indentation of a depth. -/
def newline (depth : Nat) : String := "\n" ++ "".pushn ' ' (2 * depth)

/-- Lines between an opening and a closing text, or just these if there are none. -/
def block (opening closing : String) (depth : Nat) (lines : List String) : String :=
  if lines.isEmpty then opening ++ closing
  else
    opening ++ newline (depth + 1) ++ ("," ++ newline (depth + 1)).intercalate lines ++
      newline depth ++ closing

mutual

/-- The pretty form, inside so many arrays and objects. -/
def prettyAt : Json → (depth : Nat) → String
  | null, _ => "null"
  | bool b, _ => toString b
  | number n, _ => n.render
  | string s, _ => quoteString s
  | array items, depth => block "[" "]" depth (prettyItems items (depth + 1))
  | object entries, depth => block "\x7b" "\x7d" depth (prettyEntries entries (depth + 1))
termination_by structural document => document

/-- The pretty forms of items. -/
def prettyItems : List Json → (depth : Nat) → List String
  | [], _ => []
  | item :: rest, depth => prettyAt item depth :: prettyItems rest depth
termination_by structural items => items

/-- The pretty forms of entries. -/
def prettyEntries : List (String × Json) → (depth : Nat) → List String
  | [], _ => []
  | (key, value) :: rest, depth =>
    (quoteString key ++ ": " ++ prettyAt value depth) :: prettyEntries rest depth
termination_by structural entries => entries

end

/-- The pretty form. -/
def pretty (document : Json) : String := prettyAt document 0

end Sluice.Json
