import Sluice.Decimal.Reading
import Sluice.Json.Printer
import Sluice.Store.Link

/-!
# Values and JSON

Every JSON document is a value: whole numbers that fit 64 signed bits are integers, all other
numbers floats. In the other direction a resolved link stands for its target, bytes are numbers,
and handles of any other kind have no JSON form. A link whose target leads back to it has no
answer at all.
-/

namespace Sluice.Value

/-- The number of a document as a value. -/
def ofNumber : Json.Number → Value
  | .integer n =>
    match Decimal.fitInt64? n with
    | some n => int n
    | none => float (Float.ofInt n)
  | .real x => float x

mutual

/-- A JSON document as a value. -/
def ofJson : Json → Value
  | .null => null
  | .bool b => bool b
  | .number n => ofNumber n
  | .string s => text s
  | .array items => sequence (ofJsonItems items)
  | .object entries => mapping (ofJsonEntries entries)
termination_by structural document => document

/-- The items of an array as values. -/
def ofJsonItems : List Json → List Value
  | [] => []
  | item :: rest => ofJson item :: ofJsonItems rest
termination_by structural items => items

/-- The entries of an object as values. -/
def ofJsonEntries : List (String × Json) → List (String × Value)
  | [] => []
  | (key, item) :: rest => (key, ofJson item) :: ofJsonEntries rest
termination_by structural entries => entries

end

/-- A conversion that may fail, and may have no answer. -/
abbrev Conversion := ExceptT ValueError Option

/-- The document of a byte. -/
def byteToJson (b : UInt8) : Json := .number (.integer b.toNat)

/-- The document of a float, which has to be finite. -/
def floatToJson (x : Float) : Conversion Json :=
  if x.isFinite then pure (.number (.real x))
  else throw (.notRepresentable .nonFiniteFloat)

mutual

/-- The document of a value, given what links stand for. -/
def toJsonWith (ofLink : Handle .link → Conversion Json) : Value → Conversion Json
  | null => pure .null
  | bool b => pure (.bool b)
  | int n => pure (.number (.integer n.toInt))
  | float x => floatToJson x
  | byte b => pure (byteToJson b)
  | bytes content => pure (.array (content.map byteToJson))
  | text s => pure (.string s)
  | sequence items => do
    let items ← toJsonItems ofLink items
    pure (.array items)
  | mapping entries => do
    let entries ← toJsonEntries ofLink entries
    pure (.object entries)
  | dict entries => do
    let entries ← toJsonDict ofLink entries
    pure (.object (Keyed.ofList entries))
  | link handle => ofLink handle
  | map _ => throw (.notRepresentable (.kind .map))
  | array _ => throw (.notRepresentable (.kind .array))
  | iterator _ => throw (.notRepresentable (.kind .iterator))
  | byteStream _ => throw (.notRepresentable (.kind .byteStream))
  | stream _ => throw (.notRepresentable (.kind .stream))
termination_by structural value => value

/-- The documents of items, up to the first failure. -/
def toJsonItems (ofLink : Handle .link → Conversion Json) : List Value → Conversion (List Json)
  | [] => pure []
  | item :: rest => do
    let item ← toJsonWith ofLink item
    let rest ← toJsonItems ofLink rest
    pure (item :: rest)
termination_by structural items => items

/-- The documents of the entries of a mapping, up to the first failure. -/
def toJsonEntries (ofLink : Handle .link → Conversion Json) :
    List (String × Value) → Conversion (List (String × Json))
  | [] => pure []
  | (key, value) :: rest => do
    let value ← toJsonWith ofLink value
    let rest ← toJsonEntries ofLink rest
    pure ((key, value) :: rest)
termination_by structural entries => entries

/-- The documents of the entries of a dict, up to the first failure or key that is no text. -/
def toJsonDict (ofLink : Handle .link → Conversion Json) :
    List (Value × Value) → Conversion (List (String × Json))
  | [] => pure []
  | (text key, value) :: rest => do
    let value ← toJsonWith ofLink value
    let rest ← toJsonDict ofLink rest
    pure ((key, value) :: rest)
  | (key, _) :: _ => throw (.nonTextKey key.kind)
termination_by structural entries => entries

end

/-- The document of a value, inside at most `depth` links. -/
def toJsonWithin (store : Store) : (depth : Nat) → Value → Conversion Json
  | 0 => toJsonWith fun _ => ExceptT.mk none
  | depth + 1 => toJsonWith fun link =>
    match store.linkTarget? link with
    | some target => toJsonWithin store depth target
    | none => throw (.notRepresentable .unresolvedLink)

/-- The document of a value. Inside more links than there are, one of them lies inside itself, and
then there is no answer. -/
def toJson (store : Store) (value : Value) : Conversion Json :=
  toJsonWithin store (store.links.size + 1) value

/-- A value as it is shown: its compact JSON, or the name of its kind if it has none. -/
def display (store : Store) (value : Value) : Option String :=
  (value.toJson store).run.map fun
    | .ok document => document.compact
    | .error _ => "<" ++ value.typeName ++ ">"

end Sluice.Value
