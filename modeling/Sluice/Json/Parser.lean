import Sluice.Json.Token

/-!
# Reading JSON

The reader takes one token at a time and keeps a stack of the arrays and objects that are open. It
refuses a text that is not one document, or one that nests too deep. Of two entries of an object
with one key the later counts.
-/

namespace Sluice.Json

/-- How many arrays and objects may be open at one place. -/
def maxNesting : Nat := 127

namespace Builder

/-- An open array or object, with what it holds so far. -/
inductive Frame
  | array (items : Array Json)
  | object (entries : Array (String × Json)) (key : String)

/-- What may come next. -/
inductive Mode
  | value
  /-- The first item of an array, or its end. -/
  | firstItem
  /-- The first key of an object, or its end. -/
  | firstKey
  | key
  | colon
  /-- What follows a complete value. -/
  | after (value : Json)

end Builder

/-- A reader between two tokens. -/
structure Builder where
  stack : List Builder.Frame := []
  mode : Builder.Mode := .value

namespace Builder

/-- Opens an array or an object. -/
def descend (builder : Builder) (frame : Frame) (mode : Mode) : Option Builder :=
  if maxNesting ≤ builder.stack.length then none else some ⟨frame :: builder.stack, mode⟩

/-- Takes the first token of a value. -/
def startValue (builder : Builder) : Token → Option Builder
  | .null => some { builder with mode := .after .null }
  | .bool b => some { builder with mode := .after (.bool b) }
  | .number n => some { builder with mode := .after (.number n) }
  | .string s => some { builder with mode := .after (.string s) }
  | .leftBracket => builder.descend (.array #[]) .firstItem
  | .leftBrace => builder.descend (.object #[] "") .firstKey
  | _ => none

/-- Takes a key of an object. -/
def startEntry (builder : Builder) (token : Token) : Option Builder :=
  match token, builder.stack with
  | .string key, .object entries _ :: stack => some ⟨.object entries key :: stack, .colon⟩
  | _, _ => none

/-- Closes the innermost array or object. -/
def ascend (builder : Builder) (value : Json) : Builder :=
  ⟨builder.stack.tail, .after value⟩

/-- Takes the token after a complete value. -/
def afterValue (builder : Builder) (value : Json) (token : Token) : Option Builder :=
  match builder.stack, token with
  | .array items :: stack, .comma => some ⟨.array (items.push value) :: stack, .value⟩
  | .array items :: _, .rightBracket =>
    some (builder.ascend (.array (items.push value).toList))
  | .object entries key :: stack, .comma =>
    some ⟨.object (entries.push (key, value)) "" :: stack, .key⟩
  | .object entries key :: _, .rightBrace =>
    some (builder.ascend (.object (Keyed.ofList (entries.push (key, value)).toList)))
  | _, _ => none

/-- Takes one token. -/
def step (builder : Builder) (token : Token) : Option Builder :=
  match builder.mode, token with
  | .value, _ => builder.startValue token
  | .firstItem, .rightBracket => some (builder.ascend (.array []))
  | .firstItem, _ => builder.startValue token
  | .firstKey, .rightBrace => some (builder.ascend (.object []))
  | .firstKey, _ => builder.startEntry token
  | .key, _ => builder.startEntry token
  | .colon, .colon => some { builder with mode := .value }
  | .colon, _ => none
  | .after value, _ => builder.afterValue value token

/-- The document that was read, once nothing is open. -/
def finish (builder : Builder) : Option Json :=
  match builder.stack, builder.mode with
  | [], .after value => some value
  | _, _ => none

/-- Takes all tokens. -/
def run (builder : Builder) : List Token → Option Json
  | [] => builder.finish
  | token :: rest => (builder.step token).bind fun builder => builder.run rest

end Builder

/-- Reads a JSON text. -/
def parse? (text : String) : Option Json :=
  (Token.all? text).bind fun tokens => Builder.run {} tokens

end Sluice.Json
