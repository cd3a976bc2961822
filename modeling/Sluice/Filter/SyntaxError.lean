import Sluice.Filter.Token

/-!
# Why a source is not a filter

The four ways in which reading a filter fails, each with the place it points at, and the message
for each.
-/

namespace Sluice.Filter

/-- What the reader needed at the place where it found something else. -/
inductive Expectation
  | filter
  | endOfStage
  | closingParen
  | commaOrBracket
  | commaOrBrace
  | objectKey
  | colonAfterKey
  | closingRange
  deriving DecidableEq

/-- What was expected, in words. -/
def Expectation.text : Expectation → String
  | filter => "a filter"
  | endOfStage => "`|`, `,` or end of input"
  | closingParen => "`)`"
  | commaOrBracket => "`,` or `]`"
  | commaOrBrace => "`,` or `\x7d`"
  | objectKey => "an object key"
  | colonAfterKey => "`:` after object key"
  | closingRange => "`]` to close the range"

/-- Why a source text is no filter. -/
inductive SyntaxError
  /-- A character that no token starts with. -/
  | illegalCharacter (character : Char) (position : Position)
  /-- A token that does not fit where it stands. -/
  | unexpected (expected : Expectation) (found : Token)
  /-- An opening token inside as many unclosed ones as are allowed. -/
  | tooDeep (limit : Nat) (position : Position)
  /-- A number that is malformed or does not fit where it stands. -/
  | invalidNumber (text : String) (position : Position)
  deriving DecidableEq

namespace SyntaxError

/-- The place an error points at. -/
def position : SyntaxError → Position
  | illegalCharacter _ position => position
  | unexpected _ found => found.position
  | tooDeep _ position => position
  | invalidNumber _ position => position

/-- The message of a syntax error, with the position it is at. -/
def message : SyntaxError → String
  | illegalCharacter character position =>
    "illegal character " ++ Text.quoteChar character ++ " at " ++ position.render
  | unexpected expected found =>
    "expected " ++ expected.text ++ ", found " ++ found.describe ++ " at " ++ found.position.render
  | tooDeep limit position =>
    "filter nests deeper than " ++ toString limit ++ " levels at " ++ position.render
  | invalidNumber text position =>
    "invalid number " ++ Text.quote text ++ " at " ++ position.render

end SyntaxError

end Sluice.Filter
