import Sluice.Text.Quoted

/-!
# Tokens of the filter language

A token has a kind, the place where it starts, and a text. Punctuation and the end of the input
have an empty text, since the kind says how they are spelled; a quoted token's text leaves out its
quotes.
-/

namespace Sluice.Filter

/-- A place in a source: line and column count from 1, the offset counts bytes from 0. -/
structure Position where
  line : Nat
  column : Nat
  offset : Nat
  deriving DecidableEq, Inhabited

namespace Position

/-- The place of the first character. -/
def start : Position := ⟨1, 1, 0⟩

/-- The place after a character. -/
def advance (position : Position) (c : Char) : Position :=
  if c = '\n' then ⟨position.line + 1, 1, position.offset + c.utf8Size⟩
  else ⟨position.line, position.column + 1, position.offset + c.utf8Size⟩

/-- The place after several characters. -/
def advanceAll (position : Position) (cs : List Char) : Position := cs.foldl advance position

/-- Line and column, as messages show a place. -/
def render (position : Position) : String :=
  toString position.line ++ ":" ++ toString position.column

/-- No character moves the position. -/
@[simp] theorem advanceAll_nil (position : Position) : position.advanceAll [] = position := rfl

/-- The position moves over one character after the other. -/
@[simp] theorem advanceAll_cons (position : Position) (c : Char) (cs : List Char) :
    position.advanceAll (c :: cs) = (position.advance c).advanceAll cs := rfl

end Position

/-- What a token is. -/
inductive TokenKind
  /-- A character that no token starts with. -/
  | illegal
  | endOfInput
  /-- A bareword. -/
  | word
  /-- Text between double quotes. -/
  | quoted
  | number
  | dot
  | comma
  | colon
  | pipe
  | leftBracket
  | rightBracket
  | leftBrace
  | rightBrace
  | leftParen
  | rightParen
  | plus
  | minus
  | star
  | slash
  deriving DecidableEq, Inhabited

/-- The name of a kind of token in messages. -/
def TokenKind.name : TokenKind → String
  | illegal => "illegal character"
  | endOfInput => "end of input"
  | word => "text"
  | quoted => "quoted text"
  | number => "number"
  | dot => "`.`"
  | comma => "`,`"
  | colon => "`:`"
  | pipe => "`|`"
  | leftBracket => "`[`"
  | rightBracket => "`]`"
  | leftBrace => "`\x7b`"
  | rightBrace => "`\x7d`"
  | leftParen => "`(`"
  | rightParen => "`)`"
  | plus => "`+`"
  | minus => "`-`"
  | star => "`*`"
  | slash => "`/`"

/-- A token, with the position it is reported at and its text. -/
structure Token where
  kind : TokenKind
  position : Position
  text : String
  deriving DecidableEq, Inhabited

/-- How a message names a token: its kind, and its text if it has one of its own. -/
def Token.describe (token : Token) : String :=
  match token.kind with
  | .word | .quoted | .number | .illegal => token.kind.name ++ " " ++ Text.quote token.text
  | _ => token.kind.name

end Sluice.Filter
