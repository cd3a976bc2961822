import Sluice.Filter.SyntaxError
import Sluice.Text.Alphanumeric

/-!
# Scanning a filter source

A scanner is the text not yet read and the place where it starts. `Scanner.next` skips blanks and
reads one token by the longest run of its class. A newline belongs to the characters of a bareword
and is trimmed from both ends of it; a run of newlines alone is blank.
-/

namespace Sluice.Filter

/-- The characters of barewords. -/
def isWordChar (c : Char) : Bool :=
  Text.isAlphanumeric c || c == '_' || c == '-' || c == '\n'

/-- The characters a number goes on with. Whether it is well formed is decided later. -/
def isNumberChar (c : Char) : Bool := c.isDigit || c == '.'

/-- The kind of a token that is a single character. -/
def punctuation? : Char → Option TokenKind
  | '|' => some .pipe
  | '[' => some .leftBracket
  | ']' => some .rightBracket
  | '(' => some .leftParen
  | ')' => some .rightParen
  | '\x7b' => some .leftBrace
  | '\x7d' => some .rightBrace
  | ':' => some .colon
  | ',' => some .comma
  | '+' => some .plus
  | '*' => some .star
  | '/' => some .slash
  | '.' => some .dot
  | '-' => some .minus
  | _ => none

/-- A token cut from the front of a text: the characters it was cut from and the text after. -/
structure Lexeme where
  kind : TokenKind
  text : List Char
  spelling : List Char
  rest : List Char

namespace Lexeme

/-- A first character and the digits and dots after it. -/
def number (c : Char) (rest : List Char) : Lexeme :=
  let spelling := c :: rest.takeWhile isNumberChar
  ⟨.number, spelling, spelling, rest.dropWhile isNumberChar⟩

/-- The text after an opening quote, up to the next quote or the end. There are no escapes. -/
def quoted (rest : List Char) : Lexeme :=
  let body := rest.takeWhile (· != '"')
  match rest.dropWhile (· != '"') with
  | [] => ⟨.quoted, body, '"' :: body, []⟩
  | close :: rest => ⟨.quoted, body, '"' :: body ++ [close], rest⟩

/-- A text without the newlines at its ends. -/
def trimNewlines (cs : List Char) : List Char :=
  ((cs.dropWhile (· == '\n')).reverse.dropWhile (· == '\n')).reverse

/-- The longest bareword. -/
def word (cs : List Char) : Lexeme :=
  let run := cs.takeWhile isWordChar
  ⟨.word, trimNewlines run, run, cs.dropWhile isWordChar⟩

/-- Whether a character starts a number: a digit, or a dot or minus before a digit. -/
def startsNumber (c : Char) (rest : List Char) : Bool :=
  c.isDigit || ((c == '.' || c == '-') && rest.head?.any Char.isDigit)

/-- The token at the front of a text that starts with `c`, which is not blank. -/
def read (c : Char) (rest : List Char) : Lexeme :=
  if startsNumber c rest then number c rest
  else
    match punctuation? c with
    | some kind => ⟨kind, [], [c], rest⟩
    | none =>
      if c == '"' then quoted rest
      else if isWordChar c then word (c :: rest)
      else ⟨.illegal, [c], [c], rest⟩

end Lexeme

/-- The text that is still to be read, and where it starts. -/
structure Scanner where
  rest : List Char
  position : Position

namespace Scanner

/-- A scanner at the start of a source text. -/
def ofText (source : String) : Scanner := ⟨source.toList, .start⟩

/-- Whether a character is blank, given the text after it. -/
def isBlank (c : Char) (rest : List Char) : Bool :=
  c == ' ' || c == '\r' || (c == '\n' && (rest.takeWhile isWordChar).all (· == '\n'))

/-- Skips blanks. -/
def skipBlanks : List Char → Position → Scanner
  | [], position => ⟨[], position⟩
  | c :: rest, position =>
    if isBlank c rest then skipBlanks rest (position.advance c) else ⟨c :: rest, position⟩

/-- Reads one token. At the end of the text that is the end of input, again and again. -/
def next (scanner : Scanner) : Token × Scanner :=
  let start := skipBlanks scanner.rest scanner.position
  match start.rest with
  | [] => (⟨.endOfInput, start.position, ""⟩, start)
  | c :: rest =>
    let lexeme := Lexeme.read c rest
    (⟨lexeme.kind, start.position, String.ofList lexeme.text⟩,
      ⟨lexeme.rest, start.position.advanceAll lexeme.spelling⟩)

/-- Reads up to `limit` tokens before the end of input, and the end of input. -/
def tokensWithin : Nat → Scanner → List Token
  | 0, scanner => [scanner.next.1]
  | limit + 1, scanner =>
    let (token, rest) := scanner.next
    if token.kind = .endOfInput then [token] else token :: tokensWithin limit rest

/-- All tokens up to and including the end of input. Each takes at least one character, so their
number is bounded by the length of the text. -/
def tokens (scanner : Scanner) : List Token := scanner.tokensWithin scanner.rest.length

end Scanner

/-- The tokens of a source, the end of input last, or the first illegal character. -/
def tokenize (source : String) : Except SyntaxError (List Token) :=
  let tokens := (Scanner.ofText source).tokens
  match tokens.find? (·.kind == .illegal) with
  | some token => .error (.illegalCharacter (token.text.toList.headD '\x00') token.position)
  | none => .ok tokens

end Sluice.Filter
