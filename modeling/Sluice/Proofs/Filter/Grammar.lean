import Mathlib.Tactic.Common
import Sluice.Filter.Parser

/-!
# The grammar of filters

A kind of phrase is a relation between the tokens that stand before a phrase and the tokens that
are left after it. The grammar is ambiguous about nothing but the contents of brackets: a bracket
that holds one number and is closed is always an index, and only the items of an array may be cut
short by the end of the input.

The grammar knows nothing about the reader. How deep constructs may nest is a condition of its own
on the tokens (`Shallow`).
-/

namespace Sluice.Filter.Grammar

/-- A kind of phrase: the tokens from where it starts, and the tokens after it. -/
abbrev Phrase := List Token → List Token → Prop

/-- Whether a number text can stand for a number: it has at most one point. -/
def IsLiteral (text : String) : Prop := text.toList.count '.' ≤ 1

/-- Whether a number text can stand for a position: an optional minus sign and digits, for a whole
number of 64 signed bits. -/
def IsPosition (text : String) : Prop :=
  ∃ digits : List Char, digits ≠ [] ∧ (∀ c ∈ digits, c.isDigit = true) ∧
    ((text.toList = digits ∧ (Decimal.ofDigits digits : Int) ≤ Int64.maxValue.toInt) ∨
      (text.toList = '-' :: digits ∧ Int64.minValue.toInt ≤ -(Decimal.ofDigits digits : Int)))

/-- The kinds of tokens that join two terms. -/
def IsOperator (kind : TokenKind) : Prop :=
  kind = .plus ∨ kind = .minus ∨ kind = .star ∨ kind = .slash

/-- The kinds of tokens that can be a name. -/
def IsName (kind : TokenKind) : Prop := kind = .word ∨ kind = .quoted

/-- Any number of phrases of one kind, one after another. -/
inductive Many (phrase : Phrase) : Phrase
  | done (ts : List Token) : Many phrase ts ts
  | more {ts ms rs : List Token} : phrase ts ms → Many phrase ms rs → Many phrase ts rs

/-- A token of a given kind, and a phrase after it. -/
inductive After (kind : TokenKind) (phrase : Phrase) : Phrase
  | mk {t : Token} {ts rs : List Token} :
      t.kind = kind → phrase ts rs → After kind phrase (t :: ts) rs

/-- A bound of a range, which may be left out. -/
inductive Bound : Phrase
  | absent (ts : List Token) : Bound ts ts
  | present {t : Token} {ts : List Token} :
      t.kind = .number → IsPosition t.text → Bound (t :: ts) ts

/-- A comma that may be left out. -/
inductive OptionalComma : Phrase
  | absent (ts : List Token) : OptionalComma ts ts
  | present {t : Token} {ts : List Token} : t.kind = .comma → OptionalComma (t :: ts) ts

/-- What ends the items of an array: a closing bracket, or the end of the input. -/
inductive ItemsEnd : Phrase
  | closed {t : Token} {ts : List Token} : t.kind = .rightBracket → ItemsEnd (t :: ts) ts
  | input : ItemsEnd [] []

/-- Whether a bracket holds one number and is closed. -/
def IsIndex : List Token → Prop
  | number :: close :: _ => number.kind = .number ∧ close.kind = .rightBracket
  | _ => False

mutual

/-- One operand of an expression. -/
inductive Term : List Token → List Token → Prop
  | number {t : Token} {ts : List Token} : t.kind = .number → IsLiteral t.text → Term (t :: ts) ts
  | name {t : Token} {ts : List Token} : IsName t.kind → Term (t :: ts) ts
  | chain {t : Token} {ts ms rs : List Token} :
      t.kind = .dot → Segment (t :: ts) ms → Many Segment ms rs → Term (t :: ts) rs
  | bracket {t : Token} {ts rs : List Token} :
      t.kind = .leftBracket → Bracket ts rs → Term (t :: ts) rs
  | object {t : Token} {ts rs : List Token} :
      t.kind = .leftBrace → Object ts rs → Term (t :: ts) rs
  | parens {t close : Token} {ts rs : List Token} :
      t.kind = .leftParen → Pipeline ts (close :: rs) → close.kind = .rightParen →
      Term (t :: ts) rs

/-- One segment of a chain. -/
inductive Segment : List Token → List Token → Prop
  | dot {t : Token} {ts : List Token} : t.kind = .dot → Segment (t :: ts) ts
  | key {t name : Token} {ts : List Token} :
      t.kind = .dot → IsName name.kind → Segment (t :: name :: ts) ts
  | bracket {t : Token} {ts rs : List Token} :
      t.kind = .leftBracket → Bracket ts rs → Segment (t :: ts) rs

/-- Terms joined by operators. -/
inductive Binary : List Token → List Token → Prop
  | mk {ts ms rs : List Token} : Term ts ms → Many Operation ms rs → Binary ts rs

/-- An operator, and the term to the right of it. -/
inductive Operation : List Token → List Token → Prop
  | mk {t : Token} {ts rs : List Token} : IsOperator t.kind → Term ts rs → Operation (t :: ts) rs

/-- Expressions separated by commas. -/
inductive Commas : List Token → List Token → Prop
  | mk {ts ms rs : List Token} : Binary ts ms → Many (After .comma Binary) ms rs → Commas ts rs

/-- Stages separated by pipes. -/
inductive Pipeline : List Token → List Token → Prop
  | mk {ts ms rs : List Token} : Commas ts ms → Many (After .pipe Commas) ms rs → Pipeline ts rs

/-- What follows an opening bracket. -/
inductive Bracket : List Token → List Token → Prop
  | iterate {close : Token} {ts : List Token} :
      close.kind = .rightBracket → Bracket (close :: ts) ts
  | index {number close : Token} {ts : List Token} :
      number.kind = .number → IsPosition number.text → close.kind = .rightBracket →
      Bracket (number :: close :: ts) ts
  | range {colon close : Token} {ts ms rs : List Token} :
      Bound ts (colon :: ms) → colon.kind = .colon → Bound ms (close :: rs) →
      close.kind = .rightBracket → Bracket ts rs
  | items {ts rs : List Token} : ¬ IsIndex ts → Items ts rs → Bracket ts rs

/-- The items of an array up to their end. -/
inductive Items : List Token → List Token → Prop
  | none {ts rs : List Token} : ItemsEnd ts rs → Items ts rs
  | some {ts ms ns os rs : List Token} :
      Binary ts ms → Many (After .comma Binary) ms ns → OptionalComma ns os → ItemsEnd os rs →
      Items ts rs

/-- What follows an opening brace. -/
inductive Object : List Token → List Token → Prop
  | empty {close : Token} {ts : List Token} : close.kind = .rightBrace → Object (close :: ts) ts
  | pairs {close : Token} {ts ms rs : List Token} :
      Pair ts ms → Many (After .comma Pair) ms (close :: rs) → close.kind = .rightBrace →
      Object ts rs

/-- A key and the expression under it. -/
inductive Pair : List Token → List Token → Prop
  | mk {key colon : Token} {ts rs : List Token} :
      IsName key.kind → colon.kind = .colon → Binary ts rs → Pair (key :: colon :: ts) rs

end

/-- The kinds of tokens that open a construct. -/
def isOpener : TokenKind → Bool
  | .leftBracket | .leftBrace | .leftParen => true
  | _ => false

/-- The kinds of tokens that close a construct. -/
def isCloser : TokenKind → Bool
  | .rightBracket | .rightBrace | .rightParen => true
  | _ => false

/-- Whether at most `maxNesting` constructs are open at any place, `depth` of them from the
start. -/
def Shallow (depth : Nat) (tokens : List Token) : Prop :=
  ∀ before, before <+: tokens →
    depth + before.countP (isOpener ·.kind) ≤ maxNesting + before.countP (isCloser ·.kind)

/-- Whether tokens, without the end of the input, make up a whole filter. -/
def Sentence (tokens : List Token) : Prop :=
  (tokens = [] ∨ Pipeline tokens []) ∧ Shallow 0 tokens

end Sluice.Filter.Grammar
