import Sluice.Filter.Scanner
import Sluice.Filter.Syntax
import Sluice.Decimal.Reading

/-!
# Reading a filter

The grammar, the loosest binding first:

* a filter is nothing, or stages separated by `|`;
* a stage is one or more expressions separated by `,`, several of which make an array;
* an expression is terms joined by operators;
* a term is a number, a text, a chain of selectors, or something in brackets, braces or
  parentheses;
* a chain starts with `.` and goes on with `.`, `.name` and brackets.

The reader is a machine that takes one token at a time. It keeps a stack of the constructs that are
open around the current place, what the innermost one holds so far, the operands that wait for
their right-hand side, and a mode that says what may come next. No token is read twice.
-/

namespace Sluice.Filter

/-- How many constructs may be open at one place. -/
def maxNesting : Nat := 128

namespace Parser

/-- The operator that a kind of token stands for between two terms. -/
def operator? : TokenKind → Option Operator
  | .plus => some .add
  | .minus => some .subtract
  | .star => some .multiply
  | .slash => some .divide
  | _ => none

/-- Gives a waiting operand its right-hand side. -/
def join : Option (Node × Operator) → Node → Node
  | none, right => right
  | some (left, operator), right => .binary left operator right

/-- The operands of an expression that wait for their right-hand side: at most one of addition or
subtraction, and inside it at most one of multiplication or division. -/
structure Pending where
  sum : Option (Node × Operator) := none
  product : Option (Node × Operator) := none

/-- The expression that ends with a term. -/
def Pending.finish (pending : Pending) (term : Node) : Node :=
  join pending.sum (join pending.product term)

/-- Goes on after a term with an operator. -/
def Pending.push (pending : Pending) (term : Node) (operator : Operator) : Pending :=
  if operator.isMultiplicative then
    ⟨pending.sum, some (join pending.product term, operator)⟩
  else ⟨some (pending.finish term, operator), none⟩

/-- What an open construct holds so far. -/
inductive Enclosure
  /-- The whole source: complete stages, and complete items of the current one. -/
  | source (stages items : List Node)
  /-- Parentheses: complete stages, and complete items of the current one. -/
  | parens (stages items : List Node)
  | array (items : List Node)
  /-- An object: complete entries, and the key of the current one. -/
  | object (entries : List (String × Node)) (key : String)

/-- What may come next. -/
inductive Mode
  /-- A term. -/
  | term
  /-- A term, or the end of an array. -/
  | item
  /-- What follows an opening bracket. -/
  | bracket
  /-- What follows an opening bracket and a number. -/
  | bracketNumber (token : Token)
  /-- The second bound of a range, or its end. -/
  | rangeStop (start : Option Int64)
  /-- The end of a range. -/
  | rangeEnd (bounds : Range)
  /-- The first key of an object, or its end. -/
  | objectStart
  | objectKey
  | objectColon (key : String)
  /-- What follows a dot in a chain with the given steps before it. -/
  | dot (steps : List Node)
  /-- What follows a complete step of a chain. -/
  | segment (steps : List Node)
  /-- What follows a complete term. -/
  | operand (term : Node)

/-- A construct that waits for an inner one to close. The inner one is a step of a chain with the
given steps before it, or a term. -/
structure Suspended where
  enclosure : Enclosure
  pending : Pending
  steps : Option (List Node)

end Parser

/-- A reader between two tokens. -/
structure Parser where
  suspended : List Parser.Suspended
  enclosure : Parser.Enclosure
  pending : Parser.Pending
  mode : Parser.Mode

namespace Parser

/-- The reader before the first token. -/
def initial : Parser := ⟨[], .source [] [], {}, .term⟩

/-- A stage: its expression, or the array of several. -/
def stageOf (items : List Node) (last : Node) : Node :=
  if items.isEmpty then last else .array (items ++ [last])

/-- What may come after an inner construct has closed. -/
def Suspended.resume (suspended : Suspended) (inner : Node) : Mode :=
  match suspended.steps with
  | none => .operand inner
  | some steps => .segment (steps ++ [inner])

/-- Opens an inner construct at a token. -/
def descend (parser : Parser) (steps : Option (List Node)) (enclosure : Enclosure) (mode : Mode)
    (token : Token) : Except SyntaxError Parser :=
  if maxNesting ≤ parser.suspended.length then .error (.tooDeep maxNesting token.position)
  else
    .ok ⟨⟨parser.enclosure, parser.pending, steps⟩ :: parser.suspended, enclosure, {}, mode⟩

/-- Closes the innermost construct, which has become a node. -/
def ascend (parser : Parser) (inner : Node) : Parser :=
  match parser.suspended with
  | [] => { parser with mode := .operand inner }
  | outer :: suspended => ⟨suspended, outer.enclosure, outer.pending, outer.resume inner⟩

/-- Goes on inside the same construct with a new expression. -/
def proceed (parser : Parser) (enclosure : Enclosure) (mode : Mode) : Parser :=
  ⟨parser.suspended, enclosure, {}, mode⟩

/-- A number token as a literal. -/
def literal (token : Token) : Except SyntaxError Node :=
  match Decimal.float? token.text.toList with
  | some x => .ok (.number x)
  | none => .error (.invalidNumber token.text token.position)

/-- A number token as a position. -/
def position (token : Token) : Except SyntaxError Int64 :=
  match Decimal.int64? token.text.toList with
  | some n => .ok n
  | none => .error (.invalidNumber token.text token.position)

/-- Takes the token after a complete expression. -/
def afterExpression (parser : Parser) (expression : Node) (token : Token) :
    Except SyntaxError Parser :=
  match parser.enclosure with
  | .source stages items =>
    match token.kind with
    | .comma => .ok (parser.proceed (.source stages (items ++ [expression])) .term)
    | .pipe => .ok (parser.proceed (.source (stages ++ [stageOf items expression]) []) .term)
    | _ => .error (.unexpected .endOfStage token)
  | .parens stages items =>
    match token.kind with
    | .comma => .ok (parser.proceed (.parens stages (items ++ [expression])) .term)
    | .pipe => .ok (parser.proceed (.parens (stages ++ [stageOf items expression]) []) .term)
    | .rightParen => .ok (parser.ascend (.ofStages (stages ++ [stageOf items expression])))
    | _ => .error (.unexpected .closingParen token)
  | .array items =>
    match token.kind with
    | .comma => .ok (parser.proceed (.array (items ++ [expression])) .item)
    | .rightBracket => .ok (parser.ascend (.array (items ++ [expression])))
    | _ => .error (.unexpected .commaOrBracket token)
  | .object entries key =>
    match token.kind with
    | .comma => .ok (parser.proceed (.object (entries ++ [(key, expression)]) "") .objectKey)
    | .rightBrace => .ok (parser.ascend (.object (entries ++ [(key, expression)])))
    | _ => .error (.unexpected .commaOrBrace token)

/-- Takes the token after a complete term. -/
def afterTerm (parser : Parser) (term : Node) (token : Token) : Except SyntaxError Parser :=
  match operator? token.kind with
  | some operator =>
    .ok { parser with pending := parser.pending.push term operator, mode := .term }
  | none => parser.afterExpression (parser.pending.finish term) token

/-- Takes the token after a complete step of a chain. -/
def afterSegment (parser : Parser) (steps : List Node) (token : Token) :
    Except SyntaxError Parser :=
  match token.kind with
  | .dot => .ok { parser with mode := .dot steps }
  | .leftBracket => parser.descend (some steps) (.array []) .bracket token
  | _ => parser.afterTerm (.ofSteps steps) token

/-- Takes the first token of a term. -/
def startTerm (parser : Parser) (token : Token) : Except SyntaxError Parser :=
  match token.kind with
  | .dot => .ok { parser with mode := .dot [] }
  | .number => (literal token).map fun node => { parser with mode := .operand node }
  | .quoted => .ok { parser with mode := .operand (.text token.text) }
  | .word =>
    let node := if token.text = "length" then Node.length else Node.text token.text
    .ok { parser with mode := .operand node }
  | .leftBracket => parser.descend none (.array []) .bracket token
  | .leftBrace => parser.descend none (.object [] "") .objectStart token
  | .leftParen => parser.descend none (.parens [] []) .term token
  | _ => .error (.unexpected .filter token)

/-- The items of an open array. -/
def Enclosure.items : Enclosure → List Node
  | array items => items
  | _ => []

/-- The entries of an open object. -/
def Enclosure.entries : Enclosure → List (String × Node)
  | object entries _ => entries
  | _ => []

/-- Takes one token other than the end of input. -/
def step (parser : Parser) (token : Token) : Except SyntaxError Parser :=
  match parser.mode with
  | .term => parser.startTerm token
  | .item =>
    match token.kind with
    | .rightBracket => .ok (parser.ascend (.array parser.enclosure.items))
    | _ => parser.startTerm token
  | .bracket =>
    match token.kind with
    | .rightBracket => .ok (parser.ascend .iterate)
    | .number => .ok { parser with mode := .bracketNumber token }
    | .colon => .ok { parser with mode := .rangeStop none }
    | _ => parser.startTerm token
  | .bracketNumber first =>
    match token.kind with
    | .rightBracket => (position first).map fun n => parser.ascend (.index n)
    | .colon => (position first).map fun n => { parser with mode := .rangeStop (some n) }
    | _ => (literal first).bind fun node => parser.afterTerm node token
  | .rangeStop start =>
    match token.kind with
    | .number => (position token).map fun n => { parser with mode := .rangeEnd ⟨start, some n⟩ }
    | .rightBracket => .ok (parser.ascend (.range ⟨start, none⟩))
    | _ => .error (.unexpected .closingRange token)
  | .rangeEnd bounds =>
    match token.kind with
    | .rightBracket => .ok (parser.ascend (.range bounds))
    | _ => .error (.unexpected .closingRange token)
  | .objectStart =>
    match token.kind with
    | .rightBrace => .ok (parser.ascend (.object []))
    | .word | .quoted => .ok { parser with mode := .objectColon token.text }
    | _ => .error (.unexpected .objectKey token)
  | .objectKey =>
    match token.kind with
    | .word | .quoted => .ok { parser with mode := .objectColon token.text }
    | _ => .error (.unexpected .objectKey token)
  | .objectColon key =>
    match token.kind with
    | .colon => .ok (parser.proceed (.object parser.enclosure.entries key) .term)
    | _ => .error (.unexpected .colonAfterKey token)
  | .dot steps =>
    match token.kind with
    | .word | .quoted => .ok { parser with mode := .segment (steps ++ [.key token.text]) }
    | .leftBracket => parser.descend (some steps) (.array []) .bracket token
    | _ => parser.afterSegment (steps ++ [.identity]) token
  | .segment steps => parser.afterSegment steps token
  | .operand term => parser.afterTerm term token

/-- What the end of input makes of the innermost construct: a last term of it, or nothing when an
array ends before a further item. -/
def lastTerm (mode : Mode) (token : Token) : Except SyntaxError (Option Node) :=
  match mode with
  | .term => .error (.unexpected .filter token)
  | .item | .bracket => .ok none
  | .bracketNumber first => (literal first).map some
  | .rangeStop _ | .rangeEnd _ => .error (.unexpected .closingRange token)
  | .objectStart | .objectKey => .error (.unexpected .objectKey token)
  | .objectColon _ => .error (.unexpected .colonAfterKey token)
  | .dot steps => .ok (some (.ofSteps (steps ++ [.identity])))
  | .segment steps => .ok (some (.ofSteps steps))
  | .operand term => .ok (some term)

/-- Takes the end of input. It closes open arrays, and nothing else may be open. -/
def finish : List Suspended → Enclosure → Pending → Mode → Token → Except SyntaxError Program
  | suspended, enclosure, pending, mode, token =>
    (lastTerm mode token).bind fun term =>
      let expressions := (term.map pending.finish).toList
      match enclosure with
      | .source stages items => .ok (stages ++ expressions.map (stageOf items))
      | .parens _ _ => .error (.unexpected .closingParen token)
      | .object _ _ => .error (.unexpected .commaOrBrace token)
      | .array items =>
        match suspended with
        | [] => .ok []
        | outer :: rest =>
          finish rest outer.enclosure outer.pending
            (outer.resume (.array (items ++ expressions))) token

/-- Takes all tokens. A list that stops without an end of input is read as if one followed. -/
def run (parser : Parser) : List Token → Except SyntaxError Program
  | [] =>
    finish parser.suspended parser.enclosure parser.pending parser.mode
      ⟨.endOfInput, .start, ""⟩
  | token :: rest =>
    if token.kind = .endOfInput then
      finish parser.suspended parser.enclosure parser.pending parser.mode token
    else (parser.step token).bind fun parser => parser.run rest

end Parser

/-- Reads the tokens of a filter. The end of input alone is the empty filter. -/
def parseTokens : List Token → Except SyntaxError Program
  | [] => .ok []
  | token :: rest =>
    if token.kind = .endOfInput then .ok [] else Parser.initial.run (token :: rest)

/-- Reads a filter source. -/
def parse (source : String) : Except SyntaxError Program :=
  (tokenize source).bind parseTokens

end Sluice.Filter
