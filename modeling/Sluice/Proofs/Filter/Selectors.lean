import Sluice.Proofs.Decimal.Integers
import Sluice.Proofs.Filter.Places

/-!
# Positions in selectors

A number in a bracket is kept as a text until the reader sees what the bracket is. In an index or a
range it is read as a whole number of 64 signed bits then, whatever the scanner has made of it, and
if it is none the error names the text and its place.
-/

namespace Sluice.Filter

open Decimal

/-- Whether a text is a numeral: a minus sign or none, a digit, and then digits and points. -/
def IsNumeral (text : String) : Prop :=
  ∃ first rest, (text.toList = first :: rest ∨ text.toList = '-' :: first :: rest) ∧
    first.isDigit = true ∧ ∀ c ∈ rest, c.isDigit = true ∨ c = '.'

/-- The decimal form of a position is a numeral. -/
theorem isNumeral_of_isDecimal {text : String} {n : Int64} (h : IsDecimal text n) :
    IsNumeral text := by
  obtain ⟨digits, hne, hdigits, hform⟩ := h
  obtain ⟨first, rest, rfl⟩ := List.exists_cons_of_ne_nil hne
  obtain ⟨hfirst, hrest⟩ := List.forall_mem_cons.mp hdigits
  exact ⟨first, rest, hform.imp And.left And.left, hfirst, fun c hc => Or.inl (hrest c hc)⟩

namespace Scanner

/-- The tokens of a text do not depend on how many may be read, if that is not too few. -/
theorem tokensWithin_eq_tokensWithin {limit bound : Nat} {scanner : Scanner}
    (hlimit : scanner.rest.length ≤ limit) (hbound : scanner.rest.length ≤ bound) :
    scanner.tokensWithin limit = scanner.tokensWithin bound := by
  induction limit generalizing bound scanner with
  | zero =>
    rcases next_cases scanner with hend | ⟨_, hless, _⟩
    · cases bound <;> simp [tokensWithin, hend]
    · omega
  | succ limit ih =>
    rcases next_cases scanner with hend | ⟨hkind, hless, _⟩
    · cases bound <;> simp [tokensWithin, hend]
    · obtain ⟨bound, rfl⟩ : ∃ n, bound = n + 1 := ⟨bound - 1, by omega⟩
      have hmore := ih (by omega : scanner.next.2.rest.length ≤ limit) (by omega : _ ≤ bound)
      simp [tokensWithin, hkind, hmore]

/-- The token in front, and the tokens of what is left. -/
theorem tokens_of_next {scanner left : Scanner} {token : Token} (h : scanner.next = (token, left))
    (hkind : token.kind ≠ .endOfInput) : scanner.tokens = token :: left.tokens := by
  have hless : left.rest.length < scanner.rest.length := by
    rcases next_cases scanner with hend | ⟨_, hless, _⟩
    · rw [h] at hend
      exact absurd hend hkind
    · rw [h] at hless
      exact hless
  have hmore : left.tokensWithin (scanner.rest.length - 1) = left.tokens :=
    tokensWithin_eq_tokensWithin (by omega) (Nat.le_refl _)
  obtain ⟨limit, hlimit⟩ : ∃ n, scanner.rest.length = n + 1 := ⟨scanner.rest.length - 1, by omega⟩
  rw [hlimit, Nat.add_sub_cancel] at hmore
  rw [tokens, hlimit]
  simp [tokensWithin, h, hkind, hmore]

variable {c : Char} {after : List Char}

/-- The token that is read at a place, and the tokens behind it. -/
theorem tokens_of_read {kind : TokenKind} {rest text spelling : List Char}
    (hblank : isBlank c rest = false) (hread : Lexeme.read c rest = ⟨kind, text, spelling, after⟩)
    (before : List Char) :
    (Scanner.mk (c :: rest) (.after before)).tokens =
      ⟨kind, .after before, String.ofList text⟩ ::
        (Scanner.mk after (.after (before ++ spelling))).tokens := by
  have hkind := Lexeme.kind_read_ne c rest
  rw [hread] at hkind
  refine tokens_of_next ?_ hkind
  simp [next, skipBlanks, hblank, hread, Position.advanceAll_after]

/-- Punctuation is one token, and the text behind it the others. -/
theorem tokens_punctuation {kind : TokenKind} (hkind : punctuation? c = some kind)
    (hstarts : Lexeme.startsNumber c after = false) (before : List Char) :
    (Scanner.mk (c :: after) (.after before)).tokens =
      ⟨kind, .after before, ""⟩ :: (Scanner.mk after (.after (before ++ [c]))).tokens := by
  have hne (d : Char) (hd : punctuation? d = none) : c ≠ d := by
    rintro rfl
    rw [hkind] at hd
    cases hd
  have hblank : isBlank c after = false := by
    simp [isBlank, hne ' ' rfl, hne '\r' rfl, hne '\n' rfl]
  have hread : Lexeme.read c after = ⟨kind, [], [c], after⟩ := by
    simp [Lexeme.read, hstarts, hkind]
  exact tokens_of_read hblank hread before

/-- A numeral is one token, if no digit or point follows it. -/
theorem tokens_numeral {text : String} (h : IsNumeral text) (hc : isNumberChar c = false)
    (before : List Char) :
    (Scanner.mk (text.toList ++ c :: after) (.after before)).tokens =
      ⟨.number, .after before, text⟩ ::
        (Scanner.mk (c :: after) (.after (before ++ text.toList))).tokens := by
  obtain ⟨first, rest, hform, hfirst, hrest⟩ := h
  have hdigit : isNumberChar first = true := by simp [isNumberChar, hfirst]
  have hall : ∀ d ∈ rest, isNumberChar d = true := fun d hd => by
    rcases hrest d hd with hdigit | rfl
    · simp [isNumberChar, hdigit]
    · rfl
  obtain ⟨lead, tail, htext, htail, hblank, hread⟩ : ∃ lead tail, text.toList = lead :: tail ∧
      (∀ d ∈ tail, isNumberChar d = true) ∧ (∀ ds, isBlank lead ds = false) ∧
      ∀ ds, Lexeme.read lead (tail ++ ds) = Lexeme.number lead (tail ++ ds) := by
    rcases hform with hform | hform
    · have hline : first ≠ '\n' := by
        rintro rfl
        cases hfirst
      have hblank (ds : List Char) : isBlank first ds = false :=
        isBlank_eq_false_of_isWordChar (isWordChar_of_isDigit hfirst) hline ds
      exact ⟨first, rest, hform, hall, hblank, fun ds => by
        simp [Lexeme.read, Lexeme.startsNumber, hfirst]⟩
    · exact ⟨'-', first :: rest, hform, List.forall_mem_cons.mpr ⟨hdigit, hall⟩, fun _ => rfl,
        fun ds => by simp [Lexeme.read, Lexeme.startsNumber, hfirst]⟩
  have hspelling : Lexeme.number lead (tail ++ c :: after) =
      ⟨.number, text.toList, text.toList, c :: after⟩ := by
    have hstop : ∀ d ∈ (c :: after).head?, isNumberChar d = false := by simpa using hc
    obtain ⟨htake, hdrop⟩ := span_of_forall htail hstop
    simp only [Lexeme.number, htake, hdrop, htext]
  have htokens := tokens_of_read (hblank _) ((hread _).trans hspelling) before
  rwa [String.ofList_toList, ← List.cons_append, ← htext] at htokens

/-- The token of a bound that is written at a place, if there is one. -/
def boundTokens (bound : Option String) (before : List Char) : List Token :=
  (bound.map fun text => Token.mk .number (.after before) text).toList

/-- A bound is one token if it is there. -/
theorem tokens_bound {bound : Option String} (h : ∀ text ∈ bound, IsNumeral text)
    (hc : isNumberChar c = false) (before : List Char) :
    (Scanner.mk ((bound.getD "").toList ++ c :: after) (.after before)).tokens =
      boundTokens bound before ++
        (Scanner.mk (c :: after) (.after (before ++ (bound.getD "").toList))).tokens := by
  cases bound with
  | none => simp [boundTokens]
  | some text => exact tokens_numeral (h text rfl) hc before

/-- The closing bracket at the end of a text. -/
theorem tokens_closing (before : List Char) :
    (Scanner.mk [']'] (.after before)).tokens =
      [⟨.rightBracket, .after before, ""⟩, ⟨.endOfInput, .after (before ++ [']']), ""⟩] := by
  have hclose : punctuation? ']' = some .rightBracket := rfl
  rw [tokens_punctuation hclose rfl]
  rfl

/-- The opening of a selector at the start of a text. -/
theorem tokens_opening (inner : List Char) :
    (Scanner.mk ('.' :: '[' :: inner) .start).tokens =
      ⟨.dot, .after [], ""⟩ :: ⟨.leftBracket, .after ['.'], ""⟩ ::
        (Scanner.mk inner (.after ['.', '['])).tokens := by
  have hdot : punctuation? '.' = some .dot := rfl
  have hopen : punctuation? '[' = some .leftBracket := rfl
  have hstart : Position.start = .after [] := rfl
  rw [hstart, tokens_punctuation hdot rfl, List.nil_append, tokens_punctuation hopen rfl]
  rfl

end Scanner

/-- Whether the tokens behind an opening bracket use a number as a position: as an index, or as a
bound of a range whose other bound is a decimal form of a position or left out. -/
inductive UsesPosition (number : Token) : List Token → Prop
  | index {close : Token} {rest : List Token} : close.kind = .rightBracket →
      UsesPosition number (number :: close :: rest)
  | start {colon : Token} {rest : List Token} : colon.kind = .colon →
      UsesPosition number (number :: colon :: rest)
  | stop {bound : Option Token} {colon : Token} {rest : List Token} :
      (∀ other ∈ bound, other.kind = .number ∧ ∃ n, IsDecimal other.text n) →
      colon.kind = .colon → UsesPosition number (bound.toList ++ colon :: number :: rest)

namespace Parser

variable {parser reader : Parser} {token number opener close colon : Token} {tokens : List Token}

/-- A reader takes the first token and then the others. -/
theorem run_cons (hkind : token.kind ≠ .endOfInput) :
    parser.run (token :: tokens) = (parser.step token).bind fun next => next.run tokens := by
  rw [run, if_neg hkind]

/-- A decimal form is read as its position. -/
theorem position_of_isDecimal {n : Int64} (h : IsDecimal token.text n) :
    position token = .ok n := by
  simp [position, int64?_eq_some_iff.mpr h]

/-- Any other number is refused with its text and its place. -/
theorem position_of_not_isDecimal (h : ¬ ∃ n, IsDecimal token.text n) :
    position token = .error (.invalidNumber token.text token.position) := by
  have hnone : int64? token.text.toList = none :=
    Option.eq_none_iff_forall_ne_some.mpr fun n hn => h ⟨n, int64?_eq_some_iff.mp hn⟩
  simp [position, hnone]

/-- A bound of a range as a position, if it is not left out. -/
def boundPosition (bound : Option Token) : Except SyntaxError (Option Int64) :=
  bound.elim (.ok none) fun number => (position number).map some

/-- A number that a bracket closes is an index. -/
theorem run_index (hmode : parser.mode = .bracket) (hnumber : number.kind = .number)
    (hclose : close.kind = .rightBracket) :
    parser.run (number :: close :: tokens) =
      (position number).bind fun n => (parser.ascend (.index n)).run tokens := by
  rw [run_cons (by simp [hnumber])]
  have hstep : parser.step number = .ok { parser with mode := .bracketNumber number } := by
    simp [step, hmode, hnumber]
  rw [hstep, Except.bind, run_cons (by simp [hclose])]
  cases hread : position number <;> simp [step, hclose, hread, Except.map, Except.bind, ascend]

/-- A number in front of a colon is the start of a range. -/
theorem run_start (hmode : parser.mode = .bracket) {bound : Option Token}
    (hbound : ∀ number ∈ bound, number.kind = .number) (hcolon : colon.kind = .colon) :
    parser.run (bound.toList ++ colon :: tokens) =
      (boundPosition bound).bind fun start =>
        { parser with mode := .rangeStop start }.run tokens := by
  cases bound with
  | none =>
    have hstep : parser.step colon = .ok { parser with mode := .rangeStop none } := by
      simp [step, hmode, hcolon]
    simp [run_cons, hcolon, hstep, boundPosition, Except.bind]
  | some number =>
    have hnumber := hbound number rfl
    have hstep : parser.step number = .ok { parser with mode := .bracketNumber number } := by
      simp [step, hmode, hnumber]
    rw [Option.toList_some, List.singleton_append, run_cons (by simp [hnumber]), hstep, Except.bind,
      run_cons (by simp [hcolon])]
    cases hread : position number <;>
      simp [step, hcolon, hread, boundPosition, Except.map, Except.bind]

/-- A number behind the colon is the stop of the range. -/
theorem run_stop {start : Option Int64} (hmode : parser.mode = .rangeStop start)
    {bound : Option Token} (hbound : ∀ number ∈ bound, number.kind = .number)
    (hclose : close.kind = .rightBracket) :
    parser.run (bound.toList ++ close :: tokens) =
      (boundPosition bound).bind fun stop =>
        (parser.ascend (.range ⟨start, stop⟩)).run tokens := by
  cases bound with
  | none =>
    have hstep : parser.step close = .ok (parser.ascend (.range ⟨start, none⟩)) := by
      simp [step, hmode, hclose]
    simp [run_cons, hclose, hstep, boundPosition, Except.bind]
  | some number =>
    have hnumber := hbound number rfl
    rw [Option.toList_some, List.singleton_append, run_cons (by simp [hnumber])]
    cases hread : position number with
    | error e => simp [step, hmode, hnumber, hread, boundPosition, Except.map, Except.bind]
    | ok n =>
      have hstep : parser.step number = .ok { parser with mode := .rangeEnd ⟨start, some n⟩ } := by
        simp [step, hmode, hnumber, hread, Except.map]
      rw [hstep, Except.bind, run_cons (by simp [hclose])]
      simp [step, hclose, hread, boundPosition, Except.map, Except.bind, ascend]

/-- A number that is used as a position and is none is the error. -/
theorem run_of_usesPosition (hmode : parser.mode = .bracket) (hnumber : number.kind = .number)
    (hnone : ¬ ∃ n, IsDecimal number.text n) (huses : UsesPosition number tokens) :
    parser.run tokens = .error (.invalidNumber number.text number.position) := by
  have hread := position_of_not_isDecimal hnone
  cases huses with
  | index hclose => rw [run_index hmode hnumber hclose, hread, Except.bind]
  | @start colon rest hcolon =>
    have hrun : parser.run ((some number).toList ++ colon :: rest) = _ :=
      run_start hmode (by simp [hnumber]) hcolon
    rw [Option.toList_some, List.singleton_append] at hrun
    rw [hrun, boundPosition, Option.elim_some, hread]
    rfl
  | @stop bound colon rest hother hcolon =>
    rw [run_start hmode (fun other hmem => (hother other hmem).1) hcolon]
    obtain ⟨start, hstart⟩ : ∃ start, boundPosition bound = .ok start := by
      cases bound with
      | none => exact ⟨none, rfl⟩
      | some other =>
        obtain ⟨-, n, hn⟩ := hother other rfl
        exact ⟨some n, by rw [boundPosition, Option.elim_some, position_of_isDecimal hn]; rfl⟩
    rw [hstart, Except.bind, run_cons (by simp [hnumber])]
    simp [step, hnumber, hread, Except.map, Except.bind]

/-- A reader that takes an opening bracket is inside it. -/
theorem mode_of_step_bracket (hopener : opener.kind = .leftBracket)
    (h : parser.step opener = .ok reader) : reader.mode = .bracket := by
  have hdescend (steps : Option (List Node))
      (h : parser.descend steps (.array []) .bracket opener = .ok reader) :
      reader.mode = .bracket := by
    unfold descend at h
    split at h
    · cases h
    · cases h
      rfl
  have hexpression (parser : Parser) (expression : Node) :
      parser.afterExpression expression opener ≠ .ok reader := by
    unfold afterExpression
    split <;> simp [hopener]
  have hterm (parser : Parser) (term : Node) : parser.afterTerm term opener ≠ .ok reader := by
    simpa [afterTerm, operator?, hopener] using hexpression parser _
  have hstart (h : parser.startTerm opener = .ok reader) : reader.mode = .bracket := by
    simp only [startTerm, hopener] at h
    exact hdescend none h
  unfold step at h
  cases hmode : parser.mode with
  | term | item | bracket => exact hstart (by simpa [hmode, hopener] using h)
  | dot steps | segment steps =>
    exact hdescend (some steps) (by simpa [hmode, hopener, afterSegment] using h)
  | operand term => exact absurd (by simpa [hmode] using h) (hterm parser term)
  | bracketNumber first =>
    cases hread : literal first with
    | error e => simp [hmode, hopener, hread, Except.bind] at h
    | ok node =>
      exact absurd (by simpa [hmode, hopener, hread, Except.bind] using h) (hterm parser node)
  | rangeStop | rangeEnd | objectStart | objectKey | objectColon => simp [hmode, hopener] at h

/-- Where a filter may go on with an opening bracket, the reader comes to be inside it. -/
theorem exists_run_bracket {before rest : List Token} {program : Program}
    (hbefore : ∀ token ∈ before, token.kind ≠ .endOfInput) (hopener : opener.kind = .leftBracket)
    (h : parser.run (before ++ opener :: rest) = .ok program) :
    ∃ reader : Parser, reader.mode = .bracket ∧
      ∀ more, parser.run (before ++ opener :: more) = reader.run more := by
  induction before generalizing parser with
  | nil =>
    have hkind : opener.kind ≠ .endOfInput := by simp [hopener]
    rw [List.nil_append, run_cons hkind] at h
    cases hstep : parser.step opener with
    | error e => simp [hstep, Except.bind] at h
    | ok reader =>
      refine ⟨reader, mode_of_step_bracket hopener hstep, fun more => ?_⟩
      rw [List.nil_append, run_cons hkind, hstep]
      rfl
  | cons token before ih =>
    obtain ⟨hkind, hbefore⟩ := List.forall_mem_cons.mp hbefore
    rw [List.cons_append, run_cons hkind] at h
    cases hstep : parser.step token with
    | error e => simp [hstep, Except.bind] at h
    | ok next =>
      rw [hstep] at h
      obtain ⟨reader, hmode, hruns⟩ := ih hbefore h
      refine ⟨reader, hmode, fun more => ?_⟩
      rw [List.cons_append, run_cons hkind, hstep]
      exact hruns more

end Parser

/-- The reader inside a selector that starts a source. -/
def Parser.inSelector : Parser := ⟨[⟨.source [] [], {}, some []⟩], .array [], {}, .bracket⟩

/-- A source is read as its tokens say, if none of them is illegal. -/
theorem parse_eq_parseTokens {source : String} {cs : List Char} {tokens : List Token}
    (hsource : source.toList = cs) (htokens : (Scanner.mk cs .start).tokens = tokens)
    (hlegal : ∀ token ∈ tokens, token.kind ≠ .illegal) : parse source = parseTokens tokens := by
  have hall : (Scanner.ofText source).tokens = tokens := by rw [Scanner.ofText, hsource, htokens]
  have hfind : tokens.find? (·.kind == .illegal) = none := by
    rw [List.find?_eq_none]
    simpa using hlegal
  rw [parse, tokenize, hall]
  simp only [hfind]
  rfl

/-- A source that starts with a selector is read from inside its bracket. -/
theorem parse_eq_run_inSelector {source : String} {inner : List Char} {tokens : List Token}
    (hsource : source.toList = '.' :: '[' :: inner)
    (htokens : (Scanner.mk inner (.after ['.', '['])).tokens = tokens)
    (hlegal : ∀ token ∈ tokens, token.kind ≠ .illegal) :
    parse source = Parser.inSelector.run tokens := by
  have hall := (Scanner.tokens_opening inner).trans (by rw [htokens])
  rw [parse_eq_parseTokens hsource hall (by simpa using hlegal)]
  rfl

section Selectors

variable {text : String} {a b : Option String} {start stop : Option Int64}

/-- A bound that stands for a position is a numeral. -/
theorem isNumeral_of_rel (h : Option.Rel IsDecimal a start) : ∀ text ∈ a, IsNumeral text := by
  cases h with
  | none => simp
  | some hdecimal => simpa using isNumeral_of_isDecimal hdecimal

/-- A bound is read as the position it stands for. -/
theorem boundPosition_of_rel (h : Option.Rel IsDecimal a start) (position : Position) :
    Parser.boundPosition (a.map fun text => ⟨.number, position, text⟩) = .ok start := by
  cases h with
  | none => rfl
  | some hdecimal =>
    rw [Option.map_some, Parser.boundPosition, Option.elim_some,
      Parser.position_of_isDecimal hdecimal]
    rfl

/-- An index is read as a number, its closing bracket and the end of input. -/
theorem tokens_index (h : IsNumeral text) :
    (Scanner.mk (text.toList ++ [']']) (.after ['.', '['])).tokens =
      [⟨.number, .after ['.', '['], text⟩, ⟨.rightBracket, .after (['.', '['] ++ text.toList), ""⟩,
        ⟨.endOfInput, .after (['.', '['] ++ text.toList ++ [']']), ""⟩] := by
  rw [Scanner.tokens_numeral h rfl, Scanner.tokens_closing]

/-- A source that is an index is read from behind its opening bracket. -/
theorem parse_index_eq (h : IsNumeral text) :
    parse (".[" ++ text ++ "]") = Parser.inSelector.run
      [⟨.number, .after ['.', '['], text⟩, ⟨.rightBracket, .after (['.', '['] ++ text.toList), ""⟩,
        ⟨.endOfInput, .after (['.', '['] ++ text.toList ++ [']']), ""⟩] :=
  parse_eq_run_inSelector (by simp [String.toList_append]) (tokens_index h) (by simp)

/-- The tokens of a range, from behind its opening bracket. -/
def rangeTokens (a b : Option String) : List Token :=
  let opened := ['.', '[']
  let started := opened ++ (a.getD "").toList
  let stopped := started ++ [':'] ++ (b.getD "").toList
  Scanner.boundTokens a opened ++ ⟨.colon, .after started, ""⟩ ::
    (Scanner.boundTokens b (started ++ [':']) ++
      [⟨.rightBracket, .after stopped, ""⟩, ⟨.endOfInput, .after (stopped ++ [']']), ""⟩])

/-- A source that is a range is read from behind its opening bracket. -/
theorem parse_range_eq (ha : ∀ text ∈ a, IsNumeral text) (hb : ∀ text ∈ b, IsNumeral text) :
    parse (".[" ++ a.getD "" ++ ":" ++ b.getD "" ++ "]") =
      Parser.inSelector.run (rangeTokens a b) := by
  have htokens : (Scanner.mk ((a.getD "").toList ++ ':' :: ((b.getD "").toList ++ [']']))
      (.after ['.', '['])).tokens = rangeTokens a b := by
    have hcolon : punctuation? ':' = some .colon := rfl
    rw [Scanner.tokens_bound ha rfl, Scanner.tokens_punctuation hcolon rfl,
      Scanner.tokens_bound hb rfl, Scanner.tokens_closing]
    rfl
  refine parse_eq_run_inSelector (by simp [String.toList_append]) htokens ?_
  cases a <;> cases b <;> simp [rangeTokens, Scanner.boundTokens]

/-- An index is read as its position. -/
theorem parse_index {n : Int64} (h : IsDecimal text n) :
    parse (".[" ++ text ++ "]") = .ok [.index n] := by
  have hinside : Parser.inSelector.mode = .bracket := rfl
  rw [parse_index_eq (isNumeral_of_isDecimal h), Parser.run_index hinside rfl rfl,
    Parser.position_of_isDecimal h]
  rfl

/-- The token of a bound is a number. -/
theorem kind_of_mem_bound {position : Position} {number : Token}
    (h : number ∈ a.map fun text => Token.mk .number position text) : number.kind = .number := by
  obtain ⟨text, -, rfl⟩ := Option.map_eq_some_iff.mp h
  rfl

/-- A range is read as its bounds. -/
theorem parse_range (ha : Option.Rel IsDecimal a start) (hb : Option.Rel IsDecimal b stop) :
    parse (".[" ++ a.getD "" ++ ":" ++ b.getD "" ++ "]") = .ok [.range ⟨start, stop⟩] := by
  have hinside : Parser.inSelector.mode = .bracket := rfl
  have hstart := boundPosition_of_rel ha (.after ['.', '['])
  have hstop := boundPosition_of_rel hb (.after (['.', '['] ++ (a.getD "").toList ++ [':']))
  rw [parse_range_eq (isNumeral_of_rel ha) (isNumeral_of_rel hb), rangeTokens,
    Scanner.boundTokens, Parser.run_start hinside (fun _ => kind_of_mem_bound) rfl, hstart,
    Except.bind, Scanner.boundTokens, Parser.run_stop rfl (fun _ => kind_of_mem_bound) rfl, hstop]
  rfl

variable (htext : IsNumeral text) (hnone : ¬ ∃ n, IsDecimal text n)

include htext hnone

/-- An index that is no position is refused with its text and its place. -/
theorem parse_index_of_not_isDecimal :
    parse (".[" ++ text ++ "]") = .error (.invalidNumber text (.after ".[".toList)) := by
  have hinside : Parser.inSelector.mode = .bracket := rfl
  rw [parse_index_eq htext]
  exact Parser.run_of_usesPosition hinside rfl hnone (.index rfl)

/-- A first bound that is no position is refused with its text and its place. -/
theorem parse_start_of_not_isDecimal (hb : Option.Rel IsDecimal b stop) :
    parse (".[" ++ text ++ ":" ++ b.getD "" ++ "]") =
      .error (.invalidNumber text (.after ".[".toList)) := by
  have hinside : Parser.inSelector.mode = .bracket := rfl
  have hstart : ∀ bound ∈ some text, IsNumeral bound := by simpa using htext
  have heq := parse_range_eq hstart (isNumeral_of_rel hb)
  rw [Option.getD_some] at heq
  rw [heq]
  exact Parser.run_of_usesPosition hinside rfl hnone (.start rfl)

/-- A second bound that is no position is refused with its text and its place. -/
theorem parse_stop_of_not_isDecimal (ha : Option.Rel IsDecimal a start) :
    parse (".[" ++ a.getD "" ++ ":" ++ text ++ "]") =
      .error (.invalidNumber text (.after (".[" ++ a.getD "" ++ ":").toList)) := by
  have hinside : Parser.inSelector.mode = .bracket := rfl
  have hstop : ∀ bound ∈ some text, IsNumeral bound := by simpa using htext
  have heq := parse_range_eq (isNumeral_of_rel ha) hstop
  have hplace : (".[" ++ a.getD "" ++ ":").toList =
      ['.', '['] ++ (a.getD "").toList ++ [':'] := by
    simp [String.toList_append]
  rw [Option.getD_some] at heq
  rw [heq, hplace]
  refine Parser.run_of_usesPosition hinside rfl hnone (.stop (fun first hfirst => ?_) rfl)
  refine ⟨kind_of_mem_bound hfirst, ?_⟩
  obtain ⟨other, hother, rfl⟩ := Option.map_eq_some_iff.mp hfirst
  cases ha with
  | none => cases hother
  | some hdecimal =>
    cases hother
    exact ⟨_, hdecimal⟩

end Selectors

/-- Behind an opening bracket that fits, a number that is used as a position and is none is the
error. -/
theorem parse_of_usesPosition {source : String} {before words : List Token} {opener number : Token}
    (htokens : tokenize source = .ok (before ++ opener :: words))
    (hopener : opener.kind = .leftBracket)
    (hfits : ∃ rest program, parseTokens (before ++ opener :: rest) = .ok program)
    (huses : UsesPosition number words) (hnumber : number.kind = .number)
    (hnone : ¬ ∃ n, IsDecimal number.text n) :
    parse source = .error (.invalidNumber number.text number.position) := by
  have hbefore : ∀ token ∈ before, token.kind ≠ .endOfInput := by
    obtain ⟨all, last, heq, -, hkinds⟩ := tokenize_shape htokens
    have hfront : before ++ (opener :: words).dropLast = all := by
      have hdrop := congrArg List.dropLast heq
      rwa [List.dropLast_append_cons, List.dropLast_concat] at hdrop
    exact fun token hmem => (hkinds token (hfront ▸ List.mem_append_left _ hmem)).1
  have hrun (rest : List Token) :
      parseTokens (before ++ opener :: rest) = Parser.initial.run (before ++ opener :: rest) := by
    cases before with
    | nil => simp [parseTokens, hopener]
    | cons token before => simp [parseTokens, hbefore token List.mem_cons_self]
  obtain ⟨rest, program, hprogram⟩ := hfits
  rw [hrun] at hprogram
  obtain ⟨reader, hmode, hruns⟩ := Parser.exists_run_bracket hbefore hopener hprogram
  have hparse : parse source = parseTokens (before ++ opener :: words) := by
    rw [parse, htokens, Except.bind]
  rw [hparse, hrun, hruns]
  exact Parser.run_of_usesPosition hmode hnumber hnone huses

/-- The number that is used is one of the tokens. -/
theorem UsesPosition.mem {number : Token} {words : List Token} (h : UsesPosition number words) :
    number ∈ words := by
  cases h with
  | index | start => exact List.mem_cons_self
  | stop => simp

/-- A number of a source stands at its place. -/
theorem shows_number {source : String} {tokens : List Token} {number : Token}
    (htokens : tokenize source = .ok tokens) (hmem : number ∈ tokens)
    (hnumber : number.kind = .number) : number.position.Shows source number.text.toList := by
  have hall : (Scanner.ofText source).tokens = tokens := by
    unfold tokenize at htokens
    simp only at htokens
    split at htokens
    · cases htokens
    · cases htokens
      rfl
  have hword : number.kind ≠ .word := by simp [hnumber]
  have hend : number.kind ≠ .endOfInput := by simp [hnumber]
  obtain ⟨-, hline, hiff⟩ := shows_of_mem_tokens (hall ▸ hmem) hend
  have hshows := hiff.mpr fun hshows => hword (hline hshows)
  rwa [Token.spelling, hnumber] at hshows

/-- **Positions in selectors.** Every position may be written in decimal, and an index or a range
is read as the positions that its texts are decimal forms of. A numeral that is no decimal form of a
position is the error, with its text and its place, wherever a bracket uses it as one. -/
theorem positions_in_selectors :
    (∀ n : Int64, IsDecimal (toString n) n) ∧
    (∀ text n, IsDecimal text n → parse (".[" ++ text ++ "]") = .ok [.index n]) ∧
    (∀ a b start stop, Option.Rel IsDecimal a start → Option.Rel IsDecimal b stop →
      parse (".[" ++ a.getD "" ++ ":" ++ b.getD "" ++ "]") = .ok [.range ⟨start, stop⟩]) ∧
    (∀ text, IsNumeral text → (¬ ∃ n, IsDecimal text n) →
      parse (".[" ++ text ++ "]") = .error (.invalidNumber text (.after ".[".toList)) ∧
      ∀ other bound, Option.Rel IsDecimal other bound →
        parse (".[" ++ text ++ ":" ++ other.getD "" ++ "]") =
          .error (.invalidNumber text (.after ".[".toList)) ∧
        parse (".[" ++ other.getD "" ++ ":" ++ text ++ "]") =
          .error (.invalidNumber text (.after (".[" ++ other.getD "" ++ ":").toList))) ∧
    ∀ source before opener words number,
      tokenize source = .ok (before ++ opener :: words) → opener.kind = .leftBracket →
      (∃ rest program, parseTokens (before ++ opener :: rest) = .ok program) →
      UsesPosition number words → number.kind = .number → (¬ ∃ n, IsDecimal number.text n) →
      parse source = .error (.invalidNumber number.text number.position) ∧
        number.position.Shows source number.text.toList := by
  refine ⟨isDecimal_toString, fun text n => parse_index, fun a b start stop => parse_range,
    fun text htext hnone => ⟨parse_index_of_not_isDecimal htext hnone, fun other bound hother =>
      ⟨parse_start_of_not_isDecimal htext hnone hother,
        parse_stop_of_not_isDecimal htext hnone hother⟩⟩, ?_⟩
  intro source before opener words number htokens hopener hfits huses hnumber hnone
  have hmem : number ∈ before ++ opener :: words :=
    List.mem_append_right _ (List.mem_cons_of_mem _ huses.mem)
  exact ⟨parse_of_usesPosition htokens hopener hfits huses hnumber hnone,
    shows_number htokens hmem hnumber⟩

/-- The least position is one, what comes behind the greatest is none, and neither is a number with
a point, here in a selector inside of an array. -/
theorem positions_in_selectors_at_the_limits :
    parse (".[" ++ toString Int64.minValue ++ "]") = .ok [.index Int64.minValue] ∧
      parse (".[" ++ (some "007").getD "" ++ ":" ++ (some "-0").getD "" ++ "]") =
        .ok [.range ⟨some 7, some 0⟩] ∧
      parse (".[" ++ (none : Option String).getD "" ++ ":" ++ "9223372036854775808" ++ "]") =
        .error (.invalidNumber "9223372036854775808" (.after (".[" ++ "" ++ ":").toList)) ∧
      parse "[.[1.]]" = .error (.invalidNumber "1." ⟨1, 4, 3⟩) := by
  have hnot {text : String} (h : int64? text.toList = none) : ¬ ∃ n, IsDecimal text n := by
    rintro ⟨n, hn⟩
    rw [int64?_eq_some_iff.mpr hn] at h
    cases h
  obtain ⟨hwritten, hindex, hrange, hrejected, hanywhere⟩ := positions_in_selectors
  have hseven : IsDecimal "007" 7 := int64?_eq_some_iff.mp rfl
  have hzero : IsDecimal "-0" 0 := int64?_eq_some_iff.mp rfl
  have hdigits : "223372036854775808".toList.all Char.isDigit = true := rfl
  have hnumeral : IsNumeral "9223372036854775808" :=
    ⟨'9', _, Or.inl rfl, rfl, fun c hc => Or.inl (List.all_eq_true.mp hdigits c hc)⟩
  refine ⟨hindex _ _ (hwritten _), hrange _ _ _ _ (.some hseven) (.some hzero),
    ((hrejected _ hnumeral (hnot rfl)).2 none none .none).2, ?_⟩
  let before : List Token := [⟨.leftBracket, ⟨1, 1, 0⟩, ""⟩, ⟨.dot, ⟨1, 2, 1⟩, ""⟩]
  let opener : Token := ⟨.leftBracket, ⟨1, 3, 2⟩, ""⟩
  have htokens : tokenize "[.[1.]]" = .ok (before ++ opener ::
      [⟨.number, ⟨1, 4, 3⟩, "1."⟩, ⟨.rightBracket, ⟨1, 6, 5⟩, ""⟩,
        ⟨.rightBracket, ⟨1, 7, 6⟩, ""⟩, ⟨.endOfInput, ⟨1, 8, 7⟩, ""⟩]) := rfl
  have hfits : ∃ rest program, parseTokens (before ++ opener :: rest) = .ok program :=
    ⟨[⟨.rightBracket, .start, ""⟩, ⟨.rightBracket, .start, ""⟩, ⟨.endOfInput, .start, ""⟩], _, rfl⟩
  exact (hanywhere _ _ _ _ _ htokens rfl hfits (.index rfl) rfl (hnot rfl)).1

end Sluice.Filter
