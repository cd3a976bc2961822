import Sluice.Proofs.Filter.Positions
import Sluice.Proofs.Filter.Recognition

/-!
# How deep the tokens before a place nest

A reader counts its open constructs nowhere: they are the stack it keeps. That stack grows and
shrinks with the tokens alone, by one for each opening token and each closing one (`nest`), in
whatever part of the grammar the token is taken. So the limit on the stack is a limit on the openers
that are unclosed before a token, wherever they stand and whatever they open.
-/

namespace Sluice.Filter

open Grammar

/-- How many constructs are open after one more token. -/
def nest (depth : Nat) (token : Token) : Nat :=
  if isOpener token.kind then depth + 1 else if isCloser token.kind then depth - 1 else depth

/-- How many openers among tokens no later token closes. -/
def unclosed (tokens : List Token) : Nat := tokens.foldl nest 0

/-- No tokens leave nothing open. -/
@[simp] theorem unclosed_nil : unclosed [] = 0 := rfl

/-- Tokens behind others open and close from where those have come. -/
@[simp] theorem unclosed_append (before after : List Token) :
    unclosed (before ++ after) = after.foldl nest (unclosed before) :=
  List.foldl_append ..

/-- An opening token opens one construct more. -/
theorem nest_opener {depth : Nat} {token : Token} (h : isOpener token.kind = true) :
    nest depth token = depth + 1 := by
  simp [nest, h]

/-- Behind a token that is neither an opener nor a closer nothing has changed. -/
theorem nest_plain {depth : Nat} {token : Token} (hopener : isOpener token.kind = false)
    (hcloser : isCloser token.kind = false) : nest depth token = depth := by
  simp [nest, hopener, hcloser]

/-- An opener is one more that is unclosed. -/
theorem unclosed_take_succ {tokens : List Token} {i : Nat} {opener : Token}
    (hopener : tokens[i]? = some opener) (h : isOpener opener.kind = true) :
    unclosed (tokens.take (i + 1)) = unclosed (tokens.take i) + 1 := by
  rw [List.take_add_one, hopener, Option.toList_some, unclosed_append]
  exact nest_opener h

/-- The end of the input is no deeper than what is before it. -/
theorem unclosed_take_concat_le {words : List Token} {last : Token} {limit : Nat}
    (hlast : last.kind = .endOfInput) (h : ∀ n, unclosed (words.take n) ≤ limit) (n : Nat) :
    unclosed ((words ++ [last]).take n) ≤ limit := by
  rcases Nat.lt_or_ge words.length n with hbehind | hinside
  · have hend : unclosed (words ++ [last]) = unclosed words := by
      rw [unclosed_append]
      exact nest_plain (by rw [hlast]; rfl) (by rw [hlast]; rfl)
    rw [List.take_of_length_le (by simp; omega), hend]
    simpa using h words.length
  · rw [List.take_append_of_le_length hinside]
    exact h n

/-- Groups that close all they open, side by side, are together as deep as the deepest of them. -/
theorem unclosed_take_flatten {limit : Nat} {groups : List (List Token)}
    (h : ∀ group ∈ groups, unclosed group = 0 ∧ ∀ n, unclosed (group.take n) ≤ limit) :
    unclosed groups.flatten = 0 ∧ ∀ n, unclosed (groups.flatten.take n) ≤ limit := by
  induction groups with
  | nil => simp
  | cons group groups ih =>
    obtain ⟨⟨hclosed, hwithin⟩, hgroups⟩ := List.forall_mem_cons.mp h
    obtain ⟨hclosedAll, hwithinAll⟩ := ih hgroups
    have hskip (tokens : List Token) : unclosed (group ++ tokens) = unclosed tokens := by
      rw [unclosed_append, hclosed, unclosed]
    refine ⟨by rw [List.flatten_cons, hskip, hclosedAll], fun n => ?_⟩
    rw [List.flatten_cons, List.take_append]
    rcases Nat.lt_or_ge n group.length with hinside | hbehind
    · rw [Nat.sub_eq_zero_of_le (Nat.le_of_lt hinside), List.take_zero, List.append_nil]
      exact hwithin n
    · rw [List.take_of_length_le hbehind, hskip]
      exact hwithinAll _

namespace Parser

/-- Whether the result of taking a token at a depth counts what is open: a reader that goes on has
as many constructs open as the tokens say and may have, and a reader that is too deep has been at
the limit, before an opener. -/
def Counts (depth : Nat) (token : Token) : Except SyntaxError Parser → Prop
  | .ok next => next.suspended.length = nest depth token ∧ next.suspended.length ≤ maxNesting
  | .error e => ∀ limit position, e = .tooDeep limit position →
      limit = maxNesting ∧ position = token.position ∧ isOpener token.kind = true ∧
        depth = maxNesting

/-- Whether a result says something else than that a filter is too deep. -/
def InDepth {α : Type} (result : Except SyntaxError α) : Prop :=
  ∀ limit position, result ≠ .error (.tooDeep limit position)

section InDepth

variable {α β : Type} {token : Token}

/-- A result that is not an error does not say that a filter is too deep. -/
theorem inDepth_ok (x : α) : InDepth (.ok x) := by
  rintro limit position ⟨⟩

/-- A token that is refused is not refused for being too deep. -/
theorem inDepth_unexpected (expected : Expectation) :
    InDepth (.error (.unexpected expected token) : Except SyntaxError α) := by
  rintro limit position ⟨⟩

/-- Two steps say nothing about depth if neither of them does. -/
theorem InDepth.bind {result : Except SyntaxError α} {next : α → Except SyntaxError β}
    (h : InDepth result) (hnext : ∀ x, InDepth (next x)) : InDepth (result.bind next) := by
  cases result with
  | ok x => exact hnext x
  | error e =>
    rintro limit position ⟨⟩
    exact h limit position rfl

/-- A function of a result leaves what its error says. -/
theorem InDepth.map {result : Except SyntaxError α} (h : InDepth result) (f : α → β) :
    InDepth (result.map f) := by
  cases result with
  | ok x => exact inDepth_ok _
  | error e =>
    rintro limit position ⟨⟩
    exact h limit position rfl

/-- Reading a number as a literal says nothing about depth. -/
theorem inDepth_literal (number : Token) : InDepth (literal number) := by
  intro limit position
  unfold literal
  split <;> simp

/-- Reading a number as a position says nothing about depth. -/
theorem inDepth_position (number : Token) : InDepth (position number) := by
  intro limit place
  unfold position
  split <;> simp

/-- Reading the last term says nothing about depth. -/
theorem inDepth_lastTerm (mode : Mode) : InDepth (lastTerm mode token) := by
  cases mode with
  | item | bracket | dot | segment | operand => exact inDepth_ok _
  | bracketNumber first => exact (inDepth_literal _).map _
  | term | rangeStop | rangeEnd | objectStart | objectKey | objectColon =>
    exact inDepth_unexpected _

/-- The end of the input opens nothing. -/
theorem inDepth_finish (suspended : List Suspended) (enclosure : Enclosure) (pending : Pending)
    (mode : Mode) : InDepth (finish suspended enclosure pending mode token) := by
  induction suspended generalizing enclosure pending mode with
  | nil =>
    unfold finish
    refine (inDepth_lastTerm mode).bind fun term => ?_
    cases enclosure with
    | source | array => exact inDepth_ok _
    | parens | object => exact inDepth_unexpected _
  | cons outer suspended ih =>
    unfold finish
    refine (inDepth_lastTerm mode).bind fun term => ?_
    cases enclosure with
    | source => exact inDepth_ok _
    | array items => exact ih _ _ _
    | parens | object => exact inDepth_unexpected _

end InDepth

section Counts

variable {α : Type} {parser : Parser} {token : Token}

/-- An error about a token that is refused has nothing to count. -/
theorem counts_unexpected (depth : Nat) (expected : Expectation) :
    Counts depth token (.error (.unexpected expected token)) := by
  rintro limit position ⟨⟩

/-- A step behind one that says nothing about depth decides what is counted. -/
theorem counts_bind {depth : Nat} {result : Except SyntaxError α}
    {next : α → Except SyntaxError Parser} (h : InDepth result)
    (hnext : ∀ x, Counts depth token (next x)) : Counts depth token (result.bind next) := by
  cases result with
  | ok x => exact hnext x
  | error e =>
    rintro limit position rfl
    exact absurd rfl (h limit position)

/-- A reader made of a result that says nothing about depth decides what is counted. -/
theorem counts_map {depth : Nat} {result : Except SyntaxError α} {next : α → Parser}
    (h : InDepth result) (hnext : ∀ x, Counts depth token (.ok (next x))) :
    Counts depth token (result.map next) := by
  cases result with
  | ok x => exact hnext x
  | error e =>
    rintro limit position rfl
    exact absurd rfl (h limit position)

/-- A reader that stays inside the same construct takes a token that neither opens nor closes. -/
theorem counts_stay {next : Parser} (h : parser.suspended.length ≤ maxNesting)
    (hnext : next.suspended = parser.suspended) (hopener : isOpener token.kind = false)
    (hcloser : isCloser token.kind = false) : Counts parser.suspended.length token (.ok next) := by
  rw [Counts, hnext, nest_plain hopener hcloser]
  exact ⟨rfl, h⟩

/-- Opening a construct counts it, and is refused at the limit only. -/
theorem counts_descend (h : parser.suspended.length ≤ maxNesting)
    (hopener : isOpener token.kind = true) (steps : Option (List Node)) (enclosure : Enclosure)
    (mode : Mode) :
    Counts parser.suspended.length token (parser.descend steps enclosure mode token) := by
  unfold descend
  split
  next hfull =>
    rintro limit position ⟨⟩
    exact ⟨rfl, rfl, hopener, Nat.le_antisymm h hfull⟩
  next hroom => exact ⟨(nest_opener hopener).symm, Nat.lt_of_not_le hroom⟩

/-- Closing a construct leaves one less suspended. -/
theorem length_ascend (parser : Parser) (inner : Node) :
    (parser.ascend inner).suspended.length = parser.suspended.length - 1 := by
  unfold ascend
  split <;> simp [*]

/-- Closing a construct counts it as closed. -/
theorem counts_ascend (h : parser.suspended.length ≤ maxNesting)
    (hcloser : isCloser token.kind = true) (inner : Node) :
    Counts parser.suspended.length token (.ok (parser.ascend inner)) := by
  have hopener : isOpener token.kind = false := by
    revert hcloser
    cases token.kind <;> simp [isOpener, isCloser]
  have hnest : nest parser.suspended.length token = parser.suspended.length - 1 := by
    simp [nest, hopener, hcloser]
  rw [Counts, length_ascend, hnest]
  exact ⟨rfl, Nat.le_trans (Nat.sub_le _ _) h⟩

/-- Behind an expression the reader counts what is open. -/
theorem counts_afterExpression (h : parser.suspended.length ≤ maxNesting) (expression : Node) :
    Counts parser.suspended.length token (parser.afterExpression expression token) := by
  have hstay {kind : TokenKind} (hkind : token.kind = kind) (hopener : isOpener kind = false)
      (hcloser : isCloser kind = false) (enclosure : Enclosure) (mode : Mode) :
      Counts parser.suspended.length token (.ok (parser.proceed enclosure mode)) :=
    counts_stay h rfl (hkind ▸ hopener) (hkind ▸ hcloser)
  unfold afterExpression
  split
  · split
    next hkind => exact hstay hkind rfl rfl _ _
    next hkind => exact hstay hkind rfl rfl _ _
    next => exact counts_unexpected _ _
  · split
    next hkind => exact hstay hkind rfl rfl _ _
    next hkind => exact hstay hkind rfl rfl _ _
    next hkind => exact counts_ascend h (by rw [hkind]; rfl) _
    next => exact counts_unexpected _ _
  · split
    next hkind => exact hstay hkind rfl rfl _ _
    next hkind => exact counts_ascend h (by rw [hkind]; rfl) _
    next => exact counts_unexpected _ _
  · split
    next hkind => exact hstay hkind rfl rfl _ _
    next hkind => exact counts_ascend h (by rw [hkind]; rfl) _
    next => exact counts_unexpected _ _

/-- Behind a term the reader counts what is open. -/
theorem counts_afterTerm (h : parser.suspended.length ≤ maxNesting) (term : Node) :
    Counts parser.suspended.length token (parser.afterTerm term token) := by
  unfold afterTerm
  split
  next operator hoperator =>
    have hplain : isOpener token.kind = false ∧ isCloser token.kind = false := by
      revert hoperator
      cases token.kind <;> simp [operator?, isOpener, isCloser]
    exact counts_stay h rfl hplain.1 hplain.2
  next => exact counts_afterExpression h _

/-- Behind a segment the reader counts what is open. -/
theorem counts_afterSegment (h : parser.suspended.length ≤ maxNesting) (steps : List Node) :
    Counts parser.suspended.length token (parser.afterSegment steps token) := by
  unfold afterSegment
  split
  next hkind => exact counts_stay h rfl (by rw [hkind]; rfl) (by rw [hkind]; rfl)
  next hkind => exact counts_descend h (by rw [hkind]; rfl) _ _ _
  next => exact counts_afterTerm h _

/-- At the start of a term the reader counts what is open. -/
theorem counts_startTerm (h : parser.suspended.length ≤ maxNesting) :
    Counts parser.suspended.length token (parser.startTerm token) := by
  unfold startTerm
  split
  next hkind => exact counts_stay h rfl (by rw [hkind]; rfl) (by rw [hkind]; rfl)
  next hkind =>
    refine counts_map (inDepth_literal _) fun node => ?_
    exact counts_stay h rfl (by rw [hkind]; rfl) (by rw [hkind]; rfl)
  next hkind => exact counts_stay h rfl (by rw [hkind]; rfl) (by rw [hkind]; rfl)
  next hkind => exact counts_stay h rfl (by rw [hkind]; rfl) (by rw [hkind]; rfl)
  next hkind => exact counts_descend h (by rw [hkind]; rfl) _ _ _
  next hkind => exact counts_descend h (by rw [hkind]; rfl) _ _ _
  next hkind => exact counts_descend h (by rw [hkind]; rfl) _ _ _
  next => exact counts_unexpected _ _

/-- The constructs that a reader has open change with the token it takes, whatever it expects. -/
theorem counts_step (h : parser.suspended.length ≤ maxNesting) :
    Counts parser.suspended.length token (parser.step token) := by
  have hstay {kind : TokenKind} (hkind : token.kind = kind) (hopener : isOpener kind = false)
      (hcloser : isCloser kind = false) (mode : Mode) :
      Counts parser.suspended.length token (.ok { parser with mode := mode }) :=
    counts_stay h rfl (hkind ▸ hopener) (hkind ▸ hcloser)
  have hclose {kind : TokenKind} (hkind : token.kind = kind) (hcloser : isCloser kind = true)
      (inner : Node) : Counts parser.suspended.length token (.ok (parser.ascend inner)) :=
    counts_ascend h (hkind ▸ hcloser) inner
  unfold step
  cases parser.mode with
  | term => exact counts_startTerm h
  | item =>
    simp only
    split
    next hkind => exact hclose hkind rfl _
    next => exact counts_startTerm h
  | bracket =>
    simp only
    split
    next hkind => exact hclose hkind rfl _
    next hkind => exact hstay hkind rfl rfl _
    next hkind => exact hstay hkind rfl rfl _
    next => exact counts_startTerm h
  | bracketNumber first =>
    simp only
    split
    next hkind => exact counts_map (inDepth_position _) fun n => hclose hkind rfl _
    next hkind => exact counts_map (inDepth_position _) fun n => hstay hkind rfl rfl _
    next => exact counts_bind (inDepth_literal _) fun node => counts_afterTerm h _
  | rangeStop start =>
    simp only
    split
    next hkind => exact counts_map (inDepth_position _) fun n => hstay hkind rfl rfl _
    next hkind => exact hclose hkind rfl _
    next => exact counts_unexpected _ _
  | rangeEnd bounds =>
    simp only
    split
    next hkind => exact hclose hkind rfl _
    next => exact counts_unexpected _ _
  | objectStart =>
    simp only
    split
    next hkind => exact hclose hkind rfl _
    next hkind => exact hstay hkind rfl rfl _
    next hkind => exact hstay hkind rfl rfl _
    next => exact counts_unexpected _ _
  | objectKey =>
    simp only
    split
    next hkind => exact hstay hkind rfl rfl _
    next hkind => exact hstay hkind rfl rfl _
    next => exact counts_unexpected _ _
  | objectColon key =>
    simp only
    split
    next hkind => exact counts_stay h rfl (by rw [hkind]; rfl) (by rw [hkind]; rfl)
    next => exact counts_unexpected _ _
  | dot steps =>
    simp only
    split
    next hkind => exact hstay hkind rfl rfl _
    next hkind => exact hstay hkind rfl rfl _
    next hkind => exact counts_descend h (by rw [hkind]; rfl) _ _ _
    next => exact counts_afterSegment h _
  | segment steps => exact counts_afterSegment h _
  | operand term => exact counts_afterTerm h _

end Counts

/-- The reader that a reader becomes by taking some tokens. -/
def takeAll (parser : Parser) (tokens : List Token) : Except SyntaxError Parser :=
  tokens.foldlM step parser

variable {parser reader : Parser} {words : List Token} {e : SyntaxError}

/-- Tokens are taken one after another. -/
theorem takeAll_cons (parser : Parser) (word : Token) (words : List Token) :
    parser.takeAll (word :: words) = (parser.step word).bind (·.takeAll words) :=
  rfl

/-- A run takes the tokens before the end of the input, and then that. -/
theorem run_eq_takeAll {last : Token} (hwords : ∀ word ∈ words, word.kind ≠ .endOfInput)
    (hlast : last.kind = .endOfInput) :
    parser.run (words ++ [last]) = (parser.takeAll words).bind fun reader =>
      finish reader.suspended reader.enclosure reader.pending reader.mode last := by
  induction words generalizing parser with
  | nil => simp [run, hlast, takeAll, pure, Except.pure, Except.bind]
  | cons word words ih =>
    obtain ⟨hword, hrest⟩ := List.forall_mem_cons.mp hwords
    rw [takeAll_cons]
    cases hstep : parser.step word with
    | error e => simp [run, hword, hstep, Except.bind]
    | ok next => simpa [run, hword, hstep, Except.bind] using ih hrest

/-- A reader that has taken tokens has had them in the order they stand. -/
theorem exists_takeAll_take (h : parser.takeAll words = .ok reader) (n : Nat) :
    ∃ middle, parser.takeAll (words.take n) = .ok middle := by
  rw [← List.take_append_drop n words, takeAll, List.foldlM_append] at h
  cases hmiddle : parser.takeAll (words.take n) with
  | ok middle => exact ⟨middle, rfl⟩
  | error e =>
    rw [takeAll] at hmiddle
    rw [hmiddle] at h
    cases h

/-- Tokens that are not taken have a first one that is refused. -/
theorem exists_step_of_takeAll_error (h : parser.takeAll words = .error e) :
    ∃ before found after reader, words = before ++ found :: after ∧
      parser.takeAll before = .ok reader ∧ reader.step found = .error e := by
  induction words generalizing parser with
  | nil => cases h
  | cons word words ih =>
    rw [takeAll_cons] at h
    cases hstep : parser.step word with
    | error e' =>
      obtain rfl : e' = e := by simpa [hstep, Except.bind] using h
      exact ⟨[], word, words, parser, rfl, rfl, hstep⟩
    | ok next =>
      rw [hstep] at h
      obtain ⟨before, found, after, reader, rfl, htaken, hrefused⟩ := ih h
      refine ⟨word :: before, found, after, reader, rfl, ?_, hrefused⟩
      rw [takeAll_cons, hstep]
      exact htaken

/-- The constructs that a reader has open are the openers that are unclosed in what it has
taken, and never more than the limit. -/
theorem length_of_takeAll (hparser : parser.suspended.length ≤ maxNesting)
    (h : parser.takeAll words = .ok reader) :
    reader.suspended.length = words.foldl nest parser.suspended.length ∧
      reader.suspended.length ≤ maxNesting := by
  induction words generalizing parser with
  | nil =>
    obtain rfl : parser = reader := by simpa [takeAll, pure, Except.pure] using h
    exact ⟨rfl, hparser⟩
  | cons word words ih =>
    rw [takeAll_cons] at h
    have hcounts : Counts parser.suspended.length word (parser.step word) := counts_step hparser
    cases hstep : parser.step word with
    | error e =>
      rw [hstep] at h
      cases h
    | ok next =>
      rw [hstep] at h hcounts
      obtain ⟨hlength, hbounded⟩ := hcounts
      rw [List.foldl_cons, ← hlength]
      exact ih hbounded h

/-- What has been taken from the start is never deeper than the limit, at any place in it. -/
theorem unclosed_take_le_of_takeAll (h : initial.takeAll words = .ok reader) (n : Nat) :
    unclosed (words.take n) ≤ maxNesting := by
  obtain ⟨middle, hmiddle⟩ := exists_takeAll_take h n
  obtain ⟨hlength, hbounded⟩ := length_of_takeAll (Nat.zero_le _) hmiddle
  rw [unclosed]
  exact hlength ▸ hbounded

/-- A token at which a reader is too deep is an opener with as many unclosed before it as there
may be. -/
theorem unclosed_of_tooDeep {before : List Token} {found : Token} {limit : Nat}
    {position : Position} (htaken : initial.takeAll before = .ok reader)
    (h : reader.step found = .error (.tooDeep limit position)) :
    limit = maxNesting ∧ found.position = position ∧ isOpener found.kind = true ∧
      unclosed before = maxNesting := by
  obtain ⟨hlength, hbounded⟩ := length_of_takeAll (Nat.zero_le _) htaken
  have hcounts : Counts reader.suspended.length found (reader.step found) := counts_step hbounded
  rw [h] at hcounts
  obtain ⟨hlimit, hposition, hopener, hfull⟩ := hcounts limit position rfl
  refine ⟨hlimit, hposition.symm, hopener, ?_⟩
  rw [unclosed]
  exact hlength.symm.trans hfull

end Parser

variable {source : String} {tokens : List Token}

/-- A source is read by taking its tokens and then the end of the input, unless that stands
alone. -/
theorem exists_parse_eq (h : tokenize source = .ok tokens) :
    ∃ words last, tokens = words ++ [last] ∧ last.kind = .endOfInput ∧
      (words = [] ∧ parse source = .ok [] ∨
        parse source = (Parser.initial.takeAll words).bind fun reader =>
          Parser.finish reader.suspended reader.enclosure reader.pending reader.mode last) := by
  obtain ⟨words, last, rfl, hlast, hwords⟩ := tokenize_shape h
  refine ⟨words, last, rfl, hlast, ?_⟩
  rw [parse, h, Except.bind]
  cases words with
  | nil => exact Or.inl ⟨rfl, by simp [parseTokens, hlast]⟩
  | cons word words =>
    have hword := (hwords word List.mem_cons_self).1
    have hparse : parseTokens (word :: words ++ [last]) =
        Parser.initial.run (word :: words ++ [last]) := by
      simp [parseTokens, hword]
    rw [hparse]
    exact Or.inr (Parser.run_eq_takeAll (fun token htoken => (hwords token htoken).1) hlast)

/-- The tokens of a source that is read are at no place deeper than the limit. -/
theorem unclosed_take_le_of_parse {program : Program} (htokens : tokenize source = .ok tokens)
    (h : parse source = .ok program) (n : Nat) : unclosed (tokens.take n) ≤ maxNesting := by
  obtain ⟨words, last, rfl, hlast, hparse⟩ := exists_parse_eq htokens
  have hwords (n : Nat) : unclosed (words.take n) ≤ maxNesting := by
    rcases hparse with ⟨rfl, -⟩ | hparse
    · simp
    · cases htaken : Parser.initial.takeAll words with
      | ok reader => exact Parser.unclosed_take_le_of_takeAll htaken n
      | error e => simp [hparse, htaken, Except.bind] at h
  exact unclosed_take_concat_le hlast hwords n

/-- A source that is too deep has an opener in its way with as many unclosed before it as there
may be, and none of the places before that is deeper. -/
theorem exists_opener_of_parse_tooDeep {limit : Nat} {position : Position}
    (htokens : tokenize source = .ok tokens) (h : parse source = .error (.tooDeep limit position)) :
    limit = maxNesting ∧ ∃ before opener after, tokens = before ++ opener :: after ∧
      opener.position = position ∧ isOpener opener.kind = true ∧ unclosed before = maxNesting ∧
      ∀ n, unclosed (before.take n) ≤ maxNesting := by
  obtain ⟨words, last, rfl, -, hparse⟩ := exists_parse_eq htokens
  rcases hparse with ⟨-, hempty⟩ | hparse
  · rw [hempty] at h
    cases h
  · rw [hparse] at h
    cases hall : Parser.initial.takeAll words with
    | ok reader =>
      rw [hall] at h
      exact absurd h (Parser.inDepth_finish _ _ _ _ limit position)
    | error e =>
      obtain rfl : e = .tooDeep limit position := by simpa [hall, Except.bind] using h
      obtain ⟨before, opener, after, reader, rfl, htaken, hrefused⟩ :=
        Parser.exists_step_of_takeAll_error hall
      obtain ⟨hlimit, hposition, hopener, hfull⟩ := Parser.unclosed_of_tooDeep htaken hrefused
      have hwithin := Parser.unclosed_take_le_of_takeAll htaken
      exact ⟨hlimit, before, opener, after ++ [last], by simp, hposition, hopener, hfull, hwithin⟩

/-- Tokens that are at no place deeper than the limit are not too deep. -/
theorem inDepth_parse_of_unclosed_take_le (htokens : tokenize source = .ok tokens)
    (h : ∀ n, unclosed (tokens.take n) ≤ maxNesting) : Parser.InDepth (parse source) := by
  intro limit position herror
  obtain ⟨-, before, opener, after, rfl, -, hopener, hfull, -⟩ :=
    exists_opener_of_parse_tooDeep htokens herror
  have hdeeper : unclosed ((before ++ opener :: after).take (before.length + 1)) =
      maxNesting + 1 := by
    rw [unclosed_take_succ (by simp) hopener]
    simpa using hfull
  have := h (before.length + 1)
  omega

/-- **The limit on nesting is exact.** A source that is too deep is so at its first opener that has
128 others unclosed before it. A source that is read has nowhere more than 128 unclosed, and one
that has nowhere more is not too deep. So groups side by side, each of which closes all it opens
within the limit, are never too deep, however many they are. -/
theorem parse_tooDeep_exact (htokens : tokenize source = .ok tokens) :
    (∀ limit position, parse source = .error (.tooDeep limit position) →
      limit = 128 ∧ ∃ i opener, tokens[i]? = some opener ∧ isOpener opener.kind = true ∧
        opener.position = position ∧ unclosed (tokens.take i) = 128 ∧
        ∀ j < i, ∀ other, tokens[j]? = some other → isOpener other.kind = true →
          unclosed (tokens.take j) ≠ 128) ∧
    (∀ program, parse source = .ok program → ∀ n, unclosed (tokens.take n) ≤ 128) ∧
    ((∀ n, unclosed (tokens.take n) ≤ 128) →
      ∀ limit position, parse source ≠ .error (.tooDeep limit position)) ∧
    ∀ (groups : List (List Token)) (last : Token), tokens = groups.flatten ++ [last] →
      (∀ group ∈ groups, unclosed group = 0 ∧ ∀ n, unclosed (group.take n) ≤ 128) →
      ∀ limit position, parse source ≠ .error (.tooDeep limit position) := by
  refine ⟨fun limit position h => ?_, fun program h => unclosed_take_le_of_parse htokens h,
    inDepth_parse_of_unclosed_take_le htokens, fun groups last hgroups hclosed => ?_⟩
  · obtain ⟨hlimit, before, opener, after, rfl, hposition, hopener, hfull, hwithin⟩ :=
      exists_opener_of_parse_tooDeep htokens h
    have htake : (before ++ opener :: after).take before.length = before := by simp
    refine ⟨hlimit, before.length, opener, by simp, hopener, hposition, htake.symm ▸ hfull,
      fun j hj other hother hopens hdeep => ?_⟩
    -- An opener at the limit would have made the tokens up to and including it too deep.
    have hinside := Nat.le_of_lt hj
    rw [List.getElem?_append_left hj] at hother
    rw [List.take_append_of_le_length hinside] at hdeep
    have hdeeper := unclosed_take_succ hother hopens
    have hlimited : unclosed (before.take (j + 1)) ≤ 128 := hwithin (j + 1)
    omega
  · obtain ⟨words, final, rfl, hfinal, -⟩ := exists_parse_eq htokens
    obtain ⟨rfl, -⟩ := List.append_inj' hgroups rfl
    have hwithin := unclosed_take_concat_le hfinal (unclosed_take_flatten hclosed).2
    exact inDepth_parse_of_unclosed_take_le htokens hwithin

set_option maxRecDepth 10000 in
/-- Of 129 opening brackets the last one is too many. -/
theorem parse_tooDeep_exact_of_brackets :
    tokenize (String.ofList (List.replicate 129 '[')) =
      .ok ((List.range 129).map (fun i => ⟨.leftBracket, ⟨1, i + 1, i⟩, ""⟩) ++
        [⟨.endOfInput, ⟨1, 130, 129⟩, ""⟩]) ∧
    parse (String.ofList (List.replicate 129 '[')) = .error (.tooDeep 128 ⟨1, 129, 128⟩) ∧
    unclosed ((List.range 128).map fun i => ⟨.leftBracket, ⟨1, i + 1, i⟩, ""⟩) = 128 := by
  have htokens : tokenize (String.ofList (List.replicate 129 '[')) =
      .ok ((List.range 129).map (fun i => ⟨.leftBracket, ⟨1, i + 1, i⟩, ""⟩) ++
        [⟨.endOfInput, ⟨1, 130, 129⟩, ""⟩]) := rfl
  have herror : parse (String.ofList (List.replicate 129 '[')) =
      .error (.tooDeep 128 ⟨1, 129, 128⟩) := by
    rw [parse, htokens]
    rfl
  refine ⟨htokens, herror, ?_⟩
  obtain ⟨-, i, opener, hopener, -, hposition, hfull, -⟩ :=
    (parse_tooDeep_exact htokens).1 _ _ herror
  obtain rfl : i = 128 := tokenize_position_injective htokens hopener rfl hposition
  exact hfull

end Sluice.Filter
