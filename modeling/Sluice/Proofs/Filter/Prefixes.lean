import Sluice.Proofs.Filter.Positions
import Sluice.Proofs.Filter.Recognition

/-!
# The first token that does not fit

A reader that has come between two tokens can always be led to a whole filter: a closing token for
each construct that is open, after what the current one still needs (`completion`). So a token that
is refused is refused neither too late, since what is before it starts a filter, nor too early,
since nothing that starts with it does.
-/

namespace Sluice.Filter

open Grammar

namespace Parser

/-- A token of a kind, wherever it stands. -/
def mark (kind : TokenKind) : Token := ⟨kind, .start, ""⟩

/-- The kind of token that closes an open construct other than the whole source. -/
def Enclosure.closer : Enclosure → TokenKind
  | source _ _ | parens _ _ => .rightParen
  | array _ => .rightBracket
  | object _ _ => .rightBrace

/-- A closing token for each construct that is open, the innermost first. -/
def closers : List Suspended → Enclosure → List Token
  | [], _ => []
  | outer :: suspended, enclosure => mark enclosure.closer :: closers suspended outer.enclosure

/-- Tokens that make a whole filter of what a reader has read. -/
def completion (parser : Parser) : List Token :=
  let close := closers parser.suspended parser.enclosure
  match parser.mode with
  | .term => mark .word :: close
  | .bracketNumber _ => mark .comma :: close
  | .objectKey => mark .word :: mark .colon :: mark .word :: close
  | .objectColon _ => mark .colon :: mark .word :: close
  | .item | .bracket | .rangeStop _ | .rangeEnd _ | .objectStart | .dot _ | .segment _
  | .operand _ => close

/-- A marked token is of its kind. -/
@[simp] theorem kind_mark (kind : TokenKind) : (mark kind).kind = kind := rfl

/-- A construct is closed by its closing token. -/
theorem Enclosure.rest_closer {enclosure : Enclosure} (ts : List Token)
    (h : ∀ stages items, enclosure ≠ .source stages items) :
    enclosure.Rest (mark enclosure.closer :: ts) ts := by
  cases enclosure with
  | source stages items => exact absurd rfl (h stages items)
  | parens stages items => exact ⟨_, pipelineRest_cons_iff.mpr (Or.inl rfl), rfl⟩
  | array items => exact itemsRest_cons_iff.mpr (Or.inr ⟨rfl, rfl⟩)
  | object entries key => exact ⟨_, .done _, rfl⟩

/-- A suspended expression may end where its inner construct does. -/
theorem Suspended.rest_refl (outer : Suspended) (ts : List Token) : outer.Rest ts ts := by
  unfold Suspended.Rest
  cases outer.steps with
  | none => exact .done _
  | some steps => exact ⟨ts, .done _, .done _⟩

/-- The closing tokens finish what is open. -/
theorem closes_closers {suspended : List Suspended} {enclosure : Enclosure}
    (h : Nested suspended enclosure) :
    Closes suspended enclosure (closers suspended enclosure) := by
  induction suspended generalizing enclosure with
  | nil => exact pipelineRest_nil_iff.mpr rfl
  | cons outer suspended ih =>
    have hinside : ∀ stages items, enclosure ≠ .source stages items := by
      rintro stages items rfl
      exact h
    have houter : Nested suspended outer.enclosure := by
      cases enclosure with
      | source stages items => exact absurd rfl (hinside stages items)
      | parens | array | object => exact h
    exact ⟨_, _, Enclosure.rest_closer _ hinside, outer.rest_refl _, ih houter⟩

/-- The first closing token closes the innermost construct, and the others what is around it. -/
theorem exists_closers_eq {suspended : List Suspended} {enclosure other : Enclosure}
    (h : Nested suspended enclosure) (halike : enclosure.Alike other)
    (hinside : ∀ stages items, other ≠ .source stages items) :
    ∃ ts, closers suspended enclosure = mark other.closer :: ts ∧ Resumes suspended ts := by
  have hcloser : enclosure.closer = other.closer := by
    cases enclosure <;> cases other <;> first | rfl | exact halike.elim
  have hopen := ((nested_congr halike).mp h).ne_nil hinside
  rcases suspended with _ | ⟨outer, suspended⟩
  · contradiction
  · have houter : Nested suspended outer.enclosure := by
      cases enclosure with
      | source => exact h.elim
      | parens | array | object => exact h
    rw [← hcloser]
    exact ⟨_, rfl, _, outer.rest_refl _, closes_closers houter⟩

/-- A name is an expression. -/
theorem binary_word (ts : List Token) : Binary (mark .word :: ts) ts :=
  .mk (.name (Or.inl rfl)) (.done _)

/-- A well-formed reader goes on with its completion. The one thing that no token can mend is a
number after an opening bracket that is not a literal. -/
theorem follows_completion {parser : Parser} (h : parser.WellFormed)
    (hliteral : ∀ first, parser.mode = .bracketNumber first → IsLiteral first.text) :
    parser.Follows parser.completion := by
  obtain ⟨suspended, enclosure, pending, mode⟩ := parser
  obtain ⟨hnested, hfits, -⟩ := h
  have hcloses := closes_closers hnested
  cases mode with
  | term => exact ⟨_, binary_word _, hcloses⟩
  | item =>
    obtain ⟨ts, heq, hresumes⟩ := exists_closers_eq hnested hfits (by simp)
    simp only [completion, Follows, heq]
    exact ⟨ts, (items_closed_iff rfl).mpr rfl, hresumes⟩
  | bracket =>
    obtain ⟨ts, heq, hresumes⟩ := exists_closers_eq hnested hfits (by simp)
    simp only [completion, Follows, heq]
    exact ⟨ts, (bracket_closed_iff rfl).mpr rfl, hresumes⟩
  | bracketNumber first =>
    obtain ⟨ts, heq, hresumes⟩ := exists_closers_eq hnested hfits.1 (by simp)
    simp only [completion, Follows, heq]
    have hitems : Items (mark .rightBracket :: ts) ts := (items_closed_iff rfl).mpr rfl
    refine ⟨ts, (bracket_number_iff hfits.2.1 (by simp) (by simp)).mpr ?_, hresumes⟩
    exact ⟨hliteral first rfl, _, .done _, itemsRest_cons_iff.mpr (Or.inl ⟨rfl, hitems⟩)⟩
  | rangeStop start =>
    obtain ⟨ts, heq, hresumes⟩ := exists_closers_eq hnested hfits (by simp)
    simp only [completion, Follows, heq]
    exact ⟨ts, (rangeRest_cons_of_ne (by simp [Enclosure.closer])).mpr ⟨rfl, rfl⟩, hresumes⟩
  | rangeEnd bounds =>
    obtain ⟨ts, heq, hresumes⟩ := exists_closers_eq hnested hfits (by simp)
    exact ⟨_, ts, heq, rfl, hresumes⟩
  | objectStart =>
    obtain ⟨ts, heq, hresumes⟩ := exists_closers_eq hnested hfits (by simp)
    simp only [completion, Follows, heq]
    exact ⟨ts, (object_closed_iff rfl).mpr rfl, hresumes⟩
  | objectKey =>
    obtain ⟨ts, heq, hresumes⟩ := exists_closers_eq hnested hfits (by simp)
    simp only [completion, Follows, heq]
    exact ⟨_, _, ts, .mk (Or.inl rfl) rfl (binary_word _), .done _, rfl, hresumes⟩
  | objectColon key =>
    obtain ⟨ts, heq, hresumes⟩ := exists_closers_eq hnested hfits (by simp)
    simp only [completion, Follows, heq]
    exact ⟨mark .word, _, _, ts, Or.inl rfl, .mk (Or.inl rfl) rfl (binary_word _), .done _, rfl,
      hresumes⟩
  | dot steps =>
    exact ⟨mark .dot, _, _, rfl, .dot rfl, ⟨_, .done _, .done _⟩, hcloses⟩
  | segment steps => exact ⟨_, ⟨_, .done _, .done _⟩, hcloses⟩
  | operand term => exact ⟨_, .done _, hcloses⟩

/-- The kinds of tokens that completions are made of. -/
def fillers : List TokenKind := [.word, .colon, .comma, .rightParen, .rightBracket, .rightBrace]

/-- A filler opens nothing, and its text is not read as a number. -/
theorem kind_of_mem_fillers :
    ∀ kind ∈ fillers, isOpener kind = false ∧ kind ≠ .endOfInput ∧ kind ≠ .number := by
  decide

/-- Closing tokens are fillers. -/
theorem closers_subset_fillers (suspended : List Suspended) (enclosure : Enclosure) :
    ∀ token ∈ closers suspended enclosure, token.kind ∈ fillers := by
  induction suspended generalizing enclosure with
  | nil => simp [closers]
  | cons outer suspended ih =>
    refine List.forall_mem_cons.mpr ⟨?_, ih _⟩
    cases enclosure <;> simp [Enclosure.closer, fillers]

/-- Completions are made of fillers. -/
theorem completion_subset_fillers (parser : Parser) :
    ∀ token ∈ parser.completion, token.kind ∈ fillers := by
  have hclose := closers_subset_fillers parser.suspended parser.enclosure
  unfold completion
  cases parser.mode with
  | term | bracketNumber | objectColon | objectKey =>
    simp only [List.forall_mem_cons]
    simpa [fillers] using hclose
  | _ => exact hclose

/-- Tokens that open nothing do not nest deeper. -/
theorem shallow_of_not_opener {depth : Nat} {ts : List Token} (hdepth : depth ≤ maxNesting)
    (h : ∀ t ∈ ts, isOpener t.kind = false) : Shallow depth ts := by
  intro before hbefore
  have hnone : before.countP (isOpener ·.kind) = 0 :=
    List.countP_eq_zero.mpr fun t ht => by simp [h t (hbefore.subset ht)]
  omega

/-- A well-formed reader gets through its completion. -/
theorem run_completion {parser : Parser} (h : parser.WellFormed)
    (hliteral : ∀ first, parser.mode = .bracketNumber first → IsLiteral first.text) {last : Token}
    (hlast : last.kind = .endOfInput) :
    ∃ program, parser.run (parser.completion ++ [last]) = .ok program := by
  have hkinds (token : Token) (htoken : token ∈ parser.completion) :=
    kind_of_mem_fillers _ (parser.completion_subset_fillers token htoken)
  rw [run_ok_iff h hlast fun token htoken =>
    ⟨(hkinds token htoken).2.1, fun hkind => absurd hkind (hkinds token htoken).2.2⟩]
  have hshallow : Shallow parser.suspended.length parser.completion :=
    shallow_of_not_opener h.bounded fun token htoken => (hkinds token htoken).1
  exact ⟨follows_completion h hliteral, hshallow⟩

/-- Whether a result that blames a token blames the given one. -/
def Blames {α : Type} (token : Token) (result : Except SyntaxError α) : Prop :=
  ∀ expected found, result = .error (.unexpected expected found) → found = token

section Blames

variable {α β : Type} {token : Token}

/-- A result that is not an error blames no token. -/
@[simp] theorem blames_ok (x : α) : Blames token (.ok x : Except SyntaxError α) := by
  rintro expected found ⟨⟩

/-- A refused token is the one that is blamed. -/
@[simp] theorem blames_unexpected (expected : Expectation) :
    Blames token (.error (.unexpected expected token) : Except SyntaxError α) := by
  rintro _ _ ⟨⟩
  rfl

/-- Two steps blame a token if each of them does. -/
theorem Blames.bind {result : Except SyntaxError α} {next : α → Except SyntaxError β}
    (h : Blames token result) (hnext : ∀ x, Blames token (next x)) :
    Blames token (result.bind next) := by
  intro expected found heq
  cases result with
  | ok x => exact hnext x expected found heq
  | error e => exact h expected found (by simpa [Except.bind] using heq)

/-- A function of a result makes no errors. -/
theorem error_of_map_error {result : Except SyntaxError α} {f : α → β} {e : SyntaxError}
    (h : result.map f = .error e) : result = .error e := by
  cases result with
  | ok x => cases h
  | error e => simpa [Except.map] using h

/-- A function of a result leaves whom its error blames. -/
theorem Blames.map {result : Except SyntaxError α} (h : Blames token result) (f : α → β) :
    Blames token (result.map f) :=
  fun expected found heq => h expected found (error_of_map_error heq)

/-- A malformed number is an error of its own. -/
theorem literal_ne_unexpected (number : Token) (expected : Expectation) (found : Token) :
    literal number ≠ .error (.unexpected expected found) := by
  unfold literal
  split <;> simp

/-- Reading a number as a position blames no token. -/
theorem position_ne_unexpected (number : Token) (expected : Expectation) (found : Token) :
    position number ≠ .error (.unexpected expected found) := by
  unfold position
  split <;> simp

/-- Reading a number as a literal blames no other token. -/
theorem blames_literal (number : Token) : Blames token (literal number) :=
  fun _ _ heq => absurd heq (literal_ne_unexpected _ _ _)

/-- Reading a number as a position blames no other token. -/
theorem blames_position (number : Token) : Blames token (position number) :=
  fun _ _ heq => absurd heq (position_ne_unexpected _ _ _)

variable (parser : Parser)

/-- Opening a construct blames no other token. -/
theorem blames_descend (steps : Option (List Node)) (enclosure : Enclosure) (mode : Mode)
    (opener : Token) : Blames token (parser.descend steps enclosure mode opener) := by
  unfold descend
  split <;> rintro expected found ⟨⟩

/-- Behind an expression only the next token is blamed. -/
theorem blames_afterExpression (expression : Node) :
    Blames token (parser.afterExpression expression token) := by
  unfold afterExpression
  split <;> split <;> simp

/-- Behind a term only the next token is blamed. -/
theorem blames_afterTerm (term : Node) : Blames token (parser.afterTerm term token) := by
  unfold afterTerm
  split
  · exact blames_ok _
  · exact blames_afterExpression _ _

/-- Behind a segment only the next token is blamed. -/
theorem blames_afterSegment (steps : List Node) :
    Blames token (parser.afterSegment steps token) := by
  unfold afterSegment
  split
  · exact blames_ok _
  · exact blames_descend _ _ _ _ _
  · exact blames_afterTerm _ _

/-- At the start of a term only the next token is blamed. -/
theorem blames_startTerm : Blames token (parser.startTerm token) := by
  unfold startTerm
  split
  · exact blames_ok _
  · exact (blames_literal _).map _
  · exact blames_ok _
  · exact blames_ok _
  · exact blames_descend _ _ _ _ _
  · exact blames_descend _ _ _ _ _
  · exact blames_descend _ _ _ _ _
  · exact blames_unexpected _

/-- A reader blames no other token than the one it takes. -/
theorem blames_step : Blames token (parser.step token) := by
  unfold step
  cases parser.mode with
  | term => exact blames_startTerm _
  | item =>
    simp only
    split
    · exact blames_ok _
    · exact blames_startTerm _
  | bracket =>
    simp only
    split
    · exact blames_ok _
    · exact blames_ok _
    · exact blames_ok _
    · exact blames_startTerm _
  | bracketNumber first =>
    simp only
    split
    · exact (blames_position _).map _
    · exact (blames_position _).map _
    · exact (blames_literal _).bind fun _ => blames_afterTerm _ _
  | rangeStop start =>
    simp only
    split
    · exact (blames_position _).map _
    · exact blames_ok _
    · exact blames_unexpected _
  | rangeEnd | objectStart | objectKey | objectColon => simp only; split <;> simp
  | dot steps =>
    simp only
    split
    · exact blames_ok _
    · exact blames_ok _
    · exact blames_descend _ _ _ _ _
    · exact blames_afterSegment _ _
  | segment steps => exact blames_afterSegment _ _
  | operand term => exact blames_afterTerm _ _

/-- Where the source ends only the end of input is blamed. -/
theorem blames_lastTerm (mode : Mode) : Blames token (lastTerm mode token) := by
  cases mode with
  | bracketNumber first => exact (blames_literal _).map _
  | _ => simp [lastTerm]

/-- At the end of the input, no other token is blamed than that. -/
theorem blames_finish (suspended : List Suspended) (enclosure : Enclosure) (pending : Pending)
    (mode : Mode) : Blames token (finish suspended enclosure pending mode token) := by
  induction suspended generalizing enclosure pending mode with
  | nil =>
    unfold finish
    refine (blames_lastTerm mode).bind fun term => ?_
    cases enclosure <;> simp
  | cons outer suspended ih =>
    unfold finish
    refine (blames_lastTerm mode).bind fun term => ?_
    cases enclosure with
    | array items => exact ih _ _ _
    | _ => simp

end Blames

/-- Whether a reader fails at a token, which may be the end of input. -/
def Refuses (parser : Parser) (token : Token) (e : SyntaxError) : Prop :=
  (token.kind ≠ .endOfInput ∧ parser.step token = .error e) ∨
    (token.kind = .endOfInput ∧
      finish parser.suspended parser.enclosure parser.pending parser.mode token = .error e)

variable {parser : Parser} {token : Token} {e : SyntaxError}

/-- Whatever stands behind a token that is refused is not looked at. -/
theorem Refuses.run_eq (h : parser.Refuses token e) (rest : List Token) :
    parser.run (token :: rest) = .error e := by
  rcases h with ⟨hkind, hstep⟩ | ⟨hkind, hfinish⟩
  · simp [run, hkind, hstep, Except.bind]
  · simp [run, hkind, hfinish]

/-- The token that is refused is the one in the error. -/
theorem Refuses.found_eq {expected : Expectation} {found : Token}
    (h : parser.Refuses token (.unexpected expected found)) : found = token := by
  rcases h with ⟨_, hstep⟩ | ⟨_, hfinish⟩
  · exact parser.blames_step expected found hstep
  · exact blames_finish _ _ _ _ expected found hfinish

/-- A reader that blames the token after a number in a bracket has read the number as a literal. -/
theorem Refuses.literal {first : Token} {expected : Expectation} {found : Token}
    (h : parser.Refuses token (.unexpected expected found)) (hparser : parser.WellFormed)
    (hmode : parser.mode = .bracketNumber first) : IsLiteral first.text := by
  have hfits := hparser.fits
  rw [hmode] at hfits
  rw [← isSome_float?_iff hfits.2.2]
  cases hfloat : Decimal.float? first.text.toList with
  | some x => rfl
  | none =>
    have hliteral : Parser.literal first = .error (.invalidNumber first.text first.position) := by
      simp [Parser.literal, hfloat]
    exfalso
    rcases h with ⟨_, hstep⟩ | ⟨_, hfinish⟩
    · simp only [step, hmode] at hstep
      split at hstep
      · exact position_ne_unexpected _ _ _ (error_of_map_error hstep)
      · exact position_ne_unexpected _ _ _ (error_of_map_error hstep)
      · simp [hliteral, Except.bind] at hstep
    · unfold finish at hfinish
      simp [hmode, lastTerm, hliteral, Except.map, Except.bind] at hfinish

/-- A run that fails has come, with all that is before a token, to a reader that refuses the
token. -/
theorem exists_refuses {words : List Token} {last : Token} (h : parser.WellFormed)
    (hlast : last.kind = .endOfInput)
    (hwords : ∀ word ∈ words, word.kind ≠ .endOfInput ∧
      (word.kind = .number → IsNumberText word.text))
    (herror : parser.run (words ++ [last]) = .error e) :
    ∃ (before after : List Token) (found : Token) (middle : Parser),
      words ++ [last] = before ++ found :: after ∧
      (∀ token ∈ before, token.kind ≠ .endOfInput) ∧
      (∀ rest, parser.run (before ++ rest) = middle.run rest) ∧
      middle.WellFormed ∧ middle.Refuses found e := by
  induction words generalizing parser with
  | nil =>
    have hfinish : parser.Refuses last e := Or.inr ⟨hlast, by simpa [run, hlast] using herror⟩
    exact ⟨[], [], last, parser, rfl, by simp, fun _ => rfl, h, hfinish⟩
  | cons word words ih =>
    obtain ⟨⟨hkind, hnumber⟩, hrest⟩ := List.forall_mem_cons.mp hwords
    cases hstep : parser.step word with
    | error e' =>
      have heq : e' = e := by simpa [run, hkind, hstep, Except.bind] using herror
      exact ⟨[], words ++ [last], word, parser, rfl, by simp, fun _ => rfl, h,
        Or.inl ⟨hkind, heq ▸ hstep⟩⟩
    | ok next =>
      have hleads : Leads (parser.step word) words (parser.Viable (word :: words)) :=
        step_leads h hnumber
      rw [hstep] at hleads
      have hnext : next.run (words ++ [last]) = .error e := by
        simpa [run, hkind, hstep, Except.bind] using herror
      obtain ⟨before, after, found, middle, heq, hbefore, hrun, hmiddle, hrefuses⟩ :=
        ih hleads.1 hrest hnext
      refine ⟨word :: before, after, found, middle, by simp [heq],
        List.forall_mem_cons.mpr ⟨hkind, hbefore⟩, fun rest => ?_, hmiddle, hrefuses⟩
      simpa [run, hkind, hstep, Except.bind] using hrun rest

end Parser

/-- What the machine reads is read, and so is the end of input alone. -/
theorem exists_parseTokens {words : List Token} {last : Token}
    (hwords : ∀ word ∈ words, word.kind ≠ .endOfInput) (hlast : last.kind = .endOfInput)
    (h : ∃ program, Parser.initial.run (words ++ [last]) = .ok program) :
    ∃ program, parseTokens (words ++ [last]) = .ok program := by
  cases words with
  | nil => exact ⟨[], by simp [parseTokens, hlast]⟩
  | cons word words =>
    have hword := hwords word List.mem_cons_self
    simpa [parseTokens, hword] using h

/-- A source that is not read has a token that a reader refuses, and the reader has come there
through all tokens before it. -/
theorem exists_refuses_of_parse {source : String} {tokens : List Token} {e : SyntaxError}
    (htokens : tokenize source = .ok tokens) (h : parse source = .error e) :
    ∃ (before after : List Token) (found : Token) (reader : Parser),
      tokens = before ++ found :: after ∧ (∀ token ∈ before, token.kind ≠ .endOfInput) ∧
      (∀ rest, parseTokens (before ++ found :: rest) = .error e) ∧
      (∀ rest, Parser.initial.run (before ++ rest) = reader.run rest) ∧
      reader.WellFormed ∧ reader.Refuses found e := by
  obtain ⟨words, last, rfl, hlast, hwords⟩ := tokenize_shape htokens
  simp only [parse, htokens, Except.bind] at h
  cases words with
  | nil => simp [parseTokens, hlast] at h
  | cons word words =>
    have hword := (hwords word List.mem_cons_self).1
    have hrun : Parser.initial.run (word :: words ++ [last]) = .error e := by
      simpa [parseTokens, hword] using h
    obtain ⟨before, after, found, reader, heq, hbefore, hreads, hreader, hrefuses⟩ :=
      Parser.exists_refuses Parser.initial_wellFormed hlast hwords hrun
    refine ⟨before, after, found, reader, heq, hbefore, fun rest => ?_, hreads, hreader, hrefuses⟩
    have hrefused := (hreads (found :: rest)).trans (hrefuses.run_eq rest)
    cases before with
    | nil =>
      obtain ⟨rfl, -⟩ := List.cons.inj heq
      simpa [parseTokens, hword] using hrefused
    | cons first before =>
      have hfirst := hbefore first List.mem_cons_self
      simpa [parseTokens, hfirst] using hrefused

/-- **The token that is blamed is the first one that does not fit.** An error about a token that
does not fit points at exactly one token of the source. No filter starts with the tokens up to and
including that one, and some filter starts with the tokens before it. -/
theorem parse_unexpected_first {source : String} {tokens : List Token} {expected : Expectation}
    {found : Token} (htokens : tokenize source = .ok tokens)
    (h : parse source = .error (.unexpected expected found)) :
    ∃ i, tokens[i]? = some found ∧
      (∀ j token, tokens[j]? = some token → token.position = found.position → j = i) ∧
      (∀ rest, ¬ ∃ program, parseTokens (tokens.take (i + 1) ++ rest) = .ok program) ∧
      ∃ words last, (∀ word ∈ words, word.kind ≠ .endOfInput) ∧ last.kind = .endOfInput ∧
        ∃ program, parseTokens (tokens.take i ++ words ++ [last]) = .ok program := by
  obtain ⟨before, after, token, reader, rfl, hbefore, hrefused, hreads, hreader, hrefuses⟩ :=
    exists_refuses_of_parse htokens h
  obtain rfl := hrefuses.found_eq
  have hfound : (before ++ found :: after)[before.length]? = some found := by simp
  have hbeforeTake : (before ++ found :: after).take before.length = before := by simp
  have hfoundTake : (before ++ found :: after).take (before.length + 1) = before ++ [found] := by
    simp [List.take_append, List.take_of_length_le]
  refine ⟨before.length, hfound, fun j other hother hposition =>
    tokenize_position_injective htokens hother hfound hposition, ?_, ?_⟩
  · rintro rest ⟨program, hprogram⟩
    rw [hfoundTake, List.append_assoc, List.singleton_append, hrefused] at hprogram
    cases hprogram
  · have hliteral : ∀ first, reader.mode = .bracketNumber first → IsLiteral first.text :=
      fun first hmode => hrefuses.literal hreader hmode
    have hkinds : ∀ token ∈ reader.completion, token.kind ≠ .endOfInput := fun token htoken =>
      (Parser.kind_of_mem_fillers _ (reader.completion_subset_fillers token htoken)).2.1
    have hlast : (Parser.mark .endOfInput).kind = .endOfInput := rfl
    refine ⟨reader.completion, Parser.mark .endOfInput, hkinds, hlast, ?_⟩
    rw [hbeforeTake]
    refine exists_parseTokens (List.forall_mem_append.mpr ⟨hbefore, hkinds⟩) hlast ?_
    rw [List.append_assoc, hreads]
    exact Parser.run_completion hreader hliteral hlast

/-- In an unfinished range the name is blamed, so nothing that starts with `.[:x` is a filter. -/
theorem parse_unexpected_first_of_range :
    tokenize ".[:x" = .ok [⟨.dot, ⟨1, 1, 0⟩, ""⟩, ⟨.leftBracket, ⟨1, 2, 1⟩, ""⟩,
      ⟨.colon, ⟨1, 3, 2⟩, ""⟩, ⟨.word, ⟨1, 4, 3⟩, "x"⟩, ⟨.endOfInput, ⟨1, 5, 4⟩, ""⟩] ∧
    parse ".[:x" = .error (.unexpected .closingRange ⟨.word, ⟨1, 4, 3⟩, "x"⟩) ∧
    ∀ rest, ¬ ∃ program, parseTokens (⟨.dot, ⟨1, 1, 0⟩, ""⟩ :: ⟨.leftBracket, ⟨1, 2, 1⟩, ""⟩ ::
      ⟨.colon, ⟨1, 3, 2⟩, ""⟩ :: ⟨.word, ⟨1, 4, 3⟩, "x"⟩ :: rest) = .ok program := by
  have htokens : tokenize ".[:x" = .ok [⟨.dot, ⟨1, 1, 0⟩, ""⟩, ⟨.leftBracket, ⟨1, 2, 1⟩, ""⟩,
      ⟨.colon, ⟨1, 3, 2⟩, ""⟩, ⟨.word, ⟨1, 4, 3⟩, "x"⟩, ⟨.endOfInput, ⟨1, 5, 4⟩, ""⟩] := rfl
  have herror : parse ".[:x" = .error (.unexpected .closingRange ⟨.word, ⟨1, 4, 3⟩, "x"⟩) := rfl
  refine ⟨htokens, herror, ?_⟩
  obtain ⟨i, -, honly, hnone, -⟩ := parse_unexpected_first htokens herror
  obtain rfl : 3 = i := honly 3 ⟨.word, ⟨1, 4, 3⟩, "x"⟩ rfl rfl
  exact hnone

end Sluice.Filter
