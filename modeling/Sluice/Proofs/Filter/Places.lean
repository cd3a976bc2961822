import Sluice.Proofs.Filter.Layout
import Sluice.Proofs.Filter.Prefixes

/-!
# What stands at the place of a token

A token points at its own text unless newlines stand there, which only happens to barewords: the
place is where the scanner starts to read, and newlines before a bareword are trimmed off later.
Every error of the reader is about one token of the source (`exists_isAbout_of_parse`), so it points
at what it complains about in exactly the same cases.
-/

namespace Sluice.Filter

open Grammar

/-- Whether a source goes on with a given text at a place. -/
def Position.Shows (position : Position) (source : String) (text : List Char) : Prop :=
  ∃ before after, source.toList = before ++ text ++ after ∧ position = .after before

namespace Position

/-- The text before a place is determined by the place. -/
theorem append_inj_of_after_eq {before other rest more : List Char}
    (h : before ++ rest = other ++ more) (hplace : after before = after other) :
    before = other ∧ rest = more := by
  have hempty {short long tail : List Char} (hlong : long = short ++ tail)
      (heq : after short = after long) : tail = [] := by
    have hsize : (String.ofList short).utf8ByteSize = (String.ofList long).utf8ByteSize :=
      congrArg Position.offset heq
    rw [hlong, String.ofList_append, String.utf8ByteSize_append] at hsize
    have hzero : (String.ofList tail).utf8ByteSize = 0 := by omega
    have hnil := congrArg String.toList (String.utf8ByteSize_eq_zero_iff.mp hzero)
    simpa using hnil
  rcases List.append_eq_append_iff.mp h with ⟨tail, hother, hrest⟩ | ⟨tail, hbefore, hmore⟩
  · obtain rfl := hempty hother hplace
    simp_all
  · obtain rfl := hempty hbefore hplace.symm
    simp_all

variable {position : Position} {source : String} {text : List Char}

/-- A place that shows a text shows the start of it. -/
theorem Shows.take {more : List Char} (h : position.Shows source (text ++ more)) :
    position.Shows source text := by
  obtain ⟨before, after, heq, hposition⟩ := h
  exact ⟨before, more ++ after, by simpa using heq, hposition⟩

/-- At one place stands one character. -/
theorem Shows.head_eq {c d : Char} {cs ds : List Char} (h : position.Shows source (c :: cs))
    (hother : position.Shows source (d :: ds)) : c = d := by
  obtain ⟨before, after, heq, rfl⟩ := h
  obtain ⟨other, behind, heq', hplace⟩ := hother
  have hwhole : before ++ (c :: cs ++ after) = other ++ (d :: ds ++ behind) := by
    rw [← List.append_assoc, ← heq, heq', List.append_assoc]
  have hrest := (append_inj_of_after_eq hwhole hplace).2
  exact (List.cons.inj hrest).1

end Position

/-- What is written of a token starts with what it is spelled like. -/
theorem Token.IsWritten.exists_append {token : Token} {written after : List Char}
    (h : token.IsWritten written after) : ∃ closing, written = token.spelling ++ closing := by
  unfold IsWritten at h
  split at h
  · rcases h with rfl | ⟨rfl, _⟩
    · exact ⟨['"'], rfl⟩
    · exact ⟨[], by simp⟩
  · exact ⟨[], by simpa using h⟩

/-- A token is spelled with a character that is no newline, and maybe more. -/
theorem Token.Stands.exists_spelling {token : Token} {before lines written after : List Char}
    (h : token.Stands before lines written after) :
    ∃ c cs, token.spelling = c :: cs ∧ c ≠ '\n' := by
  have hwritten := h.isWritten
  unfold IsWritten at hwritten
  split at hwritten
  next hkind => exact ⟨'"', token.text.toList, by simp [spelling, hkind], by decide⟩
  next =>
    obtain ⟨c, cs, hcons⟩ := List.exists_cons_of_ne_nil h.written_ne
    exact ⟨c, cs, hwritten.symm.trans hcons, h.ne_newline c (by rw [hcons]; rfl)⟩

/-- Every token but the end of input is spelled with some characters, and no newline is the first of
them. -/
theorem exists_spelling_of_mem_tokens {source : String} {token : Token}
    (hmem : token ∈ (Scanner.ofText source).tokens) (hkind : token.kind ≠ .endOfInput) :
    ∃ c cs, token.spelling = c :: cs ∧ c ≠ '\n' := by
  obtain ⟨_, _, _, _, -, hstands⟩ := (laidOut_tokens source).exists_stands_of_mem hmem hkind
  exact hstands.exists_spelling

/-- A token stands at its place, or behind newlines that stand there. -/
theorem shows_of_mem_tokens {source : String} {token : Token}
    (hmem : token ∈ (Scanner.ofText source).tokens) (hkind : token.kind ≠ .endOfInput) :
    (∃ lines, (∀ c ∈ lines, c = '\n') ∧ token.position.Shows source (lines ++ token.spelling)) ∧
      (token.position.Shows source ['\n'] → token.kind = .word) ∧
      (token.position.Shows source token.spelling ↔ ¬ token.position.Shows source ['\n']) := by
  obtain ⟨before, lines, written, after, heq, hstands⟩ :=
    (laidOut_tokens source).exists_stands_of_mem hmem hkind
  obtain ⟨c, cs, hspelling, hc⟩ := hstands.exists_spelling
  obtain ⟨closing, rfl⟩ := hstands.isWritten.exists_append
  have hthere : token.position.Shows source (lines ++ token.spelling) := by
    refine ⟨before, closing ++ after, ?_, hstands.position_eq⟩
    rw [List.nil_append] at heq
    simpa only [List.append_assoc] using heq
  have hnot (hshows : token.position.Shows source token.spelling) :
      ¬ token.position.Shows source ['\n'] := fun hline => by
    rw [hspelling] at hshows
    exact hc (hshows.head_eq hline)
  cases lines with
  | nil =>
    have hnewline : ¬ token.position.Shows source ['\n'] := hnot hthere
    exact ⟨⟨[], by simp, hthere⟩, fun hline => absurd hline hnewline, hnot, fun _ => hthere⟩
  | cons d lines =>
    have hword : token.kind = .word := hstands.kind_eq_word (List.cons_ne_nil _ _)
    obtain rfl : d = '\n' := hstands.eq_newline d List.mem_cons_self
    have hline : token.position.Shows source ['\n'] :=
      @Position.Shows.take _ _ ['\n'] _ hthere
    exact ⟨⟨_, hstands.eq_newline, hthere⟩, fun _ => hword, hnot, fun hno => absurd hline hno⟩

/-- Whether an error is about a token, and points at the place of it. -/
def SyntaxError.IsAbout (token : Token) : SyntaxError → Prop
  | illegalCharacter c position =>
    token.kind = .illegal ∧ c = token.text.toList.headD '\x00' ∧ position = token.position
  | unexpected _ found => found = token
  | tooDeep _ position => isOpener token.kind = true ∧ position = token.position
  | invalidNumber text position =>
    token.kind = .number ∧ text = token.text ∧ position = token.position

/-- An error is at the place of the token it is about. -/
theorem SyntaxError.IsAbout.position_eq {token : Token} {e : SyntaxError} (h : e.IsAbout token) :
    e.position = token.position := by
  cases e with
  | illegalCharacter | invalidNumber => exact h.2.2
  | unexpected => exact congrArg Token.position h
  | tooDeep => exact h.2

namespace Parser

/-- A number that has been taken and not been read yet. -/
def Mode.number? : Mode → Option Token
  | bracketNumber token => some token
  | _ => none

/-- Whether a result is explained by some tokens: an error is about one of them, and a reader that
goes on has kept no number but one of them. -/
def Explained (tokens : List Token) : Except SyntaxError Parser → Prop
  | .ok next => ∀ number ∈ next.mode.number?, number ∈ tokens ∧ number.kind = .number
  | .error e => ∃ token ∈ tokens, e.IsAbout token

section Explained

variable {α : Type} {tokens : List Token} {token : Token} {parser : Parser}

/-- A reader that keeps no number has nothing to explain. -/
theorem explained_ok {next : Parser} (h : next.mode.number? = none) :
    Explained tokens (.ok next) := by
  intro number hnumber
  rw [h] at hnumber
  cases hnumber

/-- A token that is refused explains the error. -/
theorem explained_unexpected (hmem : token ∈ tokens) (expected : Expectation) :
    Explained tokens (.error (.unexpected expected token)) :=
  ⟨token, hmem, rfl⟩

/-- A number that cannot be read explains why. -/
theorem exists_isAbout_of_literal (hmem : token ∈ tokens) (hkind : token.kind = .number)
    {e : SyntaxError} (h : literal token = .error e) : ∃ token ∈ tokens, e.IsAbout token := by
  unfold literal at h
  split at h
  · cases h
  · cases h
    exact ⟨token, hmem, hkind, rfl, rfl⟩

/-- A number that is no position explains the error. -/
theorem exists_isAbout_of_position (hmem : token ∈ tokens) (hkind : token.kind = .number)
    {e : SyntaxError} (h : position token = .error e) : ∃ token ∈ tokens, e.IsAbout token := by
  unfold position at h
  split at h
  · cases h
  · cases h
    exact ⟨token, hmem, hkind, rfl, rfl⟩

/-- Two steps are explained if the error of the first and the result of the second are. -/
theorem explained_bind {result : Except SyntaxError α} {next : α → Except SyntaxError Parser}
    (h : ∀ e, result = .error e → ∃ token ∈ tokens, e.IsAbout token)
    (hnext : ∀ x, Explained tokens (next x)) : Explained tokens (result.bind next) := by
  cases result with
  | ok x => exact hnext x
  | error e => exact h e rfl

/-- A reader made of a result is explained if the error is. -/
theorem explained_map {result : Except SyntaxError α} {next : α → Parser}
    (h : ∀ e, result = .error e → ∃ token ∈ tokens, e.IsAbout token)
    (hnext : ∀ x, (next x).mode.number? = none) : Explained tokens (result.map next) := by
  cases result with
  | ok x => exact explained_ok (hnext x)
  | error e => exact h e rfl

/-- Behind a construct that has closed no number is kept. -/
theorem number?_ascend (parser : Parser) (inner : Node) :
    (parser.ascend inner).mode.number? = none := by
  unfold ascend
  split
  · rfl
  · unfold Suspended.resume
    split <;> rfl

/-- Opening a construct is explained by the opening token. -/
theorem explained_descend (hmem : token ∈ tokens) (hopener : isOpener token.kind = true)
    (steps : Option (List Node)) (enclosure : Enclosure) {mode : Mode}
    (hmode : mode.number? = none) :
    Explained tokens (parser.descend steps enclosure mode token) := by
  unfold descend
  split
  · exact ⟨token, hmem, hopener, rfl⟩
  · exact explained_ok hmode

/-- Behind an expression the next token explains the result. -/
theorem explained_afterExpression (hmem : token ∈ tokens) (expression : Node) :
    Explained tokens (parser.afterExpression expression token) := by
  unfold afterExpression
  split <;> split
  all_goals first
    | exact explained_unexpected hmem _
    | exact explained_ok (number?_ascend _ _)
    | exact explained_ok rfl

/-- Behind a term the next token explains the result. -/
theorem explained_afterTerm (hmem : token ∈ tokens) (term : Node) :
    Explained tokens (parser.afterTerm term token) := by
  unfold afterTerm
  split
  · exact explained_ok rfl
  · exact explained_afterExpression hmem _

/-- Behind a segment the next token explains the result. -/
theorem explained_afterSegment (hmem : token ∈ tokens) (steps : List Node) :
    Explained tokens (parser.afterSegment steps token) := by
  unfold afterSegment
  split
  next => exact explained_ok rfl
  next hkind => exact explained_descend hmem (by rw [hkind]; rfl) _ _ rfl
  next => exact explained_afterTerm hmem _

/-- At the start of a term the next token explains the result. -/
theorem explained_startTerm (hmem : token ∈ tokens) :
    Explained tokens (parser.startTerm token) := by
  unfold startTerm
  split
  next => exact explained_ok rfl
  next hkind => exact explained_map (fun _ => exists_isAbout_of_literal hmem hkind) fun _ => rfl
  next => exact explained_ok rfl
  next => exact explained_ok rfl
  next hkind => exact explained_descend hmem (by rw [hkind]; rfl) _ _ rfl
  next hkind => exact explained_descend hmem (by rw [hkind]; rfl) _ _ rfl
  next hkind => exact explained_descend hmem (by rw [hkind]; rfl) _ _ rfl
  next => exact explained_unexpected hmem _

/-- A token explains what comes of taking it, together with a number that has been kept. -/
theorem explained_step (hmem : token ∈ tokens)
    (hkept : ∀ number ∈ parser.mode.number?, number ∈ tokens ∧ number.kind = .number) :
    Explained tokens (parser.step token) := by
  unfold step
  cases hmode : parser.mode with
  | term => exact explained_startTerm hmem
  | item =>
    simp only
    split
    · exact explained_ok (number?_ascend _ _)
    · exact explained_startTerm hmem
  | bracket =>
    simp only
    split
    next => exact explained_ok (number?_ascend _ _)
    next hkind =>
      rintro number ⟨⟩
      exact ⟨hmem, hkind⟩
    next => exact explained_ok rfl
    next => exact explained_startTerm hmem
  | bracketNumber first =>
    obtain ⟨hfirst, hnumber⟩ := hkept first (by rw [hmode]; rfl)
    simp only
    split
    · exact explained_map (fun _ => exists_isAbout_of_position hfirst hnumber) fun _ =>
        number?_ascend _ _
    · exact explained_map (fun _ => exists_isAbout_of_position hfirst hnumber) fun _ => rfl
    · exact explained_bind (fun _ => exists_isAbout_of_literal hfirst hnumber) fun _ =>
        explained_afterTerm hmem _
  | rangeStop start =>
    simp only
    split
    next hkind => exact explained_map (fun _ => exists_isAbout_of_position hmem hkind) fun _ => rfl
    next => exact explained_ok (number?_ascend _ _)
    next => exact explained_unexpected hmem _
  | rangeEnd bounds =>
    simp only
    split
    · exact explained_ok (number?_ascend _ _)
    · exact explained_unexpected hmem _
  | objectStart =>
    simp only
    split
    · exact explained_ok (number?_ascend _ _)
    · exact explained_ok rfl
    · exact explained_ok rfl
    · exact explained_unexpected hmem _
  | objectKey =>
    simp only
    split
    · exact explained_ok rfl
    · exact explained_ok rfl
    · exact explained_unexpected hmem _
  | objectColon key =>
    simp only
    split
    · exact explained_ok rfl
    · exact explained_unexpected hmem _
  | dot steps =>
    simp only
    split
    next => exact explained_ok rfl
    next => exact explained_ok rfl
    next hkind => exact explained_descend hmem (by rw [hkind]; rfl) _ _ rfl
    next => exact explained_afterSegment hmem _
  | segment steps => exact explained_afterSegment hmem _
  | operand term => exact explained_afterTerm hmem _

end Explained

section Runs

variable {tokens words : List Token} {last : Token} {parser : Parser} {e : SyntaxError}

/-- An error in the last term is about the last token, or about a number that is kept. -/
theorem exists_isAbout_of_lastTerm (hlast : last ∈ tokens) {mode : Mode}
    (hkept : ∀ number ∈ mode.number?, number ∈ tokens ∧ number.kind = .number)
    (h : lastTerm mode last = .error e) : ∃ token ∈ tokens, e.IsAbout token := by
  cases mode with
  | item | bracket | dot | segment | operand => cases h
  | bracketNumber first =>
    obtain ⟨hfirst, hnumber⟩ := hkept first rfl
    exact exists_isAbout_of_literal hfirst hnumber (error_of_map_error h)
  | term | rangeStop | rangeEnd | objectStart | objectKey | objectColon =>
    cases h
    exact ⟨last, hlast, rfl⟩

/-- An error at the end of the input is about the last token, or about a number that is kept. -/
theorem exists_isAbout_of_finish (hlast : last ∈ tokens) {suspended : List Suspended}
    {enclosure : Enclosure} {pending : Pending} {mode : Mode}
    (hkept : ∀ number ∈ mode.number?, number ∈ tokens ∧ number.kind = .number)
    (h : finish suspended enclosure pending mode last = .error e) :
    ∃ token ∈ tokens, e.IsAbout token := by
  induction suspended generalizing enclosure pending mode with
  | nil =>
    unfold finish at h
    cases hterm : lastTerm mode last with
    | error e' =>
      obtain rfl : e' = e := by simpa [hterm, Except.bind] using h
      exact exists_isAbout_of_lastTerm hlast hkept hterm
    | ok term =>
      rw [hterm] at h
      cases enclosure with
      | source | array => cases h
      | parens | object =>
        cases h
        exact ⟨last, hlast, rfl⟩
  | cons outer suspended ih =>
    unfold finish at h
    cases hterm : lastTerm mode last with
    | error e' =>
      obtain rfl : e' = e := by simpa [hterm, Except.bind] using h
      exact exists_isAbout_of_lastTerm hlast hkept hterm
    | ok term =>
      rw [hterm] at h
      cases enclosure with
      | source => cases h
      | parens | object =>
        cases h
        exact ⟨last, hlast, rfl⟩
      | array items =>
        refine ih ?_ h
        unfold Suspended.resume
        split <;> simp [Mode.number?]

/-- A run that fails does so because of one of its tokens. -/
theorem exists_isAbout_of_run (hwords : ∀ word ∈ words, word ∈ tokens ∧ word.kind ≠ .endOfInput)
    (hlast : last ∈ tokens) (hend : last.kind = .endOfInput)
    (hkept : ∀ number ∈ parser.mode.number?, number ∈ tokens ∧ number.kind = .number)
    (h : parser.run (words ++ [last]) = .error e) : ∃ token ∈ tokens, e.IsAbout token := by
  induction words generalizing parser with
  | nil => exact exists_isAbout_of_finish hlast hkept (by simpa [run, hend] using h)
  | cons word words ih =>
    obtain ⟨⟨hmem, hkind⟩, hrest⟩ := List.forall_mem_cons.mp hwords
    have hexplained : Explained tokens (parser.step word) := explained_step hmem hkept
    cases hstep : parser.step word with
    | error e' =>
      obtain rfl : e' = e := by simpa [run, hkind, hstep, Except.bind] using h
      rw [hstep] at hexplained
      exact hexplained
    | ok next =>
      rw [hstep] at hexplained
      exact ih hrest hexplained (by simpa [run, hkind, hstep, Except.bind] using h)

end Runs

end Parser

/-- Every error of the reader is about a token of the source, and points at the place of it. -/
theorem exists_isAbout_of_parse {source : String} {e : SyntaxError}
    (h : parse source = .error e) : ∃ token ∈ (Scanner.ofText source).tokens, e.IsAbout token := by
  obtain ⟨words, last, htokens, hwords, hlast, -⟩ := (laidOut_tokens source).exists_tiled
  have hend : last.kind = .endOfInput := congrArg Token.kind hlast
  unfold parse tokenize at h
  simp only at h
  split at h
  next token hfind =>
    cases h
    have hkind : token.kind = .illegal := by simpa using List.find?_some hfind
    exact ⟨token, List.mem_of_find?_eq_some hfind, hkind, rfl, rfl⟩
  next =>
    rw [htokens] at h ⊢
    have hread : Parser.initial.run (words ++ [last]) = .error e := by
      cases words with
      | nil => simp [Except.bind, parseTokens, hend] at h
      | cons word words =>
        have hkind : word.kind ≠ .endOfInput := hwords word List.mem_cons_self
        simpa [Except.bind, parseTokens, hkind] using h
    have hall : ∀ word ∈ words, word ∈ words ++ [last] ∧ word.kind ≠ .endOfInput :=
      fun word hword => ⟨List.mem_append_left _ hword, hwords word hword⟩
    exact Parser.exists_isAbout_of_run hall (by simp) hend (by rintro _ ⟨⟩) hread

/-- Whether an error points at what it complains about: the character or number it names, the token
it has found, or an opening bracket, brace or parenthesis. -/
def SyntaxError.PointsAt (source : String) : SyntaxError → Prop
  | illegalCharacter c position => position.Shows source [c]
  | unexpected _ found =>
    found.position.Shows source found.spelling ∧
      (found.kind = .endOfInput → found.position = .after source.toList)
  | tooDeep _ position => ∃ opener ∈ ['(', '[', '\x7b'], position.Shows source [opener]
  | invalidNumber text position => position.Shows source text.toList

/-- The end of the source shows nothing. -/
theorem not_shows_at_end (source : String) (c : Char) :
    ¬ Position.Shows (.after source.toList) source [c] := by
  rintro ⟨before, after, heq, hplace⟩
  have hwhole : source.toList ++ [] = before ++ ([c] ++ after) := by simpa using heq
  have hrest := (Position.append_inj_of_after_eq hwhole hplace).2
  cases hrest

/-- An opening token is spelled as a parenthesis, a bracket or a brace. -/
theorem exists_spelling_of_isOpener {token : Token} (h : isOpener token.kind = true) :
    ∃ opener ∈ ['(', '[', '\x7b'], token.spelling = [opener] := by
  unfold isOpener at h
  split at h
  next hkind => exact ⟨'[', by simp, by simp [Token.spelling, hkind]⟩
  next hkind => exact ⟨'\x7b', by simp, by simp [Token.spelling, hkind]⟩
  next hkind => exact ⟨'(', by simp, by simp [Token.spelling, hkind]⟩
  next => cases h

section PointsAt

variable {source : String} {token : Token} {e : SyntaxError}

/-- An error about the end of the input points at it unless a newline stands there. -/
theorem pointsAt_iff_of_endOfInput (h : e.IsAbout token)
    (hmem : token ∈ (Scanner.ofText source).tokens) (hkind : token.kind = .endOfInput) :
    e.PointsAt source ↔ ¬ e.position.Shows source ['\n'] := by
  have htoken : token = ⟨.endOfInput, .after source.toList, ""⟩ :=
    (laidOut_tokens source).eq_of_kind_eq hmem hkind
  have hposition : token.position = .after source.toList := congrArg Token.position htoken
  have hnot : ¬ e.position.Shows source ['\n'] := by
    rw [h.position_eq, hposition]
    exact not_shows_at_end source '\n'
  cases e with
  | illegalCharacter | invalidNumber => exact absurd (h.1.symm.trans hkind) (by simp)
  | tooDeep =>
    have hopener := h.1
    rw [hkind] at hopener
    cases hopener
  | unexpected expected found =>
    obtain rfl : found = token := h
    have hshows : found.position.Shows source found.spelling :=
      ⟨source.toList, [], by simp [htoken, Token.spelling], hposition⟩
    exact iff_of_true ⟨hshows, fun _ => hposition⟩ hnot

/-- An error about another token points at it unless a newline stands there. -/
theorem pointsAt_iff_of_ne_endOfInput (h : e.IsAbout token)
    (hmem : token ∈ (Scanner.ofText source).tokens) (hkind : token.kind ≠ .endOfInput) :
    e.PointsAt source ↔ ¬ e.position.Shows source ['\n'] := by
  obtain ⟨c, cs, hspelling, hc⟩ := exists_spelling_of_mem_tokens hmem hkind
  have hiff := (shows_of_mem_tokens hmem hkind).2.2
  have hplace := h.position_eq
  rw [hplace, ← hiff]
  rw [hspelling] at hiff ⊢
  -- An error shows the first character of the token if it points at what it complains about.
  have hfirst (hshows : token.position.Shows source [c]) :
      token.position.Shows source (c :: cs) :=
    hiff.mpr fun hline => hc (hshows.head_eq hline)
  cases e with
  | illegalCharacter d position =>
    obtain ⟨hillegal, rfl, rfl⟩ := h
    have htext : token.text.toList = c :: cs := by simpa [Token.spelling, hillegal] using hspelling
    rw [SyntaxError.PointsAt, htext]
    exact ⟨hfirst, fun hshows => @Position.Shows.take _ _ [c] _ hshows⟩
  | unexpected expected found =>
    obtain rfl : found = token := h
    rw [SyntaxError.PointsAt, hspelling]
    exact ⟨And.left, fun hshows => ⟨hshows, fun hend => absurd hend hkind⟩⟩
  | tooDeep limit position =>
    obtain ⟨hopener, rfl⟩ := h
    obtain ⟨opener, hbracket, hone⟩ := exists_spelling_of_isOpener hopener
    obtain ⟨rfl, rfl⟩ : opener = c ∧ [] = cs := by simpa [hspelling, eq_comm] using hone
    constructor
    · rintro ⟨other, hother, hshows⟩
      refine hiff.mpr fun hline => ?_
      rw [hshows.head_eq hline] at hother
      exact absurd hother (by decide)
    · exact fun hshows => ⟨opener, hbracket, hshows⟩
  | invalidNumber text position =>
    obtain ⟨hnumber, rfl, rfl⟩ := h
    have htext : token.text.toList = c :: cs := by simpa [Token.spelling, hnumber] using hspelling
    rw [SyntaxError.PointsAt, htext]

end PointsAt

/-- **What tokens and errors point at.** A token of a source has its place where it is written, or
where newlines before it start, which are there only before a bareword. So it points at its own
text exactly if no newline stands at its place, and so does an error that complains about it. -/
theorem points_at_iff_no_newline (source : String) :
    (∀ token ∈ (Scanner.ofText source).tokens, token.kind ≠ .endOfInput →
      (∃ lines, (∀ c ∈ lines, c = '\n') ∧
        token.position.Shows source (lines ++ token.spelling)) ∧
      (token.position.Shows source ['\n'] → token.kind = .word) ∧
      (token.position.Shows source token.spelling ↔ ¬ token.position.Shows source ['\n'])) ∧
    ∀ e, parse source = .error e → (e.PointsAt source ↔ ¬ e.position.Shows source ['\n']) := by
  refine ⟨fun token hmem hkind => shows_of_mem_tokens hmem hkind, fun e he => ?_⟩
  obtain ⟨token, hmem, habout⟩ := exists_isAbout_of_parse he
  by_cases hkind : token.kind = .endOfInput
  · exact pointsAt_iff_of_endOfInput habout hmem hkind
  · exact pointsAt_iff_of_ne_endOfInput habout hmem hkind

/-- Behind a bracket, a bareword that does not fit is pointed at. -/
theorem points_at_iff_no_newline_of_closed_bracket :
    let found : Token := ⟨.word, ⟨2, 3, 4⟩, "a"⟩
    found ∈ (Scanner.ofText "[\n] a").tokens ∧ found.kind ≠ .endOfInput ∧
      parse "[\n] a" = .error (.unexpected .endOfStage found) ∧
      found.position.Shows "[\n] a" found.spelling ∧
      SyntaxError.PointsAt "[\n] a" (.unexpected .endOfStage found) := by
  intro found
  have hmem : found ∈ (Scanner.ofText "[\n] a").tokens := by decide
  have herror : parse "[\n] a" = .error (.unexpected .endOfStage found) := rfl
  have ha : found.position.Shows "[\n] a" ['a'] := ⟨"[\n] ".toList, [], rfl, rfl⟩
  have hline : ¬ found.position.Shows "[\n] a" ['\n'] := fun hline =>
    absurd (ha.head_eq hline) (by decide)
  obtain ⟨htokens, herrors⟩ := points_at_iff_no_newline "[\n] a"
  exact ⟨hmem, by decide, herror, (htokens found hmem (by decide)).2.2.mpr hline,
    (herrors _ herror).mpr hline⟩

/-- At the start of a line, a bareword that does not fit is taken for a part of the line before. -/
theorem exists_word_behind_its_place :
    ∃ found ∈ (Scanner.ofText "1\nfoo").tokens, found.kind ≠ .endOfInput ∧
      ¬ found.position.Shows "1\nfoo" found.spelling ∧
      parse "1\nfoo" = .error (.unexpected .endOfStage found) ∧ found.position.line = 1 := by
  let found : Token := ⟨.word, ⟨1, 2, 1⟩, "foo"⟩
  have hline : found.position.Shows "1\nfoo" ['\n'] := ⟨['1'], "foo".toList, rfl, rfl⟩
  have hspelling : found.spelling = 'f' :: ['o', 'o'] := by decide
  refine ⟨found, by decide, by decide, fun hshows => ?_, rfl, rfl⟩
  rw [hspelling] at hshows
  exact absurd (hshows.head_eq hline) (by decide)

end Sluice.Filter
