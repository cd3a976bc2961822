import Sluice.Proofs.Filter.Newlines
import Sluice.Proofs.Filter.Positions

/-!
# How tokens are laid out in a source

The tokens of a source and the blanks between them make up all of it (`LaidOut`). A token is found
where the blanks before it end, and its place is counted from the text before. The scanner takes a
bareword together with the newlines around it, so there may be newlines between the place of a
bareword and its text.
-/

namespace Sluice.Filter

/-- The characters that may stand between tokens. -/
def isGap (c : Char) : Bool := c == ' ' || c == '\r' || c == '\n'

namespace Token

/-- How a token is written, up to the closing quote of a quoted text. -/
def spelling (token : Token) : List Char :=
  match token.kind with
  | .illegal | .endOfInput | .word | .number => token.text.toList
  | .quoted => '"' :: token.text.toList
  | .dot => ['.']
  | .comma => [',']
  | .colon => [':']
  | .pipe => ['|']
  | .leftBracket => ['[']
  | .rightBracket => [']']
  | .leftBrace => ['\x7b']
  | .rightBrace => ['\x7d']
  | .leftParen => ['(']
  | .rightParen => [')']
  | .plus => ['+']
  | .minus => ['-']
  | .star => ['*']
  | .slash => ['/']

/-- Whether a token may be written in a given way if a given text follows. A quoted text ends with
a quote, or with the source. -/
def IsWritten (token : Token) (written after : List Char) : Prop :=
  match token.kind with
  | .quoted => written = token.spelling ++ ['"'] ∨ (written = token.spelling ∧ after = [])
  | _ => written = token.spelling

end Token

namespace Position

/-- The place behind a text that starts a source, counted from the whole text: the newlines, the
characters of the last line, and the bytes. -/
def after (before : List Char) : Position where
  line := 1 + before.count '\n'
  column := 1 + (before.reverse.takeWhile (· != '\n')).length
  offset := (String.ofList before).utf8ByteSize

/-- A further character moves the position behind it. -/
theorem after_concat (before : List Char) (c : Char) :
    after (before ++ [c]) = (after before).advance c := by
  have hbytes : (String.ofList (before ++ [c])).utf8ByteSize =
      (String.ofList before).utf8ByteSize + c.utf8Size := by
    rw [String.ofList_append, String.utf8ByteSize_append, ← String.singleton_eq_ofList,
      String.utf8ByteSize_singleton]
  unfold advance after
  rw [hbytes, List.reverse_concat, List.count_append]
  by_cases hline : c = '\n'
  · simp [hline]
    omega
  · simp [hline]
    omega

/-- The scanner counts its place as it goes. -/
theorem advanceAll_after (before cs : List Char) :
    (after before).advanceAll cs = after (before ++ cs) := by
  induction cs generalizing before with
  | nil => simp
  | cons c cs ih =>
    rw [advanceAll_cons, ← after_concat, ih, List.append_assoc, List.singleton_append]

end Position

/-- Whether a token stands behind a text: newlines, and then what the token is written as. Only a
bareword has newlines before it. -/
structure Token.Stands (token : Token) (before lines written after : List Char) : Prop where
  kind_ne : token.kind ≠ .endOfInput
  position_eq : token.position = .after before
  eq_newline : ∀ c ∈ lines, c = '\n'
  kind_eq_word : lines ≠ [] → token.kind = .word
  isWritten : token.IsWritten written after
  written_ne : written ≠ []
  ne_newline : ∀ c ∈ written.head?, c ≠ '\n'

/-- Whether tokens are laid out in a text, given the text before it. -/
inductive LaidOut : List Char → List Char → List Token → Prop
  /-- The end of input, behind the last blanks. -/
  | last {before gap : List Char} : (∀ c ∈ gap, isGap c = true) →
      LaidOut before gap [⟨.endOfInput, .after (before ++ gap), ""⟩]
  /-- A token, behind blanks. -/
  | token {before gap lines written after : List Char} {token : Token} {tokens : List Token} :
      (∀ c ∈ gap, isGap c = true) → token.Stands (before ++ gap) lines written after →
      LaidOut (before ++ gap ++ lines ++ written) after tokens →
      LaidOut before (gap ++ lines ++ written ++ after) (token :: tokens)

/-- Blanks in front of a layout belong to it. -/
theorem LaidOut.of_gap {before gap rest : List Char} {tokens : List Token}
    (hgap : ∀ c ∈ gap, isGap c = true) (h : LaidOut (before ++ gap) rest tokens) :
    LaidOut before (gap ++ rest) tokens := by
  have hboth {more : List Char} (hmore : ∀ c ∈ more, isGap c = true) :
      ∀ c ∈ gap ++ more, isGap c = true := fun c hc =>
    (List.mem_append.mp hc).elim (hgap c) (hmore c)
  cases h with
  | last hmore =>
    rw [List.append_assoc]
    exact .last (hboth hmore)
  | token hmore hstands hrest =>
    rw [List.append_assoc before] at hstands hrest
    have hlaid := LaidOut.token (hboth hmore) hstands hrest
    simpa only [List.append_assoc] using hlaid

namespace Lexeme

/-- A text without newlines at its ends, and the newlines. -/
theorem exists_trimNewlines (cs : List Char) :
    ∃ lines trailing, cs = lines ++ trimNewlines cs ++ trailing ∧ (∀ c ∈ lines, c = '\n') ∧
      (∀ c ∈ trailing, c = '\n') ∧ (∀ c ∈ (trimNewlines cs).head?, c ≠ '\n') ∧
      (trimNewlines cs = [] → ∀ c ∈ cs, c = '\n') := by
  have hnewline {ds : List Char} (c : Char) (hc : c ∈ ds.takeWhile (· == '\n')) : c = '\n' := by
    simpa using List.all_eq_true.mp List.all_takeWhile c hc
  let inner := cs.dropWhile (· == '\n')
  let trailing := (inner.reverse.takeWhile (· == '\n')).reverse
  have hinner : inner = trimNewlines cs ++ trailing := by
    have hsplit := List.takeWhile_append_dropWhile (p := (· == '\n')) (l := inner.reverse)
    rw [← List.reverse_inj, List.reverse_append, List.reverse_reverse, trimNewlines,
      List.reverse_reverse]
    exact hsplit.symm
  have htrailing : ∀ c ∈ trailing, c = '\n' := fun c hc => hnewline c (List.mem_reverse.mp hc)
  have hhead : ∀ c ∈ inner.head?, c ≠ '\n' := by
    intro c hc
    have hnot := List.head?_dropWhile_not (· == '\n') cs
    rw [Option.mem_def.mp hc] at hnot
    simpa using hnot
  have hcs : cs = cs.takeWhile (· == '\n') ++ trimNewlines cs ++ trailing := by
    rw [List.append_assoc, ← hinner]
    exact List.takeWhile_append_dropWhile.symm
  refine ⟨cs.takeWhile (· == '\n'), trailing, hcs, hnewline, htrailing, ?_, ?_⟩
  · intro c hc
    refine hhead c ?_
    rw [hinner, List.head?_append, Option.mem_def.mp hc]
    rfl
  · -- A text of newlines and others keeps the first other one.
    intro hnil c hc
    have hempty : trailing = [] := by
      rw [hnil, List.nil_append] at hinner
      cases htail : trailing with
      | nil => rfl
      | cons d ds =>
        have hmem : d ∈ trailing := by simp [htail]
        exact absurd (htrailing d hmem) (hhead d (by simp [hinner, htail]))
    rw [hcs, hnil, hempty, List.append_nil, List.append_nil] at hc
    exact hnewline c hc

/-- A lexeme and what it leaves are the text it was cut from. -/
theorem spelling_append_rest (c : Char) (rest : List Char) :
    (read c rest).spelling ++ (read c rest).rest = c :: rest := by
  unfold read
  split
  · simp [number]
  · split
    · rfl
    · split
      next hquote =>
        have hsplit := List.takeWhile_append_dropWhile (p := (· != '"')) (l := rest)
        obtain rfl : c = '"' := by simpa using hquote
        unfold quoted
        split
        next hdrop => simpa [hdrop] using hsplit
        next hdrop => simpa [hdrop] using hsplit
      · split
        · exact List.takeWhile_append_dropWhile
        · rfl

/-- The token that a lexeme is at a place. -/
def token (lexeme : Lexeme) (position : Position) : Token :=
  ⟨lexeme.kind, position, String.ofList lexeme.text⟩

/-- A punctuation token is spelled as its character. -/
theorem spelling_of_punctuation? {c : Char} {kind : TokenKind} (h : punctuation? c = some kind)
    (position : Position) : (Token.mk kind position "").spelling = [c] ∧ kind ≠ .quoted := by
  unfold punctuation? at h
  split at h
  all_goals first | (cases h; exact ⟨rfl, by simp⟩) | cases h

/-- A lexeme is a bareword, or written without newlines around it. -/
theorem read_cases (c : Char) (rest : List Char) (position : Position) :
    read c rest = word (c :: rest) ∨
      (c ≠ '\n' ∧
        ((read c rest).token position).IsWritten (read c rest).spelling (read c rest).rest) := by
  by_cases hline : c = '\n'
  · subst hline
    exact Or.inl (read_of_isWordChar (by decide) (by decide) (by decide) rest)
  unfold read
  split
  · exact Or.inr ⟨hline, by simp [token, number, Token.IsWritten, Token.spelling]⟩
  · split
    next kind hkind =>
      obtain ⟨hspelling, hquoted⟩ := spelling_of_punctuation? hkind position
      refine Or.inr ⟨hline, ?_⟩
      unfold Token.IsWritten
      split
      next heq => exact absurd heq hquoted
      next => exact hspelling.symm
    · split
      · refine Or.inr ⟨hline, ?_⟩
        unfold quoted
        split
        next hdrop => simp [token, Token.IsWritten, Token.spelling]
        next close after hdrop =>
          have hclose := List.head?_dropWhile_not (· != '"') rest
          rw [hdrop] at hclose
          obtain rfl : close = '"' := by simpa using hclose
          simp [token, Token.IsWritten, Token.spelling]
      · split
        · exact Or.inl rfl
        · exact Or.inr ⟨hline, by simp [token, Token.IsWritten, Token.spelling]⟩

/-- The lexeme at the front of a text that does not start with a blank stands there, and leaves the
newlines behind a bareword. -/
theorem exists_stands {c : Char} {rest : List Char} (h : Scanner.isBlank c rest = false)
    (before : List Char) :
    ∃ lines written trailing, (read c rest).spelling = lines ++ written ++ trailing ∧
      (∀ d ∈ trailing, isGap d = true) ∧
      ((read c rest).token (.after before)).Stands before lines written
        (trailing ++ (read c rest).rest) := by
  have hkind := kind_read_ne c rest
  have hwhole := spelling_append_rest c rest
  rcases read_cases c rest (.after before) with hword | ⟨hline, hwritten⟩
  · rw [hword] at hkind hwhole ⊢
    obtain ⟨lines, trailing, hrun, hlines, htrailing, hhead, hempty⟩ :=
      exists_trimNewlines ((c :: rest).takeWhile isWordChar)
    refine ⟨lines, _, trailing, hrun, fun d hd => by simp [isGap, htrailing d hd], ?_⟩
    refine ⟨hkind, rfl, hlines, fun _ => rfl, ?_, fun hnil => ?_, hhead⟩
    · simp [token, word, Token.IsWritten, Token.spelling]
    · -- Newlines alone are blank.
      have hne := Lexeme.spelling_read_ne_nil c rest
      rw [hword, word] at hne
      have hchar : isWordChar c = true := by
        by_contra hother
        exact hne (List.takeWhile_cons_of_neg hother)
      have hall := hempty hnil
      rw [List.takeWhile_cons_of_pos hchar] at hall
      obtain ⟨rfl, hrest⟩ := List.forall_mem_cons.mp hall
      rw [Scanner.isBlank_newline_iff.mpr hrest] at h
      cases h
  · have hne := Lexeme.spelling_read_ne_nil c rest
    refine ⟨[], (read c rest).spelling, [], by simp, by simp, hkind, rfl, by simp, by simp,
      hwritten, hne, ?_⟩
    intro d hd
    obtain ⟨first, more, hcons⟩ := List.exists_cons_of_ne_nil hne
    rw [hcons] at hd hwhole
    obtain rfl : first = d := by simpa using hd
    rw [(List.cons.inj hwhole).1]
    exact hline

end Lexeme

namespace Scanner

/-- A blank is part of a gap. -/
theorem isGap_of_isBlank {c : Char} {rest : List Char} (h : isBlank c rest = true) :
    isGap c = true := by
  unfold isBlank at h
  unfold isGap
  grind

/-- Skipping blanks passes over blanks, and stops at a character that is none. -/
theorem exists_skipBlanks (cs before : List Char) :
    ∃ gap rest, cs = gap ++ rest ∧ (∀ c ∈ gap, isGap c = true) ∧
      skipBlanks cs (.after before) = ⟨rest, .after (before ++ gap)⟩ ∧
      ∀ c ds, rest = c :: ds → isBlank c ds = false := by
  induction cs generalizing before with
  | nil => exact ⟨[], [], rfl, by simp, by simp [skipBlanks], by simp⟩
  | cons c cs ih =>
    by_cases hblank : isBlank c cs = true
    · obtain ⟨gap, rest, rfl, hgap, hskip, hstop⟩ := ih (before ++ [c])
      have hall : ∀ d ∈ c :: gap, isGap d = true :=
        List.forall_mem_cons.mpr ⟨isGap_of_isBlank hblank, hgap⟩
      refine ⟨c :: gap, rest, rfl, hall, ?_, hstop⟩
      rw [skipBlanks, if_pos hblank, ← Position.after_concat, hskip, List.append_assoc,
        List.singleton_append]
    · refine ⟨[], c :: cs, rfl, by simp, by simp [skipBlanks, hblank], ?_⟩
      rintro _ _ ⟨⟩
      simpa using hblank

/-- At the end of a text, or at one token and the blanks before it. -/
theorem next_laidOut (cs before : List Char) :
    ((Scanner.mk cs (.after before)).next.1.kind = .endOfInput ∧
      LaidOut before cs [(Scanner.mk cs (.after before)).next.1]) ∨
    ((Scanner.mk cs (.after before)).next.1.kind ≠ .endOfInput ∧
      ∃ taken left, (Scanner.mk cs (.after before)).next.2 = ⟨left, .after (before ++ taken)⟩ ∧
        left.length < cs.length ∧ ∀ tokens, LaidOut (before ++ taken) left tokens →
          LaidOut before cs ((Scanner.mk cs (.after before)).next.1 :: tokens)) := by
  obtain ⟨gap, rest, rfl, hgap, hskip, hstop⟩ := exists_skipBlanks cs before
  -- Behind the blanks the text ends, or there is a lexeme.
  cases rest with
  | nil =>
    left
    have hnext : (Scanner.mk (gap ++ []) (.after before)).next.1 =
        ⟨.endOfInput, .after (before ++ gap), ""⟩ := by simp only [next, hskip]
    rw [hnext, List.append_nil]
    exact ⟨rfl, .last hgap⟩
  | cons c rest =>
    right
    obtain ⟨lines, written, trailing, hspelling, htrailing, hstands⟩ :=
      Lexeme.exists_stands (hstop c rest rfl) (before ++ gap)
    have hwhole := Lexeme.spelling_append_rest c rest
    have hnext : (Scanner.mk (gap ++ c :: rest) (.after before)).next =
        ((Lexeme.read c rest).token (.after (before ++ gap)), ⟨(Lexeme.read c rest).rest,
          .after (before ++ gap ++ (Lexeme.read c rest).spelling)⟩) := by
      simp only [next, hskip, Position.advanceAll_after, Lexeme.token]
    rw [hnext]
    refine ⟨hstands.kind_ne, gap ++ (Lexeme.read c rest).spelling, (Lexeme.read c rest).rest,
      ?_, ?_, fun tokens htokens => ?_⟩
    · rw [List.append_assoc]
    · have hle := Lexeme.length_rest_read_le c rest
      simp only [List.length_append, List.length_cons]
      omega
    · have hrest : LaidOut (before ++ gap ++ lines ++ written)
          (trailing ++ (Lexeme.read c rest).rest) tokens := by
        refine .of_gap htrailing ?_
        simpa only [hspelling, List.append_assoc] using htokens
      have hlaid := LaidOut.token hgap hstands hrest
      rw [← hwhole, hspelling]
      simpa only [List.append_assoc] using hlaid

/-- The tokens that are read lay out the text, from wherever the scanner stands. -/
theorem laidOut_tokensWithin {limit : Nat} {cs : List Char} (hlimit : cs.length ≤ limit)
    (before : List Char) :
    LaidOut before cs ((Scanner.mk cs (.after before)).tokensWithin limit) := by
  induction limit generalizing cs before with
  | zero =>
    rcases next_laidOut cs before with ⟨_, hlast⟩ | ⟨_, _, _, _, hless, _⟩
    · exact hlast
    · omega
  | succ limit ih =>
    rcases next_laidOut cs before with ⟨hkind, hlast⟩ | ⟨hkind, taken, left, hnext, hless, hlaid⟩
    · simpa [tokensWithin, hkind] using hlast
    · have hrest := ih (by omega : left.length ≤ limit) (before ++ taken)
      rw [← hnext] at hrest
      simpa [tokensWithin, hkind] using hlaid _ hrest

end Scanner

/-- The tokens of a source are laid out in it. -/
theorem laidOut_tokens (source : String) :
    LaidOut [] source.toList (Scanner.ofText source).tokens :=
  Scanner.laidOut_tokensWithin (Nat.le_refl _) []

/-- Whether a text is made up of tokens as they are written, with blanks around them. -/
inductive Tiled : List Token → List Char → Prop
  | blank {gap : List Char} : (∀ c ∈ gap, isGap c = true) → Tiled [] gap
  | token {gap written after : List Char} {token : Token} {tokens : List Token} :
      (∀ c ∈ gap, isGap c = true) → token.IsWritten written after → Tiled tokens after →
      Tiled (token :: tokens) (gap ++ written ++ after)

namespace LaidOut

variable {before rest : List Char} {tokens : List Token}

/-- The tokens before the end of input make up the text, and the end of input stands behind it. -/
theorem exists_tiled (h : LaidOut before rest tokens) :
    ∃ words last, tokens = words ++ [last] ∧ (∀ word ∈ words, word.kind ≠ .endOfInput) ∧
      last = ⟨.endOfInput, .after (before ++ rest), ""⟩ ∧ Tiled words rest := by
  induction h with
  | last hgap => exact ⟨[], _, rfl, by simp, rfl, .blank hgap⟩
  | @token before gap lines written after token tokens hgap hstands hrest ih =>
    obtain ⟨words, last, rfl, hwords, hlast, htiled⟩ := ih
    have hboth : ∀ c ∈ gap ++ lines, isGap c = true := fun c hc =>
      (List.mem_append.mp hc).elim (hgap c) fun hmem => by simp [isGap, hstands.eq_newline c hmem]
    refine ⟨token :: words, last, rfl, List.forall_mem_cons.mpr ⟨hstands.kind_ne, hwords⟩, ?_,
      .token hboth hstands.isWritten htiled⟩
    simpa only [List.append_assoc] using hlast

/-- The end of input stands behind the whole text. -/
theorem eq_of_kind_eq (h : LaidOut before rest tokens) {token : Token} (hmem : token ∈ tokens)
    (hkind : token.kind = .endOfInput) : token = ⟨.endOfInput, .after (before ++ rest), ""⟩ := by
  obtain ⟨words, last, rfl, hwords, hlast, -⟩ := h.exists_tiled
  rcases List.mem_append.mp hmem with hword | hsingle
  · exact absurd hkind (hwords token hword)
  · exact (List.mem_singleton.mp hsingle).trans hlast

/-- Every token but the end of input stands in the text. -/
theorem exists_stands_of_mem (h : LaidOut before rest tokens) {token : Token}
    (hmem : token ∈ tokens) (hkind : token.kind ≠ .endOfInput) :
    ∃ front lines written after, before ++ rest = front ++ lines ++ written ++ after ∧
      token.Stands front lines written after := by
  induction h with
  | last => simp_all
  | @token before gap lines written after first tokens hgap hstands hrest ih =>
    rcases List.mem_cons.mp hmem with rfl | hlater
    · exact ⟨before ++ gap, lines, written, after, by simp only [List.append_assoc], hstands⟩
    · obtain ⟨front, others, text, behind, heq, hfound⟩ := ih hlater
      exact ⟨front, others, text, behind, by simpa only [List.append_assoc] using heq, hfound⟩

end LaidOut

/-- **Scanning loses nothing.** A source consists of its tokens as they are written, and of spaces,
carriage returns and newlines before, between and behind them. The places of the tokens are those
behind some part of the source, one behind another, and the end of input is at its end. -/
theorem tokens_make_up_source (source : String) :
    ∃ words last, (Scanner.ofText source).tokens = words ++ [last] ∧
      last.kind = .endOfInput ∧ (∀ word ∈ words, word.kind ≠ .endOfInput) ∧
      Tiled words source.toList ∧
      (∀ token ∈ words ++ [last], ∃ before after,
        source.toList = before ++ after ∧ token.position = .after before) ∧
      ((words ++ [last]).Pairwise fun token later =>
        token.position.offset < later.position.offset) ∧
      last.position.offset = source.utf8ByteSize := by
  have hlaid := laidOut_tokens source
  obtain ⟨words, last, htokens, hwords, hlast, htiled⟩ := hlaid.exists_tiled
  have hpairwise := Scanner.pairwise_offset_tokensWithin source.toList.length (.ofText source)
  refine ⟨words, last, htokens, congrArg Token.kind hlast, hwords, htiled, ?_, ?_, ?_⟩
  · intro token hmem
    rw [htokens] at hlaid
    by_cases hkind : token.kind = .endOfInput
    · exact ⟨source.toList, [], by simp, by simp [hlaid.eq_of_kind_eq hmem hkind]⟩
    · obtain ⟨front, lines, written, after, heq, hstands⟩ := hlaid.exists_stands_of_mem hmem hkind
      refine ⟨front, lines ++ written ++ after, ?_, hstands.position_eq⟩
      simpa only [List.append_assoc, List.nil_append] using heq
  · rw [← htokens]
    exact hpairwise
  · simp [hlast, Position.after]

end Sluice.Filter
