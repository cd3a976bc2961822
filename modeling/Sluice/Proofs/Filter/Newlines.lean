import Mathlib.Data.List.TakeWhile
import Sluice.Proofs.Filter.Scanning

/-!
# Newlines between tokens

A space between two tokens is blank whatever follows it. A newline is blank only if no other
character of a bareword follows: otherwise it is read as the start of a bareword and trimmed from
it. That makes no difference before a bareword, but a digit or a minus sign after a newline starts
a bareword, too, and neither a number nor an operator. So a newline may stand for a space
exactly where neither of them follows (`contents_newline_eq_iff`).

The scanner is followed character by character here (`Reaches`): a space that it does not come to
is part of a quoted text.
-/

namespace Sluice.Filter

/-- What a token is and says, wherever it stands. -/
def Token.content (token : Token) : TokenKind × String := (token.kind, token.text)

/-- Whether tokens of this kind are single characters with a meaning of their own. -/
def TokenKind.isPunctuation : TokenKind → Bool
  | illegal | endOfInput | word | quoted | number => false
  | _ => true

/-- The content of a lexeme. -/
def Lexeme.content (lexeme : Lexeme) : TokenKind × String :=
  (lexeme.kind, String.ofList lexeme.text)

/-- The contents of the tokens of a text, the end of input last. -/
def contentsOf (cs : List Char) : List (TokenKind × String) :=
  (Scanner.mk cs .start).tokens.map Token.content

/-- Whether the scanner comes to a text, and the contents of the tokens read before, newest
first. -/
inductive Reaches (source : List Char) : List (TokenKind × String) → List Char → Prop
  | start : Reaches source [] source
  | blank {read : List (TokenKind × String)} {c : Char} {rest : List Char} :
      Reaches source read (c :: rest) → Scanner.isBlank c rest = true → Reaches source read rest
  | token {read : List (TokenKind × String)} {c : Char} {rest : List Char} :
      Reaches source read (c :: rest) → Scanner.isBlank c rest = false →
      Reaches source ((Lexeme.read c rest).content :: read) (Lexeme.read c rest).rest

namespace Scanner

/-- What is left behind blanks does not depend on where they stand. -/
theorem rest_skipBlanks (cs : List Char) (position other : Position) :
    (skipBlanks cs position).rest = (skipBlanks cs other).rest := by
  induction cs generalizing position other with
  | nil => rfl
  | cons c rest ih =>
    unfold skipBlanks
    split
    · exact ih _ _
    · rfl

/-- What is read next depends on the text only, not on where it stands. -/
theorem content_next_eq {scanner other : Scanner} (h : scanner.rest = other.rest) :
    scanner.next.1.content = other.next.1.content ∧ scanner.next.2.rest = other.next.2.rest := by
  have hrest := rest_skipBlanks scanner.rest scanner.position other.position
  rw [h] at hrest
  simp only [next, h]
  cases hother : (skipBlanks other.rest other.position).rest with
  | nil =>
    rw [hother] at hrest
    rw [hrest]
    exact ⟨rfl, hrest.trans hother.symm⟩
  | cons c rest =>
    rw [hother] at hrest
    rw [hrest]
    exact ⟨rfl, rfl⟩

/-- The contents of all tokens depend on the text only, however many tokens there may be at most. -/
theorem content_tokensWithin_eq {limit bound : Nat} {scanner other : Scanner}
    (h : scanner.rest = other.rest) (hlimit : other.rest.length ≤ limit)
    (hbound : other.rest.length ≤ bound) :
    (scanner.tokensWithin limit).map Token.content =
      (other.tokensWithin bound).map Token.content := by
  induction limit generalizing bound scanner other with
  | zero =>
    obtain ⟨hcontent, _⟩ := content_next_eq h
    have hend : other.next.1.kind = .endOfInput := by
      rcases next_cases other with hend | ⟨_, hless, _⟩
      · exact hend
      · omega
    cases bound <;> simp [tokensWithin, hcontent, hend]
  | succ limit ih =>
    obtain ⟨hcontent, hrest⟩ := content_next_eq h
    have hkind : scanner.next.1.kind = other.next.1.kind := congrArg Prod.fst hcontent
    rcases next_cases other with hend | ⟨hne, hless, _⟩
    · cases bound <;> simp [tokensWithin, hcontent, hkind, hend]
    · obtain ⟨bound, rfl⟩ : ∃ n, bound = n + 1 := ⟨bound - 1, by omega⟩
      have hmore := ih hrest (by omega) (by omega : _ ≤ bound)
      simp [tokensWithin, hcontent, hkind, hne, hmore]

/-- A scanner gives the tokens that its first step gives. -/
theorem tokensWithin_congr {scanner other : Scanner} (h : scanner.next = other.next)
    (limit : Nat) : scanner.tokensWithin limit = other.tokensWithin limit := by
  cases limit <;> simp [tokensWithin, h]

/-- A scanner at a blank is the scanner behind it. -/
theorem next_blank {c : Char} {rest : List Char} (h : isBlank c rest = true)
    (position : Position) :
    (Scanner.mk (c :: rest) position).next = (Scanner.mk rest (position.advance c)).next := by
  simp [next, skipBlanks, h]

/-- A scanner that is at no blank reads the lexeme there. -/
theorem next_token {c : Char} {rest : List Char} (h : isBlank c rest = false)
    (position : Position) :
    (Scanner.mk (c :: rest) position).next.1.content = (Lexeme.read c rest).content ∧
      (Scanner.mk (c :: rest) position).next.2.rest = (Lexeme.read c rest).rest := by
  simp [next, skipBlanks, h, Token.content, Lexeme.content]

end Scanner

/-- A blank in front of a text does not matter. -/
theorem contentsOf_blank {c : Char} {rest : List Char} (h : Scanner.isBlank c rest = true) :
    contentsOf (c :: rest) = contentsOf rest := by
  unfold contentsOf Scanner.tokens
  rw [Scanner.tokensWithin_congr (Scanner.next_blank h _)]
  exact Scanner.content_tokensWithin_eq rfl (Nat.le_succ _) (Nat.le_refl _)

/-- The token in front of a text comes before those of what is left. -/
theorem contentsOf_token {c : Char} {rest : List Char} (h : Scanner.isBlank c rest = false) :
    contentsOf (c :: rest) =
      (Lexeme.read c rest).content :: contentsOf (Lexeme.read c rest).rest := by
  obtain ⟨hcontent, hrest⟩ := Scanner.next_token h .start
  have hkind : (Scanner.mk (c :: rest) .start).next.1.kind ≠ .endOfInput := fun hend =>
    Lexeme.kind_read_ne c rest ((congrArg Prod.fst hcontent).symm.trans hend)
  have hless := Lexeme.length_rest_read_le c rest
  have hmore : ((Scanner.mk (c :: rest) .start).next.2.tokensWithin rest.length).map
      Token.content = contentsOf (Lexeme.read c rest).rest :=
    Scanner.content_tokensWithin_eq hrest hless (Nat.le_refl _)
  rw [← hmore, ← hcontent]
  simp [contentsOf, Scanner.tokens, Scanner.tokensWithin, hkind]

/-- The contents of a text are those read on the way and those of what is left. -/
theorem Reaches.contentsOf_eq {source text : List Char} {read : List (TokenKind × String)}
    (h : Reaches source read text) : contentsOf source = read.reverse ++ contentsOf text := by
  induction h with
  | start => rfl
  | blank _ hblank ih => rw [ih, contentsOf_blank hblank]
  | token _ hblank ih => rw [ih, contentsOf_token hblank, List.reverse_cons, List.append_assoc,
      List.singleton_append]

section Runs

variable {p : Char → Bool}

/-- A run ends at a character that is not of its class. -/
theorem span_append_cons {x : Char} (hx : p x = false) (cs after : List Char) :
    (cs ++ x :: after).takeWhile p = cs.takeWhile p ∧
      (cs ++ x :: after).dropWhile p = cs.dropWhile p ++ x :: after := by
  induction cs with
  | nil => simp [hx]
  | cons c cs ih => by_cases hc : p c = true <;> simp [hc, ih]

/-- A run that ends inside a text is not changed by what follows the text. -/
theorem span_append {cs : List Char} (h : cs.dropWhile p ≠ []) (more : List Char) :
    (cs ++ more).takeWhile p = cs.takeWhile p ∧
      (cs ++ more).dropWhile p = cs.dropWhile p ++ more := by
  induction cs with
  | nil => exact absurd rfl h
  | cons c cs ih =>
    by_cases hc : p c = true
    · rw [List.dropWhile_cons_of_pos hc] at h
      simp [hc, ih h]
    · simp [hc]

/-- A run goes on as far as its class. -/
theorem span_of_forall {cs after : List Char} (hcs : ∀ c ∈ cs, p c = true)
    (hafter : ∀ c ∈ after.head?, p c = false) :
    (cs ++ after).takeWhile p = cs ∧ (cs ++ after).dropWhile p = after := by
  rw [List.takeWhile_append_of_pos hcs, List.dropWhile_append_of_pos hcs]
  cases after with
  | nil => simp
  | cons d ds => simp [hafter d rfl]

/-- What a text starts with it still starts with when it goes on. -/
theorem mem_takeWhile_append {c : Char} {cs : List Char} (h : c ∈ cs.takeWhile p)
    (more : List Char) : c ∈ (cs ++ more).takeWhile p := by
  rw [List.takeWhile_append]
  split
  · exact List.mem_append_left _ (List.takeWhile_subset p h)
  · exact h

end Runs

/-- Digits may stand in a bareword. -/
theorem isWordChar_of_isDigit {c : Char} (h : c.isDigit = true) : isWordChar c = true := by
  have hbounds : 48 ≤ c.toNat ∧ c.toNat ≤ 57 := by
    simpa [Char.isDigit, UInt32.le_iff_toNat_le] using h
  have halphanumeric : Text.isAlphanumeric c = true := by
    unfold Text.isAlphanumeric Text.alphanumericRanges Text.Ranges.contains
    rw [if_neg (Nat.not_lt.mpr hbounds.1)]
    exact (Bool.or_eq_true _ _).mpr (Or.inl (decide_eq_true hbounds.2))
  simp [isWordChar, halphanumeric]

/-- The only punctuation that may stand in a bareword is the minus sign. -/
theorem eq_minus_of_punctuation? {c : Char} {kind : TokenKind} (h : punctuation? c = some kind)
    (hword : isWordChar c = true) : c = '-' := by
  unfold punctuation? at h
  split at h
  all_goals first | rfl | exact absurd hword (by decide) | cases h

/-- A character of a bareword starts one unless it is a newline, a digit or a minus sign. -/
theorem read_of_isWordChar {c : Char} (hword : isWordChar c = true) (hdigit : c.isDigit = false)
    (hminus : c ≠ '-') (rest : List Char) : Lexeme.read c rest = Lexeme.word (c :: rest) := by
  have hpunctuation : punctuation? c = none := by
    cases h : punctuation? c with
    | none => rfl
    | some kind => exact absurd (eq_minus_of_punctuation? h hword) hminus
  have hne (d : Char) (hd : isWordChar d = false) : c ≠ d := by
    rintro rfl
    rw [hword] at hd
    cases hd
  have hdot := hne '.' (by decide)
  have hquote := hne '"' (by decide)
  simp [Lexeme.read, Lexeme.startsNumber, hdigit, hminus, hdot, hpunctuation, hquote, hword]

/-- A lexeme of a text that goes on. -/
def Lexeme.followedBy (lexeme : Lexeme) (more : List Char) : Lexeme :=
  { lexeme with rest := lexeme.rest ++ more }

namespace Lexeme

/-- A number ends where a character that no number has stands. -/
theorem number_append_cons {x : Char} (hx : isNumberChar x = false) (c : Char)
    (cs after : List Char) :
    number c (cs ++ x :: after) = (number c cs).followedBy (x :: after) := by
  obtain ⟨htake, hdrop⟩ := span_append_cons hx cs after
  simp only [number, followedBy, htake, hdrop]

/-- A bareword ends where a character that no bareword has stands. -/
theorem word_append_cons {x : Char} (hx : isWordChar x = false) (cs after : List Char) :
    word (cs ++ x :: after) = (word cs).followedBy (x :: after) := by
  obtain ⟨htake, hdrop⟩ := span_append_cons hx cs after
  simp only [word, followedBy, htake, hdrop]

/-- A bareword that ends inside a text ends at the same place when the text goes on. -/
theorem word_append {cs : List Char} (h : (word cs).rest ≠ []) (more : List Char) :
    word (cs ++ more) = (word cs).followedBy more := by
  obtain ⟨htake, hdrop⟩ := span_append h more
  simp only [word, followedBy, htake, hdrop]

/-- A quoted text that ends with its quote does not go on. -/
theorem quoted_append {cs : List Char} (h : cs.dropWhile (· != '"') ≠ []) (more : List Char) :
    quoted (cs ++ more) = (quoted cs).followedBy more := by
  obtain ⟨htake, hdrop⟩ := span_append h more
  obtain ⟨close, rest, hcons⟩ := List.exists_cons_of_ne_nil h
  simp only [quoted, followedBy, htake, hdrop, hcons, List.cons_append]

/-- A quoted text takes at least what stands before the first quote. -/
theorem length_rest_quoted_le (cs : List Char) :
    (quoted cs).rest.length ≤ (cs.dropWhile (· != '"')).length := by
  unfold quoted
  split
  · exact Nat.zero_le _
  · rename_i hdrop
    rw [hdrop]
    exact Nat.le_succ _

/-- What a lexeme leaves is the end of the text. -/
theorem rest_read_suffix (c : Char) (rest : List Char) : (read c rest).rest <:+ rest := by
  unfold read
  split
  · exact List.dropWhile_suffix _
  · split
    · exact List.suffix_rfl
    · split
      · have hdrop := List.dropWhile_suffix (l := rest) (· != '"')
        unfold quoted
        split
        · exact List.nil_suffix
        · rename_i close after hafter
          rw [hafter] at hdrop
          exact (List.suffix_cons close after).trans hdrop
      · split
        · rename_i hword
          rw [word, List.dropWhile_cons_of_pos hword]
          exact List.dropWhile_suffix _
        · exact List.suffix_rfl

/-- If a quoted text leaves a space behind, its quote comes before the space. -/
theorem closed_of_rest_quoted {cs after part : List Char}
    (h : (quoted (cs ++ ' ' :: after)).rest = part ++ ' ' :: after) :
    cs.dropWhile (· != '"') ≠ [] := by
  intro hopen
  have hle := length_rest_quoted_le (cs ++ ' ' :: after)
  rw [h, List.dropWhile_append, hopen] at hle
  have hafter := (List.dropWhile_sublist (l := after) fun d => d != '"').length_le
  simp at hle
  omega

end Lexeme

namespace Lexeme

/-- A newline in front is trimmed. -/
theorem trimNewlines_newline (cs : List Char) :
    trimNewlines ('\n' :: cs) = trimNewlines cs := by
  simp [trimNewlines]

end Lexeme

namespace Scanner

/-- A newline is blank exactly if no other character of a bareword follows. -/
theorem isBlank_newline_iff {rest : List Char} :
    isBlank '\n' rest = true ↔ ∀ c ∈ rest.takeWhile isWordChar, c = '\n' := by
  simp [isBlank]

/-- A character of a bareword other than a newline is no blank. -/
theorem isBlank_eq_false_of_isWordChar {c : Char} (hword : isWordChar c = true) (hne : c ≠ '\n')
    (rest : List Char) : isBlank c rest = false := by
  have hother (d : Char) (hd : isWordChar d = false) : c ≠ d := by
    rintro rfl
    rw [hword] at hd
    cases hd
  simp [isBlank, hne, hother ' ' (by decide), hother '\r' (by decide)]

end Scanner

/-- A newline before a bareword, or before nothing of the kind, does not matter. -/
theorem contentsOf_newline_of_word {c : Char} {rest : List Char} (hdigit : c.isDigit = false)
    (hminus : c ≠ '-') : contentsOf ('\n' :: c :: rest) = contentsOf (c :: rest) := by
  cases hblank : Scanner.isBlank '\n' (c :: rest) with
  | true => exact contentsOf_blank hblank
  | false =>
    have hword : isWordChar c = true := by
      by_contra hother
      have hempty : (c :: rest).takeWhile isWordChar = [] := List.takeWhile_cons_of_neg hother
      rw [← Bool.not_eq_true, Scanner.isBlank_newline_iff, hempty] at hblank
      exact hblank (by simp)
    have hrest : Scanner.isBlank c rest = false := by
      by_cases hne : c = '\n'
      · subst hne
        rw [← Bool.not_eq_true, Scanner.isBlank_newline_iff] at hblank ⊢
        intro hall
        refine hblank fun d hd => ?_
        rw [List.takeWhile_cons_of_pos hword] at hd
        exact (List.mem_cons.mp hd).elim id (hall d)
      · exact Scanner.isBlank_eq_false_of_isWordChar hword hne rest
    have hnewline : isWordChar '\n' = true := by decide
    rw [contentsOf_token hblank, contentsOf_token hrest,
      read_of_isWordChar hnewline (by decide) (by decide), read_of_isWordChar hword hdigit hminus]
    simp only [Lexeme.word, Lexeme.content, List.takeWhile_cons_of_pos hnewline,
      List.dropWhile_cons_of_pos hnewline, Lexeme.trimNewlines_newline]

/-- Before a digit or a minus sign a newline starts a bareword. -/
theorem contentsOf_newline_ne {c : Char} {rest : List Char}
    (h : c.isDigit = true ∨ c = '-') : contentsOf ('\n' :: c :: rest) ≠ contentsOf (c :: rest) := by
  have hword : isWordChar c = true := by
    rcases h with hdigit | rfl
    · exact isWordChar_of_isDigit hdigit
    · decide
  have hne : c ≠ '\n' := by
    rintro rfl
    rcases h with hdigit | hminus <;> contradiction
  have hblank : Scanner.isBlank '\n' (c :: rest) = false := by
    rw [← Bool.not_eq_true, Scanner.isBlank_newline_iff]
    intro hall
    refine hne (hall c ?_)
    rw [List.takeWhile_cons_of_pos hword]
    exact List.mem_cons_self
  have hkind : (Lexeme.read c rest).kind ≠ .word := by
    unfold Lexeme.read
    rcases h with hdigit | rfl
    · simp [Lexeme.startsNumber, Lexeme.number, hdigit]
    · split
      · simp [Lexeme.number]
      · simp [punctuation?]
  rw [contentsOf_token hblank,
    contentsOf_token (Scanner.isBlank_eq_false_of_isWordChar hword hne rest),
    read_of_isWordChar (by decide) (by decide) (by decide)]
  intro heq
  exact hkind (congrArg Prod.fst (List.cons.inj heq).1).symm

/-- A newline does not matter exactly where no digit and no minus sign follows. -/
theorem contentsOf_newline_eq_iff (cs : List Char) :
    contentsOf ('\n' :: cs) = contentsOf cs ↔
      ∀ c ∈ cs.head?, c.isDigit = false ∧ c ≠ '-' := by
  cases cs with
  | nil =>
    have hblank : contentsOf ['\n'] = contentsOf [] := contentsOf_blank rfl
    simpa using hblank
  | cons c rest =>
    by_cases h : c.isDigit = true ∨ c = '-'
    · simp only [contentsOf_newline_ne h, false_iff]
      simpa [or_iff_not_imp_left] using h
    · obtain ⟨hdigit, hminus⟩ := not_or.mp h
      have hdigit : c.isDigit = false := by simpa using hdigit
      simp [contentsOf_newline_of_word hdigit hminus, hdigit, hminus]

/-- One of two newlines does not matter. -/
theorem contentsOf_newline_newline (cs : List Char) :
    contentsOf ('\n' :: '\n' :: cs) = contentsOf ('\n' :: cs) :=
  contentsOf_newline_of_word (by decide) (by decide)

section Replacing

variable {c : Char} {cs after : List Char}

/-- Whether a number starts depends on a newline behind it as it does on a space. -/
theorem startsNumber_newline :
    Lexeme.startsNumber c (cs ++ '\n' :: after) = Lexeme.startsNumber c (cs ++ ' ' :: after) := by
  cases cs <;> simp [Lexeme.startsNumber]

/-- Whatever is no blank before a space is none before a newline. -/
theorem isBlank_newline_eq_false (h : Scanner.isBlank c (cs ++ ' ' :: after) = false) :
    Scanner.isBlank c (cs ++ '\n' :: after) = false := by
  by_cases hne : c = '\n'
  · subst hne
    rw [← Bool.not_eq_true, Scanner.isBlank_newline_iff] at h ⊢
    rw [(span_append_cons (by decide) cs after).1] at h
    exact fun hall => h fun d hd => hall d (mem_takeWhile_append hd _)
  · simpa [Scanner.isBlank, hne] using h

/-- A blank before the space does not matter before the newline, though it may be part of a
bareword there. -/
theorem contentsOf_blank_newline (h : Scanner.isBlank c (cs ++ ' ' :: after) = true) :
    contentsOf (c :: (cs ++ '\n' :: after)) = contentsOf (cs ++ '\n' :: after) := by
  by_cases hne : c = '\n'
  · subst hne
    rw [Scanner.isBlank_newline_iff, (span_append_cons (by decide) cs after).1] at h
    by_cases hend : cs.dropWhile isWordChar = []
    · -- Only newlines stand between this one and the new one.
      cases cs with
      | nil => exact contentsOf_newline_newline after
      | cons d cs =>
        have hword := List.dropWhile_eq_nil_iff.mp hend
        obtain rfl : d = '\n' := by
          refine h d ?_
          rw [List.takeWhile_cons_of_pos (hword d List.mem_cons_self)]
          exact List.mem_cons_self
        exact contentsOf_newline_newline _
    · refine contentsOf_blank (Scanner.isBlank_newline_iff.mpr ?_)
      rw [(span_append hend _).1]
      exact h
  · exact contentsOf_blank (by simpa [Scanner.isBlank, hne] using h)

/-- A token that ends before the space, and not directly before it unless it is punctuation, is
also read before the newline. -/
theorem read_newline {part : List Char}
    (hrest : (Lexeme.read c (cs ++ ' ' :: after)).rest = part ++ ' ' :: after)
    (hpart : part ≠ [] ∨ (Lexeme.read c (cs ++ ' ' :: after)).kind.isPunctuation = true) :
    (Lexeme.read c (cs ++ '\n' :: after)).content =
        (Lexeme.read c (cs ++ ' ' :: after)).content ∧
      (Lexeme.read c (cs ++ '\n' :: after)).rest = part ++ '\n' :: after := by
  unfold Lexeme.read at hrest hpart ⊢
  rw [startsNumber_newline]
  by_cases hstarts : Lexeme.startsNumber c (cs ++ ' ' :: after) = true
  · simp only [hstarts, if_true] at hrest ⊢
    rw [Lexeme.number_append_cons (by decide)] at hrest ⊢
    rw [Lexeme.number_append_cons (by decide), ← List.append_cancel_right hrest]
    exact ⟨rfl, rfl⟩
  simp only [hstarts, Bool.false_eq_true, if_false] at hrest hpart ⊢
  cases hpunctuation : punctuation? c with
  | some kind =>
    simp only [hpunctuation] at hrest ⊢
    rw [← List.append_cancel_right hrest]
    exact ⟨rfl, rfl⟩
  | none =>
    simp only [hpunctuation] at hrest hpart ⊢
    by_cases hquote : (c == '"') = true
    · simp only [hquote, if_true] at hrest ⊢
      have hclosed := Lexeme.closed_of_rest_quoted hrest
      rw [Lexeme.quoted_append hclosed] at hrest ⊢
      rw [Lexeme.quoted_append hclosed, ← List.append_cancel_right hrest]
      exact ⟨rfl, rfl⟩
    simp only [hquote, Bool.false_eq_true, if_false] at hrest hpart ⊢
    by_cases hword : isWordChar c = true
    · simp only [hword, if_true] at hrest hpart ⊢
      -- A bareword takes newlines right behind it, so something has to stand in between.
      have hend : part ≠ [] := hpart.resolve_right (by simp [Lexeme.word, TokenKind.isPunctuation])
      have hspace := Lexeme.word_append_cons (x := ' ') (by decide) (c :: cs) after
      rw [List.cons_append] at hspace
      rw [hspace] at hrest ⊢
      obtain rfl := List.append_cancel_right hrest
      have hnewline := Lexeme.word_append hend ('\n' :: after)
      rw [List.cons_append] at hnewline
      rw [hnewline]
      exact ⟨rfl, rfl⟩
    · simp only [hword, Bool.false_eq_true, if_false] at hrest ⊢
      rw [← List.append_cancel_right hrest]
      exact ⟨rfl, rfl⟩

/-- Whatever the scanner reads before it comes to the space, it reads before the newline. -/
theorem contentsOf_newline_of_reaches {before text part : List Char}
    {read : List (TokenKind × String)} (h : Reaches (before ++ ' ' :: after) read text)
    (htext : text = part ++ ' ' :: after)
    (hlast : part ≠ [] ∨ ∀ last ∈ read.head?, last.1.isPunctuation = true) :
    contentsOf (before ++ '\n' :: after) = read.reverse ++ contentsOf (part ++ '\n' :: after) := by
  induction h generalizing part with
  | start =>
    rw [List.append_cancel_right htext]
    rfl
  | @blank read c rest _ hblank ih =>
    subst htext
    rw [ih (List.cons_append).symm (Or.inl (List.cons_ne_nil _ _)), List.cons_append,
      contentsOf_blank_newline hblank]
  | @token read c rest _ hblank ih =>
    -- The space is still ahead, so the token was read from the part before it.
    obtain ⟨front, hfront⟩ := Lexeme.rest_read_suffix c rest
    rw [htext, ← List.append_assoc] at hfront
    subst hfront
    have hkind : part ≠ [] ∨
        (Lexeme.read c (front ++ part ++ ' ' :: after)).kind.isPunctuation = true :=
      hlast.imp_right fun h => h _ rfl
    obtain ⟨hcontent, hrest⟩ := read_newline htext hkind
    rw [ih (List.cons_append).symm (Or.inl (List.cons_ne_nil _ _)), List.cons_append,
      contentsOf_token (isBlank_newline_eq_false hblank), hcontent, hrest]
    simp

end Replacing

/-- A newline in place of a space that follows punctuation, or that nothing precedes, leaves all
tokens as they are exactly if no digit and no minus sign comes directly after it. -/
theorem contents_newline_eq_iff {before after : String} {read : List (TokenKind × String)}
    (hreach : Reaches (before ++ " " ++ after).toList read (' ' :: after.toList))
    (hlast : ∀ last ∈ read.head?, last.1.isPunctuation = true) :
    (Scanner.ofText (before ++ "\n" ++ after)).tokens.map Token.content =
        (Scanner.ofText (before ++ " " ++ after)).tokens.map Token.content ↔
      ∀ c ∈ after.toList.head?, c.isDigit = false ∧ c ≠ '-' := by
  have htext (x : String) (c : Char) (hx : x.toList = [c]) :
      (before ++ x ++ after).toList = before.toList ++ c :: after.toList := by
    simp [String.toList_append, hx]
  have hspace := htext " " ' ' rfl
  have hnewline := htext "\n" '\n' rfl
  rw [hspace] at hreach
  have hbefore := hreach.contentsOf_eq
  have hreplaced : contentsOf (before.toList ++ '\n' :: after.toList) =
      read.reverse ++ contentsOf ('\n' :: after.toList) :=
    contentsOf_newline_of_reaches hreach (List.nil_append _).symm (Or.inr hlast)
  have hcontents (source : String) :
      (Scanner.ofText source).tokens.map Token.content = contentsOf source.toList := rfl
  rw [hcontents, hcontents, hnewline, hspace, hreplaced, hbefore, List.append_cancel_left_eq,
    contentsOf_blank (c := ' ') rfl, contentsOf_newline_eq_iff]

/-- After a pipe a line may start with a word. -/
theorem contents_newline_eq_before_length :
    (Scanner.ofText ".\"a b\"|\nlength").tokens.map Token.content =
      (Scanner.ofText ".\"a b\"| length").tokens.map Token.content := by
  have hdot : Reaches ".\"a b\"| length".toList [(.dot, "")] "\"a b\"| length".toList :=
    .token .start rfl
  have hkey : Reaches ".\"a b\"| length".toList [(.quoted, "a b"), (.dot, "")]
    "| length".toList := .token hdot rfl
  have hpipe : Reaches ".\"a b\"| length".toList [(.pipe, ""), (.quoted, "a b"), (.dot, "")]
    " length".toList := .token hkey rfl
  have hword : "length".toList.head? = some 'l' := rfl
  refine (@contents_newline_eq_iff ".\"a b\"|" "length" _ hpipe (by decide)).mpr ?_
  rw [hword]
  rintro c ⟨⟩
  decide

/-- A number at the start of a line is read as a bareword. -/
theorem exists_contents_newline_ne :
    ∃ read, Reaches "1 * 5".toList read " 5".toList ∧
      (∀ last ∈ read.head?, last.1.isPunctuation = true) ∧
      (Scanner.ofText "1 *\n5").tokens.map Token.content ≠
        (Scanner.ofText "1 * 5").tokens.map Token.content := by
  have hnumber : Reaches "1 * 5".toList [(.number, "1")] " * 5".toList := .token .start rfl
  have hblank : Reaches "1 * 5".toList [(.number, "1")] "* 5".toList := .blank hnumber rfl
  have hstar : Reaches "1 * 5".toList [(.star, ""), (.number, "1")] " 5".toList :=
    .token hblank rfl
  exact ⟨_, hstar, by decide, by decide⟩

end Sluice.Filter
