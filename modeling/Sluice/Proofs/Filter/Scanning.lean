import Sluice.Proofs.Decimal.Integers
import Sluice.Proofs.Filter.Grammar

/-!
# What the scanner gives to the reader

The tokens of a source are words, numbers and punctuation, and then the end of input once
(`tokenize_shape`). The scanner takes a sign or a point before a digit, and then every digit and
point that follows, for one number. Whether such a text is a number is decided by the reader: it is
a literal exactly if it has at most one point, and a position exactly if it is a whole number of 64
signed bits.
-/

namespace Sluice.Filter

open Grammar

/-- The texts the scanner makes number tokens of: at most one minus sign, and then digits and points
with at least one digit among them. -/
def IsNumberText (text : String) : Prop :=
  ∃ sign body, text.toList = sign ++ body ∧ (sign = [] ∨ sign = ['-']) ∧
    (∀ c ∈ body, isNumberChar c = true) ∧ ∃ c ∈ body, c.isDigit = true

/-- A character of a number is a digit or a point. -/
private theorem isDigit_of_isNumberChar {c : Char} (h : isNumberChar c = true) (hne : c ≠ '.') :
    c.isDigit = true := by
  simpa [isNumberChar, hne] using h

/-- Digits have no points among them. -/
private theorem count_point_eq_zero {cs : List Char} (h : ∀ c ∈ cs, c.isDigit = true) :
    cs.count '.' = 0 := by
  refine List.count_eq_zero.mpr fun hmem => ?_
  exact absurd (h '.' hmem) (by decide)

/-- A number without points has digits only. -/
private theorem all_isDigit_iff {cs : List Char} (h : ∀ c ∈ cs, isNumberChar c = true) :
    cs.all Char.isDigit = true ↔ cs.count '.' = 0 := by
  rw [List.all_eq_true]
  constructor
  · exact count_point_eq_zero
  · intro hcount c hc
    refine isDigit_of_isNumberChar (h c hc) ?_
    rintro rfl
    exact List.count_eq_zero.mp hcount hc

/-- Digits and points with a digit among them are read as a number exactly if at most one of them
is a point. -/
theorem isSome_unsignedFloat?_iff {body : List Char} (hbody : ∀ c ∈ body, isNumberChar c = true)
    (hdigit : ∃ c ∈ body, c.isDigit = true) :
    (Decimal.unsignedFloat? body).isSome = true ↔ body.count '.' ≤ 1 := by
  have hsplit := List.takeWhile_append_dropWhile (p := Char.isDigit) (l := body)
  have hwhole : ∀ c ∈ body.takeWhile Char.isDigit, c.isDigit = true :=
    List.all_eq_true.mp List.all_takeWhile
  have hcount := congrArg (List.count '.') hsplit
  rw [List.count_append, count_point_eq_zero hwhole, Nat.zero_add] at hcount
  unfold Decimal.unsignedFloat?
  -- Behind the leading digits there is nothing left, or a point and a fraction.
  cases hrest : body.dropWhile Char.isDigit with
  | nil =>
    rw [hrest] at hsplit hcount
    have hnonempty : body.takeWhile Char.isDigit ≠ [] := by
      obtain ⟨c, hc, _⟩ := hdigit
      rw [List.append_nil] at hsplit
      rw [hsplit]
      exact List.ne_nil_of_mem hc
    simp [hnonempty, ← hcount]
  | cons point fraction =>
    have hpoint : point.isDigit ≠ true := by
      have hhead := List.head?_dropWhile_not Char.isDigit body
      rw [hrest] at hhead
      simpa using hhead
    have hmem : ∀ c ∈ point :: fraction, c ∈ body := by
      intro c hc
      rw [← hrest] at hc
      exact List.dropWhile_subset Char.isDigit hc
    have hdot : point = '.' := by
      by_contra hne
      exact hpoint (isDigit_of_isNumberChar (hbody point (hmem point List.mem_cons_self)) hne)
    have hfraction : fraction.all Char.isDigit = true ↔ fraction.count '.' = 0 :=
      all_isDigit_iff fun c hc => hbody c (hmem c (List.mem_cons_of_mem _ hc))
    rw [hrest, hdot, List.count_cons_self] at hcount
    have hempty (hzero : fraction.count '.' = 0) :
        ¬ (body.takeWhile Char.isDigit = [] ∧ fraction = []) := by
      rintro ⟨htake, rfl⟩
      obtain ⟨c, hc, hcdigit⟩ := hdigit
      rw [← hsplit, htake, hrest, hdot] at hc
      obtain rfl : c = '.' := by simpa using hc
      exact absurd hcdigit (by decide)
    simp only [hdot, decide_true, Bool.true_and]
    by_cases hall : fraction.all Char.isDigit = true
    · have hzero := hfraction.mp hall
      have hne := hempty hzero
      have hsome : (!((body.takeWhile Char.isDigit).isEmpty && fraction.isEmpty)) = true := by
        simp only [Bool.not_eq_true', Bool.and_eq_false_iff, List.isEmpty_eq_false_iff]
        exact not_and_or.mp hne
      simp only [hall, hsome, Bool.and_self, if_true, Option.isSome_some, true_iff]
      omega
    · have hpos : fraction.count '.' ≠ 0 := fun hzero => hall (hfraction.mpr hzero)
      simp only [hall, Bool.false_and, Bool.false_eq_true, if_false, Option.isSome_none, false_iff]
      omega

/-- A number text is read as a number exactly if it has at most one point. -/
theorem isSome_float?_iff {text : String} (h : IsNumberText text) :
    (Decimal.float? text.toList).isSome = true ↔ IsLiteral text := by
  obtain ⟨sign, body, htext, hsign, hbody, hdigit⟩ := h
  have hiff := isSome_unsignedFloat?_iff hbody hdigit
  unfold IsLiteral
  rcases hsign with rfl | rfl
  · rw [htext, List.nil_append]
    have hfloat : Decimal.float? body = Decimal.unsignedFloat? body := by
      unfold Decimal.float?
      split
      · exact absurd (hbody '-' List.mem_cons_self) (by decide)
      · rfl
    rw [hfloat, hiff]
  · rw [htext, List.singleton_append, List.count_cons_of_ne (by decide)]
    simpa [Decimal.float?] using hiff

/-- A number fits exactly between the least and the greatest one. -/
private theorem isSome_fitInt64?_iff {n : Int} :
    (Decimal.fitInt64? n).isSome = true ↔
      Int64.minValue.toInt ≤ n ∧ n ≤ Int64.maxValue.toInt := by
  unfold Decimal.fitInt64?
  split
  case isTrue h => simpa using h
  case isFalse h => simpa using h

/-- Digits are read as a position exactly if their number fits, with or without a minus sign. -/
theorem isSome_int64?_iff {text : String} :
    (Decimal.int64? text.toList).isSome = true ↔ IsPosition text := by
  have hread (cs : List Char) (f : Nat → Int) :
      ((Decimal.nat? cs).bind fun n => Decimal.fitInt64? (f n)).isSome = true ↔
        cs ≠ [] ∧ (∀ c ∈ cs, c.isDigit = true) ∧
          Int64.minValue.toInt ≤ f (Decimal.ofDigits cs) ∧
          f (Decimal.ofDigits cs) ≤ Int64.maxValue.toInt := by
    cases hnat : Decimal.nat? cs with
    | none =>
      simp only [Option.bind_none, Option.isSome_none, Bool.false_eq_true, false_iff]
      rintro ⟨hne, hdigits, -⟩
      rw [Decimal.nat?_eq_some_iff.mpr ⟨hne, hdigits, rfl⟩] at hnat
      cases hnat
    | some n =>
      obtain ⟨hne, hdigits, rfl⟩ := Decimal.nat?_eq_some_iff.mp hnat
      rw [Option.bind_some, isSome_fitInt64?_iff]
      exact ⟨fun h => ⟨hne, hdigits, h⟩, fun h => h.2.2⟩
  have hmin : Int64.minValue.toInt ≤ 0 := by decide
  have hmax : 0 ≤ Int64.maxValue.toInt := by decide
  unfold Decimal.int64? IsPosition
  split
  · rename_i digits htext
    rw [hread digits fun n => -n]
    constructor
    · rintro ⟨hne, hdigits, hlow, _⟩
      exact ⟨digits, hne, hdigits, Or.inr ⟨htext, by omega⟩⟩
    · rintro ⟨other, hne, hdigits, ⟨heq, _⟩ | ⟨heq, hbound⟩⟩
      · rw [htext] at heq
        exact absurd (hdigits '-' (heq ▸ List.mem_cons_self)) (by decide)
      · rw [htext] at heq
        obtain rfl := (List.cons.inj heq).2
        exact ⟨hne, hdigits, by omega, by omega⟩
  · rename_i hminus
    rw [hread _ fun n => n]
    constructor
    · rintro ⟨hne, hdigits, _, hhigh⟩
      exact ⟨text.toList, hne, hdigits, Or.inl ⟨rfl, by omega⟩⟩
    · rintro ⟨other, hne, hdigits, ⟨heq, hbound⟩ | ⟨heq, _⟩⟩
      · rw [heq]
        exact ⟨hne, hdigits, by omega, by omega⟩
      · exact absurd heq (hminus other)

/-- A token of the scanner is no number, or has a number text. -/
theorem Lexeme.read_number {c : Char} {rest : List Char}
    (h : (Lexeme.read c rest).kind = .number) :
    IsNumberText (String.ofList (Lexeme.read c rest).text) := by
  unfold Lexeme.read at h ⊢
  by_cases hstarts : Lexeme.startsNumber c rest = true
  · have hrun : ∀ d ∈ rest.takeWhile isNumberChar, isNumberChar d = true :=
      List.all_eq_true.mp List.all_takeWhile
    rw [if_pos hstarts]
    simp only [Lexeme.number, IsNumberText, String.toList_ofList]
    -- A number starts with a digit, or with a sign or a point that a digit follows.
    have hcases : c.isDigit = true ∨ ((c = '.' ∨ c = '-') ∧
        ∃ d ∈ rest.takeWhile isNumberChar, d.isDigit = true) := by
      unfold Lexeme.startsNumber at hstarts
      cases hdigit : c.isDigit with
      | true => exact Or.inl rfl
      | false =>
        right
        simp only [hdigit, Bool.false_or, Bool.and_eq_true, Bool.or_eq_true, beq_iff_eq] at hstarts
        obtain ⟨hc, hhead⟩ := hstarts
        cases rest with
        | nil => simp at hhead
        | cons d rest =>
          have hd : d.isDigit = true := by simpa using hhead
          have hnumber : isNumberChar d = true := by simp [isNumberChar, hd]
          exact ⟨hc, d, by simp [hnumber], hd⟩
    rcases hcases with hdigit | ⟨rfl | rfl, d, hd, hdigit⟩
    · refine ⟨[], _, rfl, Or.inl rfl, ?_, c, List.mem_cons_self, hdigit⟩
      intro d hd
      rcases List.mem_cons.mp hd with rfl | hmem
      · simp [isNumberChar, hdigit]
      · exact hrun d hmem
    · refine ⟨[], _, rfl, Or.inl rfl, ?_, d, List.mem_cons_of_mem _ hd, hdigit⟩
      intro d hd
      rcases List.mem_cons.mp hd with rfl | hmem
      · decide
      · exact hrun d hmem
    · exact ⟨['-'], _, rfl, Or.inr rfl, hrun, d, hd, hdigit⟩
  · rw [if_neg hstarts] at h
    split at h
    · rename_i kind hkind
      simp only at h
      subst h
      unfold punctuation? at hkind
      split at hkind <;> cases hkind
    · split at h
      · unfold Lexeme.quoted at h
        split at h <;> cases h
      · split at h <;> cases h

/-- A lexeme is never the end of input. -/
theorem Lexeme.kind_read_ne (c : Char) (rest : List Char) :
    (Lexeme.read c rest).kind ≠ .endOfInput := by
  unfold Lexeme.read
  split
  · simp [Lexeme.number]
  · split
    · rename_i kind hkind
      rintro rfl
      unfold punctuation? at hkind
      split at hkind <;> cases hkind
    · split
      · unfold Lexeme.quoted
        split <;> simp
      · split <;> simp [Lexeme.word]

/-- A lexeme takes at least the first character. -/
theorem Lexeme.length_rest_read_le (c : Char) (rest : List Char) :
    (Lexeme.read c rest).rest.length ≤ rest.length := by
  unfold Lexeme.read
  split
  · exact (List.dropWhile_sublist _).length_le
  · split
    · exact Nat.le_refl _
    · split
      · have hle := (List.dropWhile_sublist (l := rest) fun d => d != '"').length_le
        unfold Lexeme.quoted
        split
        · exact Nat.zero_le _
        · rename_i close after hafter
          rw [hafter] at hle
          exact Nat.le_of_succ_le hle
      · split
        · rename_i hword
          rw [Lexeme.word, List.dropWhile_cons_of_pos hword]
          exact (List.dropWhile_sublist _).length_le
        · exact Nat.le_refl _

namespace Scanner

/-- Skipping blanks makes no text longer. -/
private theorem length_skipBlanks_le (cs : List Char) (position : Position) :
    (skipBlanks cs position).rest.length ≤ cs.length := by
  induction cs generalizing position with
  | nil => exact Nat.le_refl _
  | cons c rest ih =>
    unfold skipBlanks
    split
    · exact Nat.le_succ_of_le (ih _)
    · exact Nat.le_refl _

/-- A token is a lexeme or the end of input, and a lexeme leaves less to be read. -/
theorem next_cases (scanner : Scanner) :
    scanner.next.1.kind = .endOfInput ∨
      (scanner.next.1.kind ≠ .endOfInput ∧
        scanner.next.2.rest.length < scanner.rest.length ∧
        (scanner.next.1.kind = .number → IsNumberText scanner.next.1.text)) := by
  have hle := length_skipBlanks_le scanner.rest scanner.position
  simp only [next]
  cases hrest : (skipBlanks scanner.rest scanner.position).rest with
  | nil => exact Or.inl rfl
  | cons c rest =>
    right
    rw [hrest, List.length_cons] at hle
    have hread := Lexeme.length_rest_read_le c rest
    refine ⟨Lexeme.kind_read_ne c rest, ?_, Lexeme.read_number⟩
    simp only
    omega

/-- The tokens are lexemes and then the end of input, if no more than `limit` characters are
left. -/
theorem tokensWithin_shape {limit : Nat} {scanner : Scanner} (h : scanner.rest.length ≤ limit) :
    ∃ words last, scanner.tokensWithin limit = words ++ [last] ∧ last.kind = .endOfInput ∧
      ∀ word ∈ words, word.kind ≠ .endOfInput ∧ (word.kind = .number → IsNumberText word.text) := by
  induction limit generalizing scanner with
  | zero =>
    refine ⟨[], scanner.next.1, rfl, ?_, by simp⟩
    rcases next_cases scanner with hend | ⟨_, hless, _⟩
    · exact hend
    · omega
  | succ limit ih =>
    rcases next_cases scanner with hend | ⟨hkind, hless, hnumber⟩
    · exact ⟨[], scanner.next.1, by simp [tokensWithin, hend], hend, by simp⟩
    · have hrest : scanner.next.2.rest.length ≤ limit := by omega
      obtain ⟨words, last, heq, hlast, hwords⟩ := ih hrest
      refine ⟨scanner.next.1 :: words, last, by simp [tokensWithin, hkind, heq], hlast, ?_⟩
      intro word hword
      rcases List.mem_cons.mp hword with rfl | hmem
      · exact ⟨hkind, hnumber⟩
      · exact hwords word hmem

end Scanner

/-- The tokens of a source are lexemes, and then the end of input. -/
theorem tokenize_shape {source : String} {tokens : List Token} (h : tokenize source = .ok tokens) :
    ∃ words last, tokens = words ++ [last] ∧ last.kind = .endOfInput ∧
      ∀ word ∈ words, word.kind ≠ .endOfInput ∧ (word.kind = .number → IsNumberText word.text) := by
  unfold tokenize at h
  simp only at h
  split at h
  · cases h
  · cases h
    exact Scanner.tokensWithin_shape (Nat.le_refl _)

end Sluice.Filter
