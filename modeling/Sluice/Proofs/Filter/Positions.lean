import Sluice.Proofs.Filter.Scanning

/-!
# Places of tokens

Every token but the end of input takes at least one character, and every character at least one
byte. So the offsets of the tokens of a source increase, and a place in an error tells which token
it is about.
-/

namespace Sluice.Filter

namespace Position

/-- A character moves the offset on. -/
theorem offset_lt_advance (position : Position) (c : Char) :
    position.offset < (position.advance c).offset := by
  have hsize := c.utf8Size_pos
  unfold advance
  split <;> simp only <;> omega

/-- Text never moves the offset back. -/
theorem offset_le_advanceAll (position : Position) (cs : List Char) :
    position.offset ≤ (position.advanceAll cs).offset := by
  induction cs generalizing position with
  | nil => exact Nat.le_refl _
  | cons c cs ih =>
    rw [advanceAll_cons]
    exact Nat.le_trans (Nat.le_of_lt (position.offset_lt_advance c)) (ih _)

/-- Text that is not empty moves the offset on. -/
theorem offset_lt_advanceAll (position : Position) {cs : List Char} (h : cs ≠ []) :
    position.offset < (position.advanceAll cs).offset := by
  obtain ⟨c, cs, rfl⟩ := List.exists_cons_of_ne_nil h
  rw [advanceAll_cons]
  exact Nat.lt_of_lt_of_le (position.offset_lt_advance c) (offset_le_advanceAll _ cs)

end Position

/-- A lexeme is cut from at least one character. -/
theorem Lexeme.spelling_read_ne_nil (c : Char) (rest : List Char) :
    (Lexeme.read c rest).spelling ≠ [] := by
  unfold Lexeme.read
  split
  · simp [Lexeme.number]
  · split
    · simp
    · split
      · unfold Lexeme.quoted
        split <;> simp
      · split
        case isTrue hword => simp [Lexeme.word, hword]
        case isFalse => simp

namespace Scanner

/-- Blanks never move the offset back. -/
theorem offset_le_skipBlanks (cs : List Char) (position : Position) :
    position.offset ≤ (skipBlanks cs position).position.offset := by
  induction cs generalizing position with
  | nil => exact Nat.le_refl _
  | cons c rest ih =>
    unfold skipBlanks
    split
    · exact Nat.le_trans (Nat.le_of_lt (position.offset_lt_advance c)) (ih _)
    · exact Nat.le_refl _

/-- A token does not stand before the place the scanner is at. -/
theorem offset_le_next (scanner : Scanner) :
    scanner.position.offset ≤ scanner.next.1.position.offset := by
  have hstart := offset_le_skipBlanks scanner.rest scanner.position
  simp only [next]
  split <;> exact hstart

/-- What is left after a token starts behind the place of the token. -/
theorem offset_next_lt {scanner : Scanner} (h : scanner.next.1.kind ≠ .endOfInput) :
    scanner.next.1.position.offset < scanner.next.2.position.offset := by
  simp only [next] at h ⊢
  split
  case h_1 hrest => simp [hrest] at h
  case h_2 c rest hrest =>
    exact Position.offset_lt_advanceAll _ (Lexeme.spelling_read_ne_nil c rest)

/-- No token that is still to come stands before the place the scanner is at. -/
theorem offset_le_of_mem_tokensWithin {limit : Nat} {scanner : Scanner} {token : Token}
    (h : token ∈ scanner.tokensWithin limit) :
    scanner.position.offset ≤ token.position.offset := by
  induction limit generalizing scanner with
  | zero =>
    obtain rfl := List.mem_singleton.mp h
    exact scanner.offset_le_next
  | succ limit ih =>
    simp only [tokensWithin] at h
    split at h
    case isTrue =>
      obtain rfl := List.mem_singleton.mp h
      exact scanner.offset_le_next
    case isFalse hkind =>
      rcases List.mem_cons.mp h with rfl | hmem
      · exact scanner.offset_le_next
      · have hstep := Nat.lt_of_le_of_lt scanner.offset_le_next (offset_next_lt hkind)
        exact Nat.le_trans (Nat.le_of_lt hstep) (ih hmem)

/-- The offsets of the tokens increase. -/
theorem pairwise_offset_tokensWithin (limit : Nat) (scanner : Scanner) :
    (scanner.tokensWithin limit).Pairwise fun token later =>
      token.position.offset < later.position.offset := by
  induction limit generalizing scanner with
  | zero => exact List.pairwise_singleton _ _
  | succ limit ih =>
    simp only [tokensWithin]
    split
    case isTrue => exact List.pairwise_singleton _ _
    case isFalse hkind =>
      refine List.pairwise_cons.mpr ⟨fun later hlater => ?_, ih _⟩
      exact Nat.lt_of_lt_of_le (offset_next_lt hkind) (offset_le_of_mem_tokensWithin hlater)

end Scanner

/-- The tokens of a source stand one behind another. -/
theorem tokenize_pairwise_offset {source : String} {tokens : List Token}
    (h : tokenize source = .ok tokens) :
    tokens.Pairwise fun token later => token.position.offset < later.position.offset := by
  unfold tokenize at h
  simp only at h
  split at h
  · cases h
  · cases h
    exact Scanner.pairwise_offset_tokensWithin _ _

/-- No two tokens of a source stand at one place. -/
theorem tokenize_position_injective {source : String} {tokens : List Token}
    (h : tokenize source = .ok tokens) {i j : Nat} {first second : Token}
    (hfirst : tokens[i]? = some first) (hsecond : tokens[j]? = some second)
    (hposition : first.position = second.position) : i = j := by
  obtain ⟨hi, rfl⟩ := List.getElem?_eq_some_iff.mp hfirst
  obtain ⟨hj, rfl⟩ := List.getElem?_eq_some_iff.mp hsecond
  have hpairwise := List.pairwise_iff_getElem.mp (tokenize_pairwise_offset h)
  have hoffset := congrArg Position.offset hposition
  rcases Nat.lt_trichotomy i j with hlt | heq | hlt
  · exact absurd (hpairwise i j hi hj hlt) (by omega)
  · exact heq
  · exact absurd (hpairwise j i hj hi hlt) (by omega)

end Sluice.Filter
