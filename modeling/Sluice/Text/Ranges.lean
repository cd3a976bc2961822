/-!
# Sets of characters as ranges

A Unicode property is kept as a list of inclusive ranges of code points, ascending and disjoint.
A lookup walks the list and stops at the first range that begins above the code point, so the
common low characters are found or refused at once.
-/

namespace Sluice.Text

/-- Ascending, disjoint, inclusive ranges of code points. -/
abbrev Ranges := List (Nat × Nat)

/-- Whether a code point lies in one of the ranges. -/
def Ranges.contains : Ranges → Nat → Bool
  | [], _ => false
  | (low, high) :: rest, n => if n < low then false else n ≤ high || contains rest n

/-- No range holds no code point. -/
@[simp] theorem Ranges.contains_nil (n : Nat) : Ranges.contains [] n = false := rfl

/-- A code point that is found lies in one of the listed ranges. -/
theorem Ranges.exists_of_contains {ranges : Ranges} {n : Nat} (h : ranges.contains n = true) :
    ∃ range ∈ ranges, range.1 ≤ n ∧ n ≤ range.2 := by
  induction ranges with
  | nil => simp at h
  | cons range rest ih =>
    obtain ⟨low, high⟩ := range
    unfold Ranges.contains at h
    by_cases hlow : n < low
    · simp [hlow] at h
    · simp only [hlow, if_false, Bool.or_eq_true, decide_eq_true_eq] at h
      rcases h with hhigh | hrest
      · exact ⟨(low, high), by simp, by simp only; omega, hhigh⟩
      · obtain ⟨range, hmem, hrange⟩ := ih hrest
        exact ⟨range, by simp [hmem], hrange⟩

end Sluice.Text
