import Mathlib.Tactic.Common
import Sluice.Decimal.Reading

/-!
# Whole numbers in decimal

A text is read as a number of 64 signed bits exactly if it is a decimal form of it
(`Decimal.int64?_eq_some_iff`). A number has many such forms, since zeros may lead; the one it is
shown in is among them.
-/

namespace Sluice.Decimal

/-- Whether a text is a decimal form of a number of 64 signed bits: its digits, behind a minus sign
or not. Zeros may lead, and zero may have a sign. -/
def IsDecimal (text : String) (n : Int64) : Prop :=
  ∃ digits : List Char, digits ≠ [] ∧ (∀ c ∈ digits, c.isDigit = true) ∧
    ((text.toList = digits ∧ n.toInt = Nat.ofDigitChars 10 digits 0) ∨
      (text.toList = '-' :: digits ∧ n.toInt = -(Nat.ofDigitChars 10 digits 0 : Int)))

/-- Digits are read as the number they stand for. -/
theorem nat?_eq_some_iff {cs : List Char} {n : Nat} :
    nat? cs = some n ↔ cs ≠ [] ∧ (∀ c ∈ cs, c.isDigit = true) ∧ ofDigits cs = n := by
  unfold nat?
  cases cs with
  | nil => simp
  | cons c cs => simp [and_assoc]

/-- A whole number fits where it is the value of a 64-bit integer. -/
theorem fitInt64?_eq_some_iff {z : Int} {n : Int64} : fitInt64? z = some n ↔ n.toInt = z := by
  have hlow := n.minValue_le_toInt
  have hhigh := n.toInt_le
  unfold fitInt64?
  split
  next hfits =>
    simp only [Bool.and_eq_true, decide_eq_true_eq] at hfits
    rw [Int64.toInt_minValue, Int64.toInt_maxValue] at hfits
    have hvalue : (Int64.ofInt z).toInt = z := Int64.toInt_ofInt_of_le (by omega) (by omega)
    constructor
    · rintro ⟨⟩
      exact hvalue
    · rintro rfl
      rw [Int64.ofInt_toInt]
  next hfits =>
    refine iff_of_false (by simp) ?_
    rintro rfl
    exact hfits (by rw [decide_eq_true hlow, decide_eq_true hhigh]; rfl)

/-- A text is read as a number of 64 signed bits exactly if it is a decimal form of it. -/
theorem int64?_eq_some_iff {text : String} {n : Int64} :
    int64? text.toList = some n ↔ IsDecimal text n := by
  unfold int64? IsDecimal
  split
  next digits htext =>
    simp only [Option.bind_eq_some_iff, nat?_eq_some_iff, fitInt64?_eq_some_iff]
    constructor
    · rintro ⟨m, ⟨hne, hdigits, rfl⟩, hvalue⟩
      exact ⟨digits, hne, hdigits, Or.inr ⟨htext, hvalue⟩⟩
    · rintro ⟨others, hne, hdigits, ⟨heq, _⟩ | ⟨heq, hvalue⟩⟩
      · -- A minus sign is no digit.
        rw [htext] at heq
        exact absurd (hdigits '-' (heq ▸ List.mem_cons_self)) (by decide)
      · rw [htext] at heq
        obtain rfl := (List.cons.inj heq).2
        exact ⟨_, ⟨hne, hdigits, rfl⟩, hvalue⟩
  next hminus =>
    simp only [Option.bind_eq_some_iff, nat?_eq_some_iff, fitInt64?_eq_some_iff]
    constructor
    · rintro ⟨m, ⟨hne, hdigits, rfl⟩, hvalue⟩
      exact ⟨text.toList, hne, hdigits, Or.inl ⟨rfl, hvalue⟩⟩
    · rintro ⟨others, hne, hdigits, ⟨rfl, hvalue⟩ | ⟨heq, _⟩⟩
      · exact ⟨_, ⟨hne, hdigits, rfl⟩, hvalue⟩
      · exact absurd heq (hminus others)

/-- A number is shown in a decimal form of it. -/
theorem isDecimal_toString (n : Int64) : IsDecimal (toString n) n := by
  have hdigits (m : Nat) : m.repr.toList ≠ [] ∧ (∀ c ∈ m.repr.toList, c.isDigit = true) ∧
      Nat.ofDigitChars 10 m.repr.toList 0 = m := by
    rw [Nat.toList_repr]
    exact ⟨Nat.toDigits_ne_nil, fun c hc => Nat.isDigit_of_mem_toDigits (by omega) (by omega) hc,
      Nat.ofDigitChars_ten_toDigits⟩
  have hshown : toString n = n.toInt.repr := rfl
  rw [hshown]
  cases hvalue : n.toInt with
  | ofNat m =>
    obtain ⟨hne, hall, hread⟩ := hdigits m
    exact ⟨m.repr.toList, hne, hall, Or.inl ⟨rfl, by rw [hvalue, hread]; rfl⟩⟩
  | negSucc m =>
    obtain ⟨hne, hall, hread⟩ := hdigits (m + 1)
    refine ⟨(m + 1).repr.toList, hne, hall, Or.inr ⟨?_, by rw [hvalue, hread]; rfl⟩⟩
    simp [Int.repr, String.toList_append]

end Sluice.Decimal
