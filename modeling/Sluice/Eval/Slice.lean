import Sluice.Eval.Error

/-!
# Positions and slices

Where the length is known, a negative position counts from the end, an index has to fall on an
element, and the bounds of a slice are cut off at both ends. Where the length is not known until
everything has been run through, positions have to be counted from the start.
-/

namespace Sluice

/-- A position counted from the start, where a negative one counts from the end. -/
def fromStart (position : Int64) (length : Nat) : Int :=
  if position.toInt < 0 then length + position.toInt else position.toInt

/-- The element of a list of the given length that an index selects. -/
def indexIn (position : Int64) (length : Nat) : Except EvalError Nat :=
  let start := fromStart position length
  if 0 ≤ start && start < length then .ok start.toNat else .error (.index position length)

/-- The element that an index selects. -/
def select {α : Type} (position : Int64) (items : List α) : Except EvalError α :=
  match indexIn position items.length with
  | .error error => .error error
  | .ok n =>
    match items[n]? with
    | some item => .ok item
    | none => .error (.index position items.length)

/-- A bound of a slice, cut off at both ends. -/
def clampBound (position : Int64) (length : Nat) : Nat :=
  min (fromStart position length).toNat length

/-- The bounds of a slice among so many elements. The first is not after the second. -/
def sliceBounds (range : Filter.Range) (length : Nat) : Nat × Nat :=
  let start := range.start.elim 0 (clampBound · length)
  let stop := range.stop.elim length (clampBound · length)
  (min start stop, stop)

/-- A clamped bound does not exceed the length. -/
theorem clampBound_le (position : Int64) (length : Nat) : clampBound position length ≤ length :=
  Nat.min_le_right _ _

/-- A slice does not start after it stops. -/
theorem sliceBounds_fst_le_snd (range : Filter.Range) (length : Nat) :
    (sliceBounds range length).1 ≤ (sliceBounds range length).2 :=
  Nat.min_le_right _ _

/-- A slice stops within the length. -/
theorem sliceBounds_snd_le (range : Filter.Range) (length : Nat) :
    (sliceBounds range length).2 ≤ length := by
  simp only [sliceBounds]
  cases range.stop with
  | none => exact Nat.le_refl length
  | some position => exact clampBound_le position length

/-- The elements between the bounds of a slice. -/
def slice {α : Type} (range : Filter.Range) (items : List α) : List α :=
  let (start, stop) := sliceBounds range items.length
  (items.drop start).take (stop - start)

/-- A slice has as many elements as there are positions between its bounds. -/
theorem length_slice {α : Type} (range : Filter.Range) (items : List α) :
    (slice range items).length =
      (sliceBounds range items.length).2 - (sliceBounds range items.length).1 := by
  have hle := sliceBounds_snd_le range items.length
  simp only [slice, List.length_take, List.length_drop]
  omega

/-- A position counted from the start of something that can be run through only once. -/
def oneShotPosition (source : Value.Kind) (position : Int64) : Except EvalError Nat :=
  if position.toInt < 0 then .error (.negativeOnOneShot position source)
  else .ok position.toInt.toNat

/-- The bounds of a slice of something that can be run through only once. -/
def oneShotBounds (source : Value.Kind) (range : Filter.Range) :
    Except EvalError (Nat × Option Nat) := do
  let start ← match range.start with
    | none => pure 0
    | some position => oneShotPosition source position
  let stop ← match range.stop with
    | none => pure none
    | some position => some <$> oneShotPosition source position
  pure (start, stop)

end Sluice
