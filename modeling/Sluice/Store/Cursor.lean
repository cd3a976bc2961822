import Sluice.Value.Error

/-!
# Running through values in memory

A cursor moves forward over a list of values. It stands before the first, on one of them or past
the last, and it can be closed at any time. The key of a value is its position, from zero.
-/

namespace Sluice

/-- A forward-only position in a list of values. -/
structure Cursor where
  /-- The values not reached yet. -/
  rest : List Value
  /-- The value the cursor stands on, with its position. -/
  current : Option (Nat × Value) := none
  /-- How many values have been reached. -/
  reached : Nat := 0
  closed : Bool := false

namespace Cursor

/-- A cursor before the first of the values. -/
def ofValues (values : List Value) : Cursor := { rest := values }

/-- Moves to the next value and says whether there is one. -/
def next (cursor : Cursor) : Bool × Cursor :=
  if cursor.closed then (false, cursor)
  else
    match cursor.rest with
    | [] => (false, { cursor with current := none })
    | value :: rest =>
      (true, { cursor with
        rest := rest
        current := some (cursor.reached, value)
        reached := cursor.reached + 1 })

/-- The value the cursor stands on. -/
def scan (cursor : Cursor) : Except ValueError Value :=
  if cursor.closed then .error .iteratorClosed
  else
    match cursor.current with
    | none => .error .notPositioned
    | some (_, value) => .ok value

/-- The position of the value the cursor stands on, or null. Closing does not change it. -/
def key (cursor : Cursor) : Value :=
  match cursor.current with
  | none => .null
  | some (position, _) => .ofCount position

/-- Closes a cursor where it stands. -/
def close (cursor : Cursor) : Cursor := { cursor with closed := true }

end Cursor

end Sluice
