import Sluice.Eval.Evaluator
import Sluice.Eval.Slice

/-!
# Selecting from what can be run through once

Indexing, slicing and counting an iterator, and slicing a byte stream. All of them close their
source in the end, however they end. An iterator never grows, so the number of its elements bounds
how often it has to be advanced.
-/

namespace Sluice.Evaluator

open Sluice.Action

/-- Moves an iterator on and says whether there is a further value. -/
def advance (iterator : Handle .iterator) : Action Bool := perform (Store.advance iterator)

/-- The value an iterator stands on. -/
def current (iterator : Handle .iterator) : Action Value :=
  attempt .value (Store.current iterator)

/-- How many advances reach the end of an iterator, the failing one included. -/
def advancesLeft (iterator : Handle .iterator) : Action Nat :=
  perform fun store => ((store.iterators.get iterator).cursor.rest.length + 1, store)

/-- Uses an iterator and closes it. -/
def closingIterator {α : Type} (iterator : Handle .iterator) (body : Action α) : Action α :=
  body.thenClose fun store =>
    let (result, store) := store.closeIterator iterator
    (result.mapError .value, store)

/-- Runs to the value `skip` places ahead, within `limit` advances. -/
def seek (evaluator : Evaluator) (iterator : Handle .iterator) (position : Int64) :
    (limit skip seen : Nat) → Action Value
  | 0, _, seen => throw (.index position seen)
  | limit + 1, skip, seen => do
    if ← advance iterator then
      match skip with
      | 0 => current iterator
      | skip + 1 =>
        evaluator.check
        evaluator.seek iterator position limit skip (seen + 1)
    else throw (.index position seen)

/-- The value of an iterator at a position. -/
def nth (evaluator : Evaluator) (iterator : Handle .iterator) (position : Int64) : Action Value :=
  closingIterator iterator do
    let target ← ofExcept (oneShotPosition .iterator position)
    let limit ← advancesLeft iterator
    evaluator.seek iterator position limit target 0

/-- Collects the values from `start` up to before `stop`, within `limit` advances. The values
collected before come newest first. -/
def window (evaluator : Evaluator) (iterator : Handle .iterator) (start : Nat) (stop : Option Nat) :
    (limit position : Nat) → List Value → Action (List Value)
  | 0, _, collected => pure collected.reverse
  | limit + 1, position, collected => do
    if stop.all (position < ·) then
      if ← advance iterator then
        let collected ← if start ≤ position then
            (· :: collected) <$> current iterator
          else pure collected
        evaluator.check
        evaluator.window iterator start stop limit (position + 1) collected
      else pure collected.reverse
    else pure collected.reverse

/-- The values of an iterator between two bounds. -/
def collectRange (evaluator : Evaluator) (iterator : Handle .iterator) (range : Filter.Range) :
    Action Value :=
  closingIterator iterator do
    let (start, stop) ← ofExcept (oneShotBounds .iterator range)
    let limit ← advancesLeft iterator
    let values ← evaluator.window iterator start stop limit 0 []
    pure (.sequence values)

/-- Counts the values of an iterator, within `limit` advances. -/
def countFrom (evaluator : Evaluator) (iterator : Handle .iterator) :
    (limit count : Nat) → Action Nat
  | 0, count => pure count
  | limit + 1, count => do
    if ← advance iterator then
      evaluator.check
      evaluator.countFrom iterator limit (count + 1)
    else pure count

/-- The number of values of an iterator. -/
def count (evaluator : Evaluator) (iterator : Handle .iterator) : Action Nat :=
  closingIterator iterator do
    let limit ← advancesLeft iterator
    evaluator.countFrom iterator limit 0

/-- The bytes of a stream between two bounds. -/
def readRange (stream : Handle .byteStream) (range : Filter.Range) : Action Value :=
  thenClose
    (do
      let (start, stop) ← ofExcept (oneShotBounds .byteStream range)
      let skipped ← attempt .byteStream (Store.readUpTo stream start)
      if skipped.length < start then pure (.bytes [])
      else
        let content ← attempt .byteStream
          (match stop with
            | some stop => Store.readUpTo stream (stop - start)
            | none => Store.readToEnd stream)
        pure (.bytes content))
    fun store =>
      let (result, store) := store.closeByteStream stream
      (result.mapError .byteStream, store)

end Sluice.Evaluator
