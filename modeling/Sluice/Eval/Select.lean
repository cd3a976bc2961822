import Sluice.Eval.OneShot

/-!
# Selectors on one input

What the index and range selectors, `length`, `.[]` and arithmetic make of one input. Links are
followed first.
-/

namespace Sluice.Evaluator

open Sluice.Action

/-- A new iterator over a collection. -/
def iterateArray (array : Handle .array) : Action (Handle .iterator) :=
  perform (Store.iterateArray array)

/-- The element at a position. -/
def selectIndex (evaluator : Evaluator) (position : Int64) (input : Value) : Action Value := do
  match ← evaluator.resolve input with
  | .iterator iterator => evaluator.nth iterator position
  | .array array => do
    let iterator ← iterateArray array
    evaluator.nth iterator position
  | .sequence items => ofExcept (select position items)
  | .text s =>
    ofExcept ((select position s.toList).map fun c => .text (String.singleton c))
  | .bytes content => ofExcept ((select position content).map .byte)
  | .byteStream stream => reject .indexSelector (.byteStream stream)
  | other => evaluator.unsupported .indexSelector other

/-- The elements between two bounds. Without bounds that is the input as it is, link or not. -/
def selectRange (evaluator : Evaluator) (range : Filter.Range) (input : Value) : Action Value := do
  if range.isAll then pure input
  else
    match ← evaluator.resolve input with
    | .iterator iterator => evaluator.collectRange iterator range
    | .array array => do
      let iterator ← iterateArray array
      evaluator.collectRange iterator range
    | .byteStream stream => readRange stream range
    | .sequence items => pure (.sequence (slice range items))
    | .text s => pure (.text (String.ofList (slice range s.toList)))
    | .bytes content => pure (.bytes (slice range content))
    | other => evaluator.unsupported .rangeSelector other

/-- The count of elements, characters, bytes or entries. -/
def length (evaluator : Evaluator) (input : Value) : Action Value := do
  match ← evaluator.resolve input with
  | .text s => pure (.ofCount s.length)
  | .bytes content => pure (.ofCount content.length)
  | .sequence items => pure (.ofCount items.length)
  | .mapping entries => pure (.ofCount entries.length)
  | .dict entries => pure (.ofCount entries.length)
  | .iterator iterator => .ofCount <$> evaluator.count iterator
  | .array array => do
    let iterator ← iterateArray array
    .ofCount <$> evaluator.count iterator
  | .map map => do
    let iterator ← perform (Store.iterateMap map)
    .ofCount <$> evaluator.count iterator
  | .byteStream stream => reject .length (.byteStream stream)
  | other => evaluator.unsupported .length other

/-- A new stream as a value. -/
def newStream (shape : LazyStream.Shape) (elements : List Value) : Action Value := do
  let stream ← perform (Store.newStream shape elements)
  pure (.stream stream)

/-- The elements one by one: an iterator, or a stream. A stream becomes the one element of a new
stream, and so does anything that has no elements of its own. -/
def iterateAll (evaluator : Evaluator) (input : Value) : Action Value :=
  match input with
  | .stream stream => newStream .wrapped [.stream stream]
  | input => do
    match ← evaluator.resolve input with
    | .iterator iterator => pure (.iterator iterator)
    | .array array => do
      let iterator ← iterateArray array
      pure (.iterator iterator)
    | .sequence items => newStream .values items
    | other => newStream .single [other]

/-- What an operator makes of two numbers, if it is supported. -/
def operate? : Filter.Operator → Float → Float → Option Float
  | .multiply, a, b => some (a * b)
  | .add, a, b => some (a + b)
  | _, _, _ => none

/-- What an operator makes of two values. Only numbers are supported, and of the operators only
addition and multiplication; whatever else the operands hold is released. -/
def arithmetic (evaluator : Evaluator) (left : Value) (operator : Filter.Operator)
    (right : Value) : Action Value := do
  let left ← evaluator.resolve left
  let right ← (evaluator.resolve right).orRelease [left]
  match left.toFloat?.bind fun a => right.toFloat?.bind fun b => operate? operator a b with
  | some x => pure (.float x)
  | none =>
    perform fun store => ((), releaseAll [left, right] store)
    throw (.unsupportedBinary left.kind operator right.kind)

end Sluice.Evaluator
