import Sluice.Eval.Select

/-!
# Applying an operation to every element

A stream input makes most operations apply to each of its elements, and a key selector also applies
to each element of a sequence. The results are collected in order; on the first failure the results
before it are released, and the elements after it stay in the stream.

Streams hold only values that are older than they are, so the number of streams bounds how deep a
stream can be met inside a stream.
-/

namespace Sluice.Evaluator

open Sluice.Action

/-- Applies an action to each element of a stream. -/
def spread (stream : Handle .stream) (f : Value → Action Value) : Action Value := do
  match ← (ExceptT.lift (Store.mapEach stream fun value => (f value).run) :
      Action (Except (EvalError × List Value) (List Value))) with
  | .ok values => pure (.sequence values)
  | .error (error, values) =>
    perform fun store => ((), releaseAll values store)
    throw error

/-- Applies an action to an input, or to each element of a stream, inside at most `depth`
streams. -/
def fanOut (evaluator : Evaluator) (f : Value → Action Value) : (depth : Nat) → Value → Action Value
  | 0, input => do
    evaluator.check
    match input with
    | .stream _ => diverge
    | input => f input
  | depth + 1, input => do
    evaluator.check
    match input with
    | .stream stream => spread stream (evaluator.fanOut f depth)
    | input => f input

/-- How deep streams can be met inside streams. -/
def streamDepth : Action Nat := perform fun store => (store.streams.size + 1, store)

/-- Applies an action to an input, or to each element of a stream. -/
def pointwise (evaluator : Evaluator) (f : Value → Action Value) (input : Value) :
    Action Value := do
  let depth ← streamDepth
  evaluator.fanOut f depth input

/-- The value under a key of an input that is no sequence. -/
def selectEntry (evaluator : Evaluator) (name : String) (input : Value) : Action Value :=
  match input with
  | .map map => attempt .value (Store.lookUp map name)
  | .mapping entries => pure ((entries.lookup name).getD .null)
  | .dict entries => pure (Store.entryUnder name entries)
  | .iterator _ | .array _ | .byteStream _ => reject .keySelector input
  | other => evaluator.unsupported .keySelector other

mutual

/-- Applies an action to an input, or to each element of a sequence, at any depth. -/
def broadcast (evaluator : Evaluator) (f : Value → Action Value) : Value → Action Value
  | .sequence items => do
    evaluator.check
    let values ← broadcastItems evaluator f items []
    pure (.sequence values)
  | input => do
    evaluator.check
    f input
termination_by structural input => input

/-- Applies an action to each of the items of a sequence. The results before come newest first. -/
def broadcastItems (evaluator : Evaluator) (f : Value → Action Value) :
    List Value → List Value → Action (List Value)
  | [], values => pure values.reverse
  | item :: rest, values => do
    let value ← (broadcast evaluator f item).orRelease values.reverse
    broadcastItems evaluator f rest (value :: values)
termination_by structural items => items

end

/-- The value under a key, of an input or of each element of a sequence or a stream. The key is
carried into at most `depth` streams and links, one inside another. -/
def selectKeyWithin (evaluator : Evaluator) (name : String) : (depth : Nat) → Value → Action Value
  | 0 => evaluator.broadcast fun
    | .stream _ => diverge
    | input => do
      match ← evaluator.resolve input with
      | .sequence _ => diverge
      | target => evaluator.selectEntry name target
  | depth + 1 => evaluator.broadcast fun
    | .stream stream => spread stream (evaluator.selectKeyWithin name depth)
    | input => do
      match ← evaluator.resolve input with
      | .sequence items => do
        let values ← collect (evaluator.selectKeyWithin name depth) items []
        pure (.sequence values)
      | target => evaluator.selectEntry name target
where
  /-- Applies an action to each of several values. The results before come newest first. -/
  collect (f : Value → Action Value) : List Value → List Value → Action (List Value)
    | [], values => pure values.reverse
    | item :: rest, values => do
      let value ← (f item).orRelease values.reverse
      collect f rest (value :: values)

/-- How deep a key can be carried if no link is carried into itself: each element of a stream is
taken once, and between two of them every link is met at most once. The budget is for links that
are fetched on the way. -/
def keyDepth (evaluator : Evaluator) : Action Nat :=
  perform fun store =>
    ((store.links.size + 1) * (store.totalRemaining + 1) + evaluator.budget, store)

/-- The value under a key, of an input or of each element of a sequence or a stream. -/
def selectKey (evaluator : Evaluator) (name : String) (input : Value) : Action Value := do
  let depth ← evaluator.keyDepth
  evaluator.selectKeyWithin name depth input

end Sluice.Evaluator
