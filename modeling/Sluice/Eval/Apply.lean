import Sluice.Eval.FanOut
import Sluice.Keyed

/-!
# Applying a filter

`Evaluator.apply` gives the result of one node on one input. Every application first asks the
context whether to go on. `Evaluator.run` applies the stages of a filter in turn and flattens the
last result; when a stage fails, the result of the stage before it is flattened, released and
handed out with the error.
-/

namespace Sluice

namespace Evaluator

open Sluice.Action Sluice.Filter

mutual

/-- The result of a node on an input. -/
def apply (evaluator : Evaluator) : Node → Value → Action Value
  | .identity => fun input => do
    evaluator.check
    pure input
  | .chain steps => fun input => do
    evaluator.check
    thread evaluator steps input
  | .pipeline stages => fun input => do
    evaluator.check
    thread evaluator stages input
  | .iterate => fun input => do
    evaluator.check
    evaluator.iterateAll input
  | .text s => evaluator.pointwise fun _ => pure (.text s)
  | .number x => evaluator.pointwise fun _ => pure (.float x)
  | .length => evaluator.pointwise evaluator.length
  | .key name => evaluator.selectKey name
  | .index position => evaluator.pointwise (evaluator.selectIndex position)
  | .range bounds => evaluator.pointwise (evaluator.selectRange bounds)
  | .binary left operator right => evaluator.pointwise fun input => do
    let a ← apply evaluator left input
    let b ← (apply evaluator right input).orRelease [a]
    (evaluator.arithmetic a operator b).orRelease [a, b]
  | .array items => evaluator.pointwise fun input => do
    let values ← applyAll evaluator items input []
    pure (.sequence values)
  | .object entries => evaluator.pointwise fun input => do
    let entries ← applyEntries evaluator entries input []
    pure (.mapping (Keyed.ofList entries))
termination_by structural node => node

/-- Feeds each node the result of the one before. -/
def thread (evaluator : Evaluator) : List Node → Value → Action Value
  | [] => fun input => pure input
  | node :: rest => fun input => do
    let value ← apply evaluator node input
    thread evaluator rest value
termination_by structural nodes => nodes

/-- The results of several nodes on one input. The results before come newest first. -/
def applyAll (evaluator : Evaluator) : List Node → Value → List Value → Action (List Value)
  | [] => fun _ values => pure values.reverse
  | node :: rest => fun input values => do
    let value ← (apply evaluator node input).orRelease values.reverse
    applyAll evaluator rest input (value :: values)
termination_by structural nodes => nodes

/-- The results of the entries of an object on one input. The results before come newest first. -/
def applyEntries (evaluator : Evaluator) :
    List (String × Node) → Value → List (String × Value) → Action (List (String × Value))
  | [] => fun _ values => pure values.reverse
  | (key, node) :: rest => fun input values => do
    let value ← (apply evaluator node input).orRelease (values.reverse.map (·.2))
    applyEntries evaluator rest input ((key, value) :: values)
termination_by structural entries => entries

end

end Evaluator

/-- Why a run failed, and the result of the last stage that succeeded, if there was one. Every
iterator and byte stream in that result is closed. -/
structure Failure where
  error : EvalError
  output : Option Value

namespace Evaluator

/-- Goes on with the stages that are left, after at least one has succeeded. -/
def continueRun (evaluator : Evaluator) : Filter.Program → Value →
    StateT Store Option (Except Failure Value)
  | [], value => fun store =>
    let (value, store) := flatten value store
    some (.ok value, store)
  | node :: rest, value => fun store =>
    match (evaluator.apply node value).run store with
    | none => none
    | some (.ok value, store) => evaluator.continueRun rest value store
    | some (.error error, store) =>
      let (output, store) := flatten value store
      some (.error ⟨error, some output⟩, release output store)

/-- Applies the stages of a filter to an input. -/
def run (evaluator : Evaluator) (program : Filter.Program) (input : Value) :
    StateT Store Option (Except Failure Value) :=
  match program with
  | [] => evaluator.continueRun [] input
  | node :: rest => fun store =>
    match (evaluator.apply node input).run store with
    | none => none
    | some (.ok value, store) => evaluator.continueRun rest value store
    | some (.error error, store) => some (.error ⟨error, none⟩, closeHandle input store)

end Evaluator

end Sluice
