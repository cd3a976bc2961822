import Sluice.Proofs.Eval.FailedRuns
import Sluice.Proofs.Store.Closing

/-!
# What a failed run hands out

When a stage fails after another one has succeeded, the result of the last stage that succeeded is
flattened, released and handed out with the error. So everything that could be reached from it is
closed, whether it lay in a stream or not, and whatever the single closes said. When the first stage
fails nothing is handed out, and an input that is itself an iterator or a byte stream is closed
(`isClosed_of_failed_run`).
-/

namespace Sluice

open Sluice.Filter Sluice.Store

/-- What a failure of a later stage leaves: the stages before it succeed and give a value, and the
flat form of this value is handed out and released. -/
theorem Evaluator.exists_stage_of_failed_continueRun {evaluator : Evaluator} {program : Program}
    {value : Value} {store after : Store} {failure : Failure}
    (h : evaluator.continueRun program value store = some (.error failure, after)) :
    ∃ stages node rest last middle atFailure, program = stages ++ node :: rest ∧
      (evaluator.thread stages value).run store = some (.ok last, middle) ∧
      (evaluator.apply node last).run middle = some (.error failure.error, atFailure) ∧
      failure.output = some ((flatten last).run atFailure).1 ∧
      after = release ((flatten last).run atFailure).1 ((flatten last).run atFailure).2 := by
  induction program generalizing value store with
  | nil => cases h
  | cons node rest ih =>
    simp only [continueRun] at h
    rcases hnode : (evaluator.apply node value).run store with
      _ | ⟨error | next, middle⟩ <;> rw [hnode] at h
    · cases h
    · cases h
      exact ⟨[], node, rest, value, store, middle, rfl, rfl, hnode, rfl, rfl⟩
    · obtain ⟨stages, failing, others, last, before, atFailure, rfl, hstages, hfailing, houtput,
        hafter⟩ := ih h
      refine ⟨node :: stages, failing, others, last, before, atFailure, rfl, ?_, hfailing, houtput,
        hafter⟩
      rw [thread, Computation.run_bind_of_ok hnode]
      exact hstages

/-- A run that fails, fails at one of its stages. If that is the first one, nothing is handed out,
and an input that is itself an iterator or a byte stream is closed. If it is a later one, a value is
handed out, and everything that can be reached from it is closed, and so is everything that could be
reached at the failure from the result of the stage before. In any case the underlying close of an
iterator or a byte stream is called at most once, and not at all if it was closed before the run. -/
theorem isClosed_of_failed_run {evaluator : Evaluator} {program : Program} {input : Value}
    {store after : Store} {failure : Failure}
    (h : evaluator.run program input store = some (.error failure, after)) :
    ∃ stages node rest last middle atFailure, program = stages ++ node :: rest ∧
      (evaluator.thread stages input).run store = some (.ok last, middle) ∧
      (evaluator.apply node last).run middle = some (.error failure.error, atFailure) ∧
      (stages = [] → failure.output = none ∧
        ∀ source, source.value = input → after.isClosed source = true) ∧
      (stages ≠ [] → ∃ output, failure.output = some output ∧
        (∀ source, after.Reachable source output → after.isClosed source = true) ∧
        ∀ source, atFailure.Reachable source last → after.isClosed source = true) ∧
      ∀ source, after.closes source ≤ store.closes source + 1 ∧
        (store.Has source → store.isClosed source = true →
          after.closes source = store.closes source) := by
  have hsteps : Steps store after := by
    obtain ⟨_, _, _, hrun, _⟩ := releases_of_failed_run h
    exact Traced.steps_of_runProgram hrun
  cases program with
  | nil => cases h
  | cons node rest =>
    simp only [Evaluator.run] at h
    rcases hnode : (evaluator.apply node input).run store with
      _ | ⟨error | value, middle⟩ <;> rw [hnode] at h
    · cases h
    · cases h
      have hclosed := (releases_closeHandle input middle).closed
      exact ⟨[], node, rest, input, store, middle, rfl, rfl, hnode,
        fun _ => ⟨rfl, fun source hsource => (hclosed source).mpr (.inr hsource)⟩,
        fun hne => absurd rfl hne, hsteps.closes_le⟩
    · obtain ⟨stages, failing, others, last, before, atFailure, rfl, hstages, hfailing, houtput,
        rfl⟩ := Evaluator.exists_stage_of_failed_continueRun h
      have hflat := flattens_flatten last atFailure
      have hreleases := releases_release ((flatten last).run atFailure).1
        ((flatten last).run atFailure).2
      have hlast := hflat.releases
      have hlater : node :: stages ≠ [] := List.cons_ne_nil node stages
      refine ⟨node :: stages, failing, others, last, before, atFailure, rfl, ?_, hfailing,
        fun hnil => absurd hnil hlater,
        fun _ => ⟨_, houtput, fun source hreach => ?_, fun source hreach => ?_⟩, hsteps.closes_le⟩
      · rw [Evaluator.thread, Computation.run_bind_of_ok hnode]
        exact hstages
      · exact (hreleases.closed source).mpr (.inr (hreleases.reachable hreach))
      · exact (hlast.closed source).mpr (.inr hreach)

/-- The store with two iterators, the first of which cannot be closed without a failure, and a
stream that holds the other one. -/
def Store.ofStreamedIterator : Store where
  iterators := ⟨#[
    { cursor := .ofValues [.int 1], behaviour := { closeFault := some .notPositioned } },
    { cursor := .ofValues [.int 2] }]⟩
  streams := ⟨#[⟨.values, [.iterator ⟨1⟩]⟩]⟩

/-- In `. | 1 * "x"` the input is handed out with the error. Both iterators in it are closed, the
one that fails to close and lies in it twice, and the one in the stream that it shares with the key
of a dict. -/
theorem isClosed_of_failed_run_with_shared_stream :
    let input : Value :=
      .sequence [.iterator ⟨0⟩, .stream ⟨0⟩, .dict [(.stream ⟨0⟩, .iterator ⟨0⟩)]]
    ∃ failure after output,
      Evaluator.run { context := .background }
          [.identity, .binary (.number 1) .multiply (.text "x")] input .ofStreamedIterator =
        some (.error failure, after) ∧
      failure.output = some output ∧
      after.Reachable (.iterator ⟨0⟩) output ∧ after.Reachable (.iterator ⟨1⟩) output ∧
      after.isClosed (.iterator ⟨0⟩) = true ∧ after.isClosed (.iterator ⟨1⟩) = true ∧
      after.closes (.iterator ⟨0⟩) ≤ 1 := by
  intro input
  have hrun : Evaluator.run { context := .background }
      [.identity, .binary (.number 1) .multiply (.text "x")] input .ofStreamedIterator =
        some (.error ⟨_, some (.sequence [.iterator ⟨0⟩, .sequence [.iterator ⟨1⟩],
          .dict [(.stream ⟨0⟩, .iterator ⟨0⟩)]])⟩, _) := rfl
  obtain ⟨stages, _, _, _, _, _, _, _, _, hfirst, hlater, hcloses⟩ := isClosed_of_failed_run hrun
  have hstages : stages ≠ [] := fun hnil => nomatch (hfirst hnil).1
  obtain ⟨output, houtput, hclosed, _⟩ := hlater hstages
  cases houtput
  refine ⟨_, _, _, hrun, rfl, ?_, ?_, hclosed _ ?_, hclosed _ ?_, (hcloses (.iterator ⟨0⟩)).1⟩
  all_goals simp

end Sluice
