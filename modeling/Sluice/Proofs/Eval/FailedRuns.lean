import Sluice.Proofs.Eval.Pervading

/-!
# What a failed run leaves open

When a run fails, an iterator that it obtained has been closed once if it was closed before the
failure or can be reached from a value that the run holds at the failure, and otherwise it stays
open (`closes_eq_one_iff_of_failed_run`). A step of a chain, a stage in parentheses and a literal
drop their input without closing it, so an open iterator need not be held
(`exists_open_iterator_of_failed_stage`).
-/

namespace Sluice

open Sluice.Filter Sluice.Store

/-- Only a handle that is the input itself can be reached from what is held of the input. -/
theorem Traced.reachable_handleOf_iff {store : Store} {source : Source} {input : Value} :
    (∃ value ∈ handleOf input, store.Reachable source value) ↔ source.value = input := by
  cases input <;> cases source <;> simp [handleOf, Source.value, eq_comm]

/-- A value that is flattened and then released is released. -/
theorem Store.Flattens.releases {store middle : Store} {value flat : Value}
    (h : Flattens store middle [value] [flat]) :
    Releases store (release flat middle) fun source => store.Reachable source value := by
  have hflat := releases_release flat middle
  have hreach (source : Source) : middle.Reachable source flat ↔ store.Reachable source value := by
    simpa using h.reaches source
  refine ⟨(h.toDrains.trans hflat.toDrains).mono fun source htaken => ?_, fun source => ?_⟩
  · rw [← hreach]
    exact htaken.elim (by simp) id
  · rw [hflat.closed, h.closed, hreach]

namespace Traced

variable {evaluator : Evaluator} {program : Program} {value input : Value}
  {state after : Store × List Note} {failure : Failure}

/-- What a failure of a later stage closes: exactly what can be reached from the values that are
held at the failure. -/
theorem releases_of_failed_continueRun
    (h : continueRun evaluator program value state = some (.error failure, after)) :
    ∃ held atFailure trace, after.2 = .failed atFailure held :: trace ∧
      Releases atFailure after.1 fun source =>
        ∃ value ∈ held, atFailure.Reachable source value := by
  induction program generalizing value state with
  | nil => cases h
  | cons node rest ih =>
    simp only [continueRun] at h
    rcases hnode : (apply evaluator node value).run state with
      _ | ⟨⟨error, held⟩ | next, atFailure, trace⟩ <;> rw [hnode] at h
    · cases h
    · cases h
      refine ⟨held ++ [value], atFailure, trace, rfl, ?_⟩
      have hheld := releases_releaseAll held atFailure
      have hvalue := (flattens_flatten value (releaseAll held atFailure)).releases
      refine (hheld.then hvalue).congr fun source => ?_
      simp [or_and_right, exists_or]
    · exact ih h

/-- What a failed run closes: exactly what can be reached from the values that are held at the
failure. -/
theorem releases_of_failed_runProgram
    (h : runProgram evaluator program input state = some (.error failure, after)) :
    ∃ held atFailure trace, after.2 = .failed atFailure held :: trace ∧
      Releases atFailure after.1 fun source =>
        ∃ value ∈ held, atFailure.Reachable source value := by
  cases program with
  | nil => cases h
  | cons node rest =>
    simp only [runProgram] at h
    rcases hnode : (apply evaluator node input).run state with
      _ | ⟨⟨error, held⟩ | value, atFailure, trace⟩ <;> rw [hnode] at h
    · cases h
    · cases h
      refine ⟨held ++ handleOf input, atFailure, trace, rfl, ?_⟩
      have hheld := releases_releaseAll held atFailure
      have hinput := releases_closeHandle input (releaseAll held atFailure)
      refine (hheld.trans hinput).congr fun source => ?_
      simp [or_and_right, exists_or, reachable_handleOf_iff]
    · exact releases_of_failed_continueRun h

end Traced

/-- The trace of a failed run ends with what is held at the failure, and the run closes exactly what
can be reached from that. -/
theorem releases_of_failed_run {evaluator : Evaluator} {program : Program} {input : Value}
    {store after : Store} {failure : Failure}
    (h : evaluator.run program input store = some (.error failure, after)) :
    ∃ held atFailure trace, Traced.runProgram evaluator program input (store, []) =
        some (.error failure, (after, .failed atFailure held :: trace)) ∧
      Releases atFailure after fun source => ∃ value ∈ held, atFailure.Reachable source value := by
  obtain ⟨notes, hrun⟩ := Traced.exists_trace_of_run h
  obtain ⟨held, atFailure, trace, rfl, hreleases⟩ := Traced.releases_of_failed_runProgram hrun
  exact ⟨held, atFailure, trace, hrun, hreleases⟩

/-- After a failed run the underlying close of an iterator that the run obtained has been called at
most once, and it has been called exactly if the iterator was closed before the failure or can be
reached from a value that is held at the failure. -/
theorem closes_eq_one_iff_of_failed_run {evaluator : Evaluator} {program : Program} {input : Value}
    {store after : Store} {failure : Failure}
    (h : evaluator.run program input store = some (.error failure, after)) :
    ∃ held atFailure trace, Traced.runProgram evaluator program input (store, []) =
        some (.error failure, (after, .failed atFailure held :: trace)) ∧
      ∀ iterator ∈ obtainedSince store after,
        (after.iterators.get iterator).closes ≤ 1 ∧
        ((after.iterators.get iterator).closes = 1 ↔
          atFailure.isIteratorClosed iterator = true ∨
            ∃ value ∈ held, atFailure.Reachable (.iterator iterator) value) := by
  obtain ⟨held, atFailure, trace, hrun, hreleases⟩ := releases_of_failed_run h
  refine ⟨held, atFailure, trace, hrun, fun iterator hobtained => ?_⟩
  have hsteps : Steps store after := Traced.steps_of_runProgram hrun
  have hcloses : after.ClosedOnce iterator := closedOnce_of_mem_obtainedSince hsteps hobtained
  have hclosed : (after.iterators.get iterator).cursor.closed = true ↔
      atFailure.isIteratorClosed iterator = true ∨
        ∃ value ∈ held, atFailure.Reachable (.iterator iterator) value :=
    hreleases.closed (.iterator iterator)
  rw [← hclosed, hcloses]
  cases (after.iterators.get iterator).cursor.closed <;> simp

/-- The store with one array. -/
def Store.ofArray (values : List Value) : Store := { arrays := ⟨#[{ elements := values }]⟩ }

/-- In `[.[], 1 * "x"]` the array holds the iterator when its second item fails. -/
theorem closes_eq_one_iff_of_failed_item :
    ∃ failure after,
      Evaluator.run { context := .background }
          [.array [.iterate, .binary (.number 1) .multiply (.text "x")]] (.array ⟨0⟩)
          (.ofArray [.int 1, .int 2]) = some (.error failure, after) ∧
      (⟨0⟩ : Handle .iterator) ∈ obtainedSince (.ofArray [.int 1, .int 2]) after ∧
      (after.iterators.get ⟨0⟩).closes = 1 := by
  have hrun : Evaluator.run { context := .background }
      [.array [.iterate, .binary (.number 1) .multiply (.text "x")]] (.array ⟨0⟩)
      (.ofArray [.int 1, .int 2]) = some (.error _, _) := rfl
  obtain ⟨held, atFailure, trace, htrace, hiterators⟩ := closes_eq_one_iff_of_failed_run hrun
  cases htrace
  have hmem : .iterator ⟨0⟩ ∈ [Value.float 1, .text "x", .float 1, .text "x", .iterator ⟨0⟩] := by
    simp
  exact ⟨_, _, hrun, by decide, (hiterators ⟨0⟩ (by decide)).2.mpr
    (Or.inr ⟨.iterator ⟨0⟩, hmem, .self rfl⟩)⟩

/-- In `(.[] | 1 * "x")` nobody holds the iterator when the second stage fails, and it stays
open. -/
theorem exists_open_iterator_of_failed_stage :
    ∃ failure after,
      Evaluator.run { context := .background }
          [.pipeline [.iterate, .binary (.number 1) .multiply (.text "x")]] (.array ⟨0⟩)
          (.ofArray [.int 1, .int 2]) = some (.error failure, after) ∧
      ∃ iterator ∈ obtainedSince (.ofArray [.int 1, .int 2]) after,
        (after.iterators.get iterator).closes = 0 :=
  ⟨_, _, rfl, ⟨0⟩, by decide, rfl⟩

end Sluice
