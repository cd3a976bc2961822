import Sluice.Proofs.Eval.Broadcasting
import Sluice.Proofs.Eval.FailedOutput

/-!
# Runs stage by stage

A run hands nothing from one stage to the next but a value. On a document, stages that do not
iterate make documents and change nothing, so a run that goes on after them is a run of the other
stages on what they give (`Evaluator.run_composes`), and what it hands out at a failure is what its
completed stages give alone.
-/

namespace Sluice

open Sluice.Filter

/-- A failure of later stages on the value that the stages before them give, as the failure of all
of them together. If the first of the later stages fails, that value is the output. -/
def Failure.behind (failure : Failure) (stages : Program) (value : Value) : Failure :=
  { failure with output := failure.output.or (if stages.isEmpty then none else some value) }

namespace Evaluator

variable {evaluator : Evaluator} {stages : Program} {input value document : Value}
  {store middle after : Store} {failure : Failure} {error : EvalError}

/-- Where the first stages succeed, a run goes on with the rest from what they have made. -/
theorem continueRun_append_of_ok (rest : Program)
    (h : (evaluator.thread stages input).run store = some (.ok value, middle)) :
    evaluator.continueRun (stages ++ rest) input store =
      evaluator.continueRun rest value middle := by
  induction stages generalizing input store with
  | nil =>
    cases h
    rfl
  | cons node others ih =>
    obtain ⟨next, between, hnode, hothers⟩ := Computation.run_bind_eq_ok h
    simp only [List.cons_append, continueRun, hnode]
    exact ih hothers

/-- Where the first stages fail, the rest does not run. -/
theorem continueRun_append_of_error (rest : Program)
    (h : (evaluator.thread stages input).run store = some (.error error, middle)) :
    evaluator.continueRun (stages ++ rest) input store =
      evaluator.continueRun stages input store := by
  induction stages generalizing input store with
  | nil => cases h
  | cons node others ih =>
    rcases Computation.run_bind_eq_some h with ⟨next, between, hnode, hothers⟩ | ⟨_, hnode, -⟩
    · simp only [List.cons_append, continueRun, hnode]
      exact ih hothers
    · simp only [List.cons_append, continueRun, hnode]

/-- Where the first stages of a program succeed, the run goes on with the rest from what they have
made. -/
theorem run_append_of_ok (hne : stages ≠ []) (rest : Program)
    (h : (evaluator.thread stages input).run store = some (.ok value, middle)) :
    evaluator.run (stages ++ rest) input store = evaluator.continueRun rest value middle := by
  cases stages with
  | nil => exact absurd rfl hne
  | cons node others =>
    obtain ⟨next, between, hnode, hothers⟩ := Computation.run_bind_eq_ok h
    simp only [List.cons_append, run, hnode]
    exact continueRun_append_of_ok rest hothers

/-- Where the first stages of a program fail, the run is the one of these stages. -/
theorem run_append_of_error (rest : Program)
    (h : (evaluator.thread stages input).run store = some (.error error, middle)) :
    evaluator.run (stages ++ rest) input store = evaluator.run stages input store := by
  cases stages with
  | nil => cases h
  | cons node others =>
    rcases Computation.run_bind_eq_some h with ⟨next, between, hnode, hothers⟩ | ⟨_, hnode, -⟩
    · simp only [List.cons_append, run, hnode]
      exact continueRun_append_of_error rest hothers
    · simp only [List.cons_append, run, hnode]

/-- A run that fails, fails at one of its stages. Unless that is the first one, the flat result of
the stage before is handed out. -/
theorem exists_stage_of_failed_run {program : Program}
    (h : evaluator.run program input store = some (.error failure, after)) :
    ∃ stages node rest last middle atFailure, program = stages ++ node :: rest ∧
      (evaluator.thread stages input).run store = some (.ok last, middle) ∧
      (evaluator.apply node last).run middle = some (.error failure.error, atFailure) ∧
      failure.output =
        if stages.isEmpty then none else some ((flatten last).run atFailure).1 := by
  cases program with
  | nil => cases h
  | cons node rest =>
    simp only [run] at h
    rcases hnode : (evaluator.apply node input).run store with
      _ | ⟨error | next, middle⟩ <;> rw [hnode] at h
    · cases h
    · cases h
      exact ⟨[], node, rest, input, store, middle, rfl, rfl, hnode, rfl⟩
    · obtain ⟨stages, failing, others, last, before, atFailure, rfl, hstages, hfailing,
        houtput, -⟩ := exists_stage_of_failed_continueRun h
      refine ⟨node :: stages, failing, others, last, before, atFailure, rfl, ?_, hfailing, houtput⟩
      rw [thread, Computation.run_bind_of_ok hnode]
      exact hstages

/-- A document is no handle that could be closed. -/
theorem closeHandle_of_isDocument (hvalue : value.isDocument = true) (store : Store) :
    closeHandle value store = store := by
  cases value <;> first | rfl | cases hvalue

/-- A stage that fails on a document hands the document out. There is nothing in it to flatten or to
release. -/
theorem continueRun_of_error {node : Node} (hvalue : value.isDocument = true) (rest : Program)
    (h : (evaluator.apply node value).run store = some (.error error, middle)) :
    evaluator.continueRun (node :: rest) value store =
      some (.error ⟨error, some value⟩, middle) := by
  have hvalues : ∀ part ∈ [value], part.isDocument = true := by simpa using hvalue
  have hrelease : release value middle = middle := releaseAll_of_isDocument hvalues middle
  simp only [continueRun, h, flatten_of_isDocument hvalue, hrelease]

/-- A first stage that fails on a document leaves no partial output. -/
theorem run_of_error {node : Node} (hvalue : value.isDocument = true) (rest : Program)
    (h : (evaluator.apply node value).run store = some (.error error, middle)) :
    evaluator.run (node :: rest) value store = some (.error ⟨error, none⟩, middle) := by
  simp only [run, h, closeHandle_of_isDocument hvalue]

/-- Stages that go on with a document do to it what a run of them does. Only when the first of them
fails is the document handed out, where a run hands out nothing. -/
theorem continueRun_of_isDocument (hvalue : value.isDocument = true) (rest : Program)
    (store : Store) :
    evaluator.continueRun rest value store =
      (evaluator.run rest value store).map fun (result, after) =>
        (result.mapError fun failure =>
          { failure with output := failure.output.or (some value) }, after) := by
  cases rest with
  | nil => rfl
  | cons node rest =>
    rcases hnode : (evaluator.apply node value).run store with _ | ⟨error | next, middle⟩
    · simp only [continueRun, run, hnode, Option.map_none]
    · rw [continueRun_of_error hvalue rest hnode, run_of_error hvalue rest hnode]
      rfl
    · -- Whatever fails behind the first stage has an output of its own.
      simp only [continueRun, run, hnode]
      rcases hrest : evaluator.continueRun rest next middle with
        _ | ⟨⟨error, output⟩ | result, after⟩
      · rfl
      · obtain ⟨_, _, _, _, _, _, -, -, -, rfl, -⟩ := exists_stage_of_failed_continueRun hrest
        rfl
      · rfl

/-- A run of stages that make a document, and of further stages, is a run of the further stages on
this document. -/
theorem run_append_of_isDocument (hvalue : value.isDocument = true) (rest : Program)
    (h : (evaluator.thread stages input).run store = some (.ok value, middle)) :
    evaluator.run (stages ++ rest) input store =
      (evaluator.run rest value middle).map fun (result, after) =>
        (result.mapError (·.behind stages value), after) := by
  cases stages with
  | nil =>
    cases h
    have hsame (result : Except Failure Value) :
        result.mapError (·.behind [] input) = result := by
      cases result <;> simp [Except.mapError, Failure.behind]
    simp [hsame]
  | cons node others =>
    rw [run_append_of_ok (List.cons_ne_nil _ _) rest h, continueRun_of_isDocument hvalue]
    rfl

/-- Stages that make a document return it when they are run alone. -/
theorem run_of_thread (hvalue : value.isDocument = true)
    (h : (evaluator.thread stages input).run store = some (.ok value, middle)) :
    evaluator.run stages input store = some (.ok value, middle) := by
  have hnothing : evaluator.run [] value middle = some (.ok value, middle) := by
    simp only [run, continueRun, flatten_of_isDocument hvalue]
  have hrun := run_append_of_isDocument hvalue [] h
  rw [List.append_nil, hnothing] at hrun
  exact hrun

/-- Stages that throw make every run of them fail in one way. -/
theorem exists_failed_run (hbackground : evaluator.context = .background)
    (hstages : anyIterates stages = false) (hdocument : document.isDocument = true)
    (h : Throws (evaluator.thread stages document)) :
    ∃ failure, ∀ store, evaluator.run stages document store = some (.error failure, store) := by
  induction stages generalizing document with
  | nil =>
    obtain ⟨error, hrun⟩ := h
    cases hrun {}
  | cons node rest ih =>
    obtain ⟨hnode, hrest⟩ := Bool.or_eq_false_iff.mp hstages
    rcases (fixed_apply hbackground node hnode hdocument).gives_or_throws with
      ⟨own, hgives, hown⟩ | ⟨error, hrun⟩
    · obtain ⟨failure, hfails⟩ := ih hrest hown (hgives.throws_bind_iff.mp h)
      refine ⟨failure.behind [node] own, fun store => ?_⟩
      have hfirst : (evaluator.thread [node] document).run store = some (.ok own, store) :=
        Computation.run_bind_of_ok (hgives store) _
      rw [← List.singleton_append, run_append_of_isDocument hown rest hfirst, hfails]
      rfl
    · exact ⟨_, fun store => run_of_error hdocument rest (hrun store)⟩

/-- **Runs compose stage by stage.** Stages that do not iterate end in one way on a document, from
every store, and leave the store as it is. If they fail, further stages behind them make no
difference. If they give a value, further stages behind them do what a run of the further stages
does on that value; when that fails without an output, the value is the output, unless there are no
stages before. So what a failed run hands out is what its completed stages give when they are run
alone, if they do not iterate. -/
theorem run_composes (hbackground : evaluator.context = .background)
    (hdocument : document.isDocument = true) :
    (∀ stages : Program, anyIterates stages = false → ∃ outcome, ∀ store,
      evaluator.run stages document store = some (outcome, store) ∧
      ∀ rest,
        (∀ failure, outcome = .error failure →
          evaluator.run (stages ++ rest) document store = some (.error failure, store)) ∧
        ∀ value, outcome = .ok value →
          evaluator.run (stages ++ rest) document store =
            (evaluator.run rest value store).map fun (result, after) =>
              (result.mapError (·.behind stages value), after)) ∧
    ∀ program store failure after,
      evaluator.run program document store = some (.error failure, after) →
      ∃ stages node rest value middle atFailure, program = stages ++ node :: rest ∧
        (evaluator.thread stages document).run store = some (.ok value, middle) ∧
        (evaluator.apply node value).run middle = some (.error failure.error, atFailure) ∧
        (anyIterates stages = false →
          evaluator.run stages document store = some (.ok value, store) ∧
          failure.output = if stages.isEmpty then none else some value) := by
  have hfixed {stages : Program} (hstages : anyIterates stages = false) :
      Fixed (·.isDocument = true) (evaluator.thread stages document) :=
    fixed_thread hbackground stages hstages hdocument
  refine ⟨fun stages hstages => ?_, fun program store failure after h => ?_⟩
  · rcases (hfixed hstages).gives_or_throws with ⟨value, hgives, hvalue⟩ | hthrows
    · refine ⟨.ok value, fun store => ⟨run_of_thread hvalue (hgives store), fun rest => ⟨?_, ?_⟩⟩⟩
      · rintro failure ⟨⟩
      · rintro _ ⟨⟩
        exact run_append_of_isDocument hvalue rest (hgives store)
    · obtain ⟨failure, hfails⟩ := exists_failed_run hbackground hstages hdocument hthrows
      obtain ⟨error, hthread⟩ := hthrows
      refine ⟨.error failure, fun store => ⟨hfails store, fun rest => ⟨?_, ?_⟩⟩⟩
      · rintro _ ⟨⟩
        rw [run_append_of_error rest (hthread store), hfails]
      · rintro value ⟨⟩
  · obtain ⟨stages, node, rest, value, middle, atFailure, hprogram, hthread, hnode, houtput⟩ :=
      exists_stage_of_failed_run h
    refine ⟨stages, node, rest, value, middle, atFailure, hprogram, hthread, hnode,
      fun hstages => ?_⟩
    obtain ⟨hgives, hvalue⟩ := (hfixed hstages).gives_of_run hthread
    have hflat : ((flatten value).run atFailure).1 = value :=
      congrArg Prod.fst (flatten_of_isDocument hvalue atFailure)
    exact ⟨run_of_thread hvalue (hgives store), by rw [houtput, hflat]⟩

/-- A product with a text fails and hands out the number that the stage before has selected, which
is what this stage gives alone. As the first stage it hands out nothing. -/
theorem run_composes_of_product :
    let evaluator : Evaluator := { context := .background }
    let product : Node := .binary .identity .multiply (.text "x")
    let error : EvalError := .unsupportedBinary .integer .multiply .text
    evaluator.run [product] (.int 2) {} = some (.error ⟨error, none⟩, {}) ∧
      evaluator.run [.key "a"] (.mapping [("a", .int 2)]) {} = some (.ok (.int 2), {}) ∧
      evaluator.run ([.key "a"] ++ [product]) (.mapping [("a", .int 2)]) {} =
        some (.error ⟨error, some (.int 2)⟩, {}) := by
  intro evaluator product error
  have hdocument : (Value.mapping [("a", .int 2)]).isDocument = true := rfl
  have hproduct : evaluator.run [product] (.int 2) {} = some (.error ⟨error, none⟩, {}) := rfl
  have hkey : evaluator.run [.key "a"] (.mapping [("a", .int 2)]) {} =
      some (.ok (.int 2), {}) := rfl
  obtain ⟨outcome, hcomposes⟩ :=
    (run_composes (rfl : evaluator.context = .background) hdocument).1 [.key "a"] rfl
  obtain ⟨hrun, hrest⟩ := hcomposes {}
  obtain rfl : outcome = .ok (.int 2) := by simpa [hkey] using hrun.symm
  refine ⟨hproduct, hkey, ?_⟩
  rw [(hrest [product]).2 _ rfl, hproduct]
  rfl

end Evaluator

end Sluice
