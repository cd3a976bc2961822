import Sluice.Proofs.Eval.Composing
import Sluice.Proofs.Store.Release

/-!
# Evaluation changes the store by steps

Whatever an action does to the store, it does by operations of the store (`Stepwise`), however it
ends. Here this is shown for every action on one input, up to the selectors.
-/

namespace Sluice

open Store

variable {ε α β : Type}

/-- Whether a computation changes the store by operations of the store only. -/
def Stepwise (body : Action α) : Prop :=
  ∀ ⦃store result after⦄, body.run store = some (result, after) → Steps store after

namespace Stepwise

/-- Doing nothing is stepwise. -/
theorem pure (a : α) : Stepwise (Pure.pure a : Action α) := by
  rintro store result after h
  cases h
  exact .refl

/-- Failing at once is stepwise. -/
theorem throw (e : EvalError) : Stepwise (MonadExcept.throw e : Action α) := by
  rintro store result after h
  cases h
  exact .refl

/-- A result that is known is stepwise. -/
theorem ofExcept (result : Except EvalError α) :
    Stepwise (MonadExcept.ofExcept result : Action α) := by
  rintro store result after h
  rw [Computation.run_ofExcept] at h
  cases h
  exact .refl

/-- Stepwise actions one after the other are stepwise. -/
theorem bind {x : Action α} {f : α → Action β} (hx : Stepwise x)
    (hf : ∀ a, Stepwise (f a)) : Stepwise (x >>= f) := by
  intro store result after h
  rcases Computation.run_bind_eq_some h with ⟨a, middle, hfirst, hrest⟩ | ⟨e, hfirst, _⟩
  · exact (hx hfirst).trans (hf a hrest)
  · exact hx hfirst

/-- An operation on the store is stepwise if it takes steps. -/
theorem perform {operation : Store → α × Store}
    (h : ∀ store, Steps store (operation store).2) : Stepwise (Action.perform operation) := by
  intro store result after hrun
  rw [Action.run_perform] at hrun
  cases hrun
  exact h store

/-- Reading the store changes nothing. -/
theorem read (f : Store → α) : Stepwise (Action.perform fun store => (f store, store)) :=
  perform fun _ => .refl

/-- An operation that may fail is stepwise if it takes steps. -/
theorem attempt {toError : ε → EvalError} {operation : Store → Except ε α × Store}
    (h : ∀ store, Steps store (operation store).2) :
    Stepwise (Action.attempt toError operation) := by
  intro store result after hrun
  rw [Action.run_attempt] at hrun
  cases hrun
  exact h store

/-- An action without an outcome is stepwise. -/
theorem diverge : Stepwise (Action.diverge : Action α) := by
  intro store result after h
  cases h

/-- A stepwise action stays so with a close at the end. -/
theorem thenClose {body : Action α} {close : Store → Except EvalError Unit × Store}
    (hbody : Stepwise body) (h : ∀ store, Steps store (close store).2) :
    Stepwise (body.thenClose close) := by
  intro store result after hrun
  simp only [Action.thenClose, ExceptT.run_mk] at hrun
  rcases hfirst : body.run store with _ | ⟨first, middle⟩ <;> rw [hfirst] at hrun <;> cases hrun
  exact (hbody hfirst).trans (h middle)

end Stepwise

namespace Evaluator

open Sluice.Action

variable (evaluator : Evaluator)

/-- Asking the context is stepwise. -/
theorem stepwise_check : Stepwise evaluator.check := .attempt fun _ => .refl

/-- Dereferencing a link is stepwise. -/
theorem stepwise_resolveLink (link : Handle .link) : Stepwise (evaluator.resolveLink link) := by
  unfold resolveLink
  refine .bind (.read _) fun target => ?_
  split
  · exact .pure _
  · refine .bind (.read _) fun path => ?_
    split
    · exact .throw _
    · refine .bind (stepwise_check evaluator) fun _ => ?_
      refine .bind (.attempt fun store => steps_fetch _ link path store) fun value => ?_
      refine .bind (stepwise_check evaluator) fun _ => ?_
      exact .bind (.perform fun store => (Step.resolve store link value).steps) fun _ => .pure _

/-- Every action on one input changes the store by steps, since what it is put together from
does. -/
theorem composes_stepwise : Composes evaluator fun {_} => Stepwise where
  ofExcept := Stepwise.ofExcept
  bind := Stepwise.bind
  perform h := .perform fun store => (h store).steps
  attempt h := .attempt fun store => (h store).steps
  diverge := @Stepwise.diverge
  thenClose hbody h := .thenClose hbody fun store => (h store).steps
  resolveLink := stepwise_resolveLink evaluator

/-- Selecting an index is stepwise. -/
theorem stepwise_selectIndex (position : Int64) (input : Value) :
    Stepwise (evaluator.selectIndex position input) :=
  (composes_stepwise evaluator).selectIndex position input

/-- Selecting a range is stepwise. -/
theorem stepwise_selectRange (range : Filter.Range) (input : Value) :
    Stepwise (evaluator.selectRange range input) :=
  (composes_stepwise evaluator).selectRange range input

/-- Taking the length is stepwise. -/
theorem stepwise_length (input : Value) : Stepwise (evaluator.length input) :=
  (composes_stepwise evaluator).length input

/-- Selecting an entry is stepwise. -/
theorem stepwise_selectEntry (name : String) (input : Value) :
    Stepwise (evaluator.selectEntry name input) :=
  (composes_stepwise evaluator).selectEntry name input

end Evaluator

end Sluice
