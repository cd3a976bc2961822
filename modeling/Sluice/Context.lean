import Sluice.Store.Basic

/-!
# Contexts

A context says when evaluation has to stop: when its switch is thrown, or when its deadline has
come. A context without a switch and without a deadline never stops it.
-/

namespace Sluice

/-- Why a context stops evaluation. -/
inductive ContextError
  | cancelled
  | deadlineExceeded
  deriving DecidableEq

/-- The message of a reason to stop. -/
def ContextError.message : ContextError → String
  | cancelled => "evaluation cancelled"
  | deadlineExceeded => "evaluation deadline exceeded"

/-- When evaluation has to stop. The deadline is a reading of the clock in milliseconds. -/
structure Context where
  switch : Option Switch := none
  deadline : Option Nat := none
  deriving DecidableEq

namespace Context

/-- The context that never stops evaluation. -/
def background : Context := {}

/-- A context that a switch cancels. -/
def withCancel (switch : Switch) : Context := { switch := some switch }

/-- The context that also stops at a deadline; of two deadlines the earlier counts. -/
def withDeadline (context : Context) (deadline : Nat) : Context :=
  { context with deadline := some (match context.deadline with
    | none => deadline
    | some current => min current deadline) }

/-- The context that also stops when a time has passed from now on. -/
def withTimeout (context : Context) (now timeout : Nat) : Context :=
  context.withDeadline (now + timeout)

/-- Whether the switch that a context listens to has been thrown. -/
def isCancelled (context : Context) (store : Store) : Bool :=
  context.switch.any store.isThrown

/-- Whether the deadline of a context has come. -/
def isExpired (context : Context) (store : Store) : Bool :=
  context.deadline.any (· ≤ store.now)

/-- Whether evaluation may go on. Of two reasons to stop, cancellation is the one told. -/
def check (context : Context) (store : Store) : Except ContextError Unit :=
  if context.isCancelled store then .error .cancelled
  else if context.isExpired store then .error .deadlineExceeded
  else .ok ()

/-- Evaluation may go on if there is no reason to stop. -/
theorem check_eq_ok_iff {context : Context} {store : Store} :
    context.check store = .ok () ↔
      context.isCancelled store = false ∧ context.isExpired store = false := by
  unfold check
  cases context.isCancelled store <;> cases context.isExpired store <;> simp

/-- The background context allows everything. -/
@[simp] theorem check_background (store : Store) : background.check store = .ok () := rfl

end Context

end Sluice
