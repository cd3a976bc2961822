import Sluice.Eval.Error
import Sluice.Eval.Release

/-!
# Actions

Applying a filter is an action: it changes the store and ends with a result or an error. An error
keeps the changes made before it. An action has no outcome at all when links lead into themselves
for ever.
-/

namespace Sluice

/-- A computation on the store that ends with a result, with an error, or not at all. -/
abbrev Action (α : Type) := ExceptT EvalError (StateT Store Option) α

namespace Action

variable {α : Type}

/-- An operation of the store as an action. -/
def perform (operation : Store → α × Store) : Action α :=
  ExceptT.mk fun store =>
    let (result, store) := operation store
    some (.ok result, store)

/-- An operation of the store that may fail as an action. -/
def attempt {ε : Type} (toError : ε → EvalError) (operation : Store → Except ε α × Store) :
    Action α :=
  ExceptT.mk fun store =>
    let (result, store) := operation store
    some (result.mapError toError, store)

/-- The action without an outcome. -/
def diverge : Action α := ExceptT.mk fun _ => none

/-- Ends an action by another one that changes the store only, if it ends with an error. -/
def onError (body : Action α) (cleanUp : Store → Store) : Action α :=
  ExceptT.mk fun store =>
    match body.run store with
    | none => none
    | some (.ok result, store) => some (.ok result, store)
    | some (.error error, store) => some (.error error, cleanUp store)

/-- An action whose failure releases values that were made before it. -/
def orRelease (values : List Value) (body : Action α) : Action α :=
  body.onError (releaseAll values)

/-- The outcome of a use of something that had to be closed afterwards. The error of the use comes
first, then the error of closing. -/
def outcomeOfUse (result : Except EvalError α) (closed : Except EvalError Unit) :
    Except EvalError α :=
  match result, closed with
  | .ok _, .error error => .error error
  | result, _ => result

/-- An action after which something is closed, however it ends. -/
def thenClose (body : Action α) (close : Store → Except EvalError Unit × Store) : Action α :=
  ExceptT.mk fun store =>
    match body.run store with
    | none => none
    | some (result, store) =>
      let (closed, store) := close store
      some (outcomeOfUse result closed, store)

end Action

end Sluice
