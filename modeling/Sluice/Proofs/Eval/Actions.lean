import Mathlib.Tactic.Common
import Sluice.Eval.Apply

/-!
# Running actions

How an action that is put together from others runs. An action is a computation on the store that
ends with a result or an error, or has no outcome.
-/

namespace Sluice

/-- A computation on a state that ends with a result, with an error, or not at all. -/
abbrev Computation (σ ε α : Type) := ExceptT ε (StateT σ Option) α

namespace Computation

variable {σ ε α β : Type}

/-- Computations that run in the same way are the same. -/
theorem ext {x y : Computation σ ε α} (h : ∀ state, x.run state = y.run state) : x = y := funext h

/-- What is left to do after the first part of a computation. -/
def next (f : α → Computation σ ε β) : Option (Except ε α × σ) → Option (Except ε β × σ)
  | none => none
  | some (.ok a, state) => (f a).run state
  | some (.error e, state) => some (.error e, state)

/-- The second part runs after a first part that succeeds. -/
theorem run_bind (x : Computation σ ε α) (f : α → Computation σ ε β) (state : σ) :
    (x >>= f).run state = next f (x.run state) := by
  have hbind : (x >>= f).run state = (x.run state).bind fun (result, state) =>
      (ExceptT.bindCont f result) state := rfl
  rw [hbind]
  rcases x.run state with _ | ⟨_ | _, _⟩ <;> rfl

/-- A result by itself leaves the state as it is. -/
@[simp] theorem run_pure (a : α) (state : σ) :
    (pure a : Computation σ ε α).run state = some (.ok a, state) := rfl

/-- An error by itself leaves the state as it is. -/
@[simp] theorem run_throw (e : ε) (state : σ) :
    (throw e : Computation σ ε α).run state = some (.error e, state) := rfl

/-- A given outcome leaves the state as it is. -/
@[simp] theorem run_ofExcept (result : Except ε α) (state : σ) :
    (ofExcept result : Computation σ ε α).run state = some (result, state) := by
  cases result <;> rfl

/-- What cannot fail ends with its result. -/
theorem run_lift (body : StateT σ Option α) (state : σ) :
    (ExceptT.lift body : Computation σ ε α).run state =
      (body state).map fun (a, state) => (.ok a, state) := by
  have hlift : (ExceptT.lift body : Computation σ ε α).run state =
      (body state).bind fun (a, state) => some (.ok a, state) := rfl
  rw [hlift]
  rcases body state with _ | ⟨a, middle⟩ <;> rfl

/-- After a first part that succeeds the second part goes on where it ended. -/
theorem run_bind_of_ok {x : Computation σ ε α} {state middle : σ} {a : α}
    (h : x.run state = some (.ok a, middle)) (f : α → Computation σ ε β) :
    (x >>= f).run state = (f a).run middle := by
  rw [run_bind, h]
  rfl

/-- A function is applied to the result of a computation that succeeds. -/
theorem run_map_of_ok {x : Computation σ ε α} {state middle : σ} {a : α}
    (h : x.run state = some (.ok a, middle)) (f : α → β) :
    (f <$> x).run state = some (.ok (f a), middle) := by
  rw [map_eq_pure_bind, run_bind_of_ok h]
  rfl

/-- A computation of two parts ends with the second part, or with an error of the first. -/
theorem run_bind_eq_some {x : Computation σ ε α} {f : α → Computation σ ε β} {state after : σ}
    {result : Except ε β} (h : (x >>= f).run state = some (result, after)) :
    (∃ a middle, x.run state = some (.ok a, middle) ∧ (f a).run middle = some (result, after)) ∨
      ∃ e, x.run state = some (.error e, after) ∧ result = .error e := by
  rw [run_bind] at h
  rcases hx : x.run state with _ | ⟨e | a, middle⟩ <;> rw [hx] at h
  · cases h
  · cases h
    exact Or.inr ⟨e, rfl, rfl⟩
  · exact Or.inl ⟨a, middle, rfl, h⟩

/-- A computation that succeeds does so part by part. -/
theorem run_bind_eq_ok {x : Computation σ ε α} {f : α → Computation σ ε β} {state after : σ}
    {b : β} (h : (x >>= f).run state = some (.ok b, after)) :
    ∃ a middle, x.run state = some (.ok a, middle) ∧
      (f a).run middle = some (.ok b, after) := by
  rcases run_bind_eq_some h with hparts | ⟨_, _, hresult⟩
  · exact hparts
  · cases hresult

end Computation

namespace Action

variable {α : Type}

/-- An operation on the store runs as it is and does not fail. -/
@[simp] theorem run_perform (operation : Store → α × Store) (store : Store) :
    (perform operation).run store = some (.ok (operation store).1, (operation store).2) := rfl

/-- What an operation has given and left is what it gives and leaves on the store. -/
theorem run_perform_eq_ok {operation : Store → α × Store} {store after : Store} {a : α}
    (h : (perform operation).run store = some (.ok a, after)) : operation store = (a, after) := by
  rcases hrun : operation store with ⟨result, middle⟩
  rw [run_perform, hrun] at h
  cases h
  rfl

/-- An operation that may fail runs as it is, with its failure as an error of evaluation. -/
@[simp] theorem run_attempt {ε : Type} (toError : ε → EvalError)
    (operation : Store → Except ε α × Store) (store : Store) :
    (attempt toError operation).run store =
      some ((operation store).1.mapError toError, (operation store).2) := rfl

/-- An operation that may fail has succeeded with what it gives on the store. -/
theorem run_attempt_eq_ok {ε : Type} {toError : ε → EvalError}
    {operation : Store → Except ε α × Store} {store after : Store} {a : α}
    (h : (attempt toError operation).run store = some (.ok a, after)) :
    operation store = (.ok a, after) := by
  rw [run_attempt] at h
  rcases hrun : operation store with ⟨_ | _, middle⟩ <;> rw [hrun] at h <;> cases h
  rfl

/-- An action without an end has no outcome. -/
@[simp] theorem run_diverge (store : Store) : (diverge : Action α).run store = none := rfl

/-- Nothing is released if nothing fails. -/
theorem run_orRelease_of_ok {body : Action α} {store after : Store} {a : α}
    (h : body.run store = some (.ok a, after)) (values : List Value) :
    (body.orRelease values).run store = some (.ok a, after) := by
  simp only [orRelease, onError, ExceptT.run_mk, h]

/-- Closing that does not fail leaves the outcome of a use as it is. -/
theorem run_thenClose_of_ok {body : Action α} {result : Except EvalError α}
    {close : Store → Except EvalError Unit × Store} {store middle : Store}
    (hrun : body.run store = some (result, middle)) (hclose : (close middle).1 = .ok ()) :
    (body.thenClose close).run store = some (result, (close middle).2) := by
  simp only [thenClose, ExceptT.run_mk, hrun, hclose]
  cases result <;> rfl

end Action

/-- Whether evaluation may go on depends on the switches thrown and on the clock. -/
theorem Context.check_congr (context : Context) {store after : Store}
    (hthrown : ∀ switch, context.switch = some switch →
      after.isThrown switch = store.isThrown switch)
    (hnow : after.now = store.now) : context.check after = context.check store := by
  have hcancelled : context.isCancelled after = context.isCancelled store := by
    unfold Context.isCancelled
    cases hswitch : context.switch with
    | none => rfl
    | some switch => exact hthrown switch hswitch
  rw [check, check, hcancelled, Context.isExpired, Context.isExpired, hnow]

/-- A context that allows it lets evaluation go on and changes nothing. -/
theorem Evaluator.run_check_of_ok {evaluator : Evaluator} {store : Store}
    (h : evaluator.context.check store = .ok ()) :
    evaluator.check.run store = some (.ok (), store) := by
  rw [check, Action.run_attempt, h]
  rfl

/-- Asking the context changes nothing, and only a context that allows it lets evaluation go on. -/
theorem Evaluator.run_check_eq_ok {evaluator : Evaluator} {store after : Store}
    (h : evaluator.check.run store = some (.ok (), after)) :
    after = store ∧ evaluator.context.check store = .ok () := by
  have hcheck := Prod.mk.inj (Action.run_attempt_eq_ok h)
  exact ⟨hcheck.2.symm, hcheck.1⟩

namespace Store

variable {ε β : Type} {stream : Handle .stream} {f : Value → StateT Store Option (Except ε β)}

/-- What is left to do after the next element of a stream has been pulled. -/
def mapRest (stream : Handle .stream) (f : Value → StateT Store Option (Except ε β)) (limit : Nat)
    (results : List β) : Option Value × Store → Option (Except (ε × List β) (List β) × Store)
  | (none, store) => some (.ok results.reverse, store)
  | (some value, store) =>
    match f value store with
    | none => none
    | some (.error error, store) => some (.error (error, results.reverse), store)
    | some (.ok result, store) => mapEachWithin stream f limit (result :: results) store

/-- Mapping a stream pulls one element and goes on with the rest. -/
theorem run_mapEachWithin_succ (limit : Nat) (results : List β) (store : Store) :
    (mapEachWithin stream f (limit + 1) results : StateT Store Option _) store =
      mapRest stream f limit results (store.pull stream) := by
  rw [mapEachWithin]
  simp only [bind, StateT.bind, modifyGetThe, MonadStateOf.modifyGet, StateT.modifyGet, pure]
  rcases store.pull stream with ⟨_ | value, middle⟩
  · rfl
  · simp only [Option.bind, mapRest, StateT.bind, bind]
    rcases f value middle with _ | ⟨_ | _, _⟩ <;> rfl

/-- A stream is mapped over as many elements as it holds. -/
theorem run_mapEach (store : Store) :
    (mapEach stream f : StateT Store Option _) store =
      mapEachWithin stream f (store.remaining stream).length [] store := rfl

end Store

namespace Evaluator

/-- What becomes of the results for the elements of a stream. -/
def spreadResult : Option (Except (EvalError × List Value) (List Value) × Store) →
    Option (Except EvalError Value × Store)
  | none => none
  | some (.ok values, store) => some (.ok (.sequence values), store)
  | some (.error (error, values), store) => some (.error error, releaseAll values store)

/-- An operation handed down into a stream runs on its elements and gathers the results. -/
theorem run_spread (stream : Handle .stream) (f : Value → Action Value) (store : Store) :
    (spread stream f).run store =
      spreadResult ((Store.mapEach stream fun value => (f value).run :
        StateT Store Option _) store) := by
  unfold spread
  rw [Computation.run_bind, Computation.run_lift]
  rcases ((Store.mapEach stream fun value => (f value).run : StateT Store Option _) store) with
    _ | ⟨⟨error, values⟩ | values, middle⟩ <;> rfl

variable {evaluator : Evaluator}

/-- How deep an operation may be handed down into streams is read off the store. -/
theorem run_pointwise (f : Value → Action Value) (input : Value) (store : Store) :
    (evaluator.pointwise f input).run store =
      (evaluator.fanOut f (store.streams.size + 1) input).run store := rfl

/-- How deep a key may be handed down is read off the store. -/
theorem run_selectKey (name : String) (input : Value) (store : Store) :
    (evaluator.selectKey name input).run store =
      (evaluator.selectKeyWithin name
        ((store.links.size + 1) * (store.totalRemaining + 1) + evaluator.budget) input).run
        store := rfl

end Evaluator

end Sluice
