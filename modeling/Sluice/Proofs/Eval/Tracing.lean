import Sluice.Proofs.Eval.Keys
import Sluice.Proofs.Store.Release

/-!
# Evaluation with a trace

The store does not show everything that evaluation does. Here is the evaluator once more with a
trace beside the store, in which it notes each application of a node that starts, each link that it
dereferences, each value that a node is done with without handing it on, and how a run fails. It
releases nothing on its way out of a failing application. Instead the error comes with the values
that are held at that moment, in the order in which they would be released. Without its notes, and
with those values released in the end, it is the evaluator itself (`traces_apply`,
`exists_trace_of_run`), so what holds of every trace holds of evaluation.
-/

namespace Sluice

open Sluice.Action Sluice.Filter

/-- Something that evaluation does and that the store does not show. -/
inductive Note
  /-- The application of a node started, on this store. -/
  | applied (store : Store)
  /-- A link was dereferenced and this value was used for it. The stores are those before and right
  after. -/
  | dereferenced (link : Handle .link) (value : Value) (before after : Store)
  /-- A node was done with these values and handed none of them on. -/
  | dropped (values : List Value)
  /-- A stage of a program failed, which left this store and held these values. -/
  | failed (store : Store) (held : List Value)

namespace Value

/-- A value as a whole, unless using it up has closed it. -/
def unlessClosed : Value → List Value
  | iterator _ | byteStream _ => []
  | value => [value]

/-- What is left of a value when the element at a position is taken out of it. -/
def besidesIndex (position : Int64) : Value → List Value
  | sequence items =>
    match indexIn position items.length with
    | .ok n => items.eraseIdx n
    | .error _ => items
  | value => value.unlessClosed

/-- What is left of a value when the elements between two bounds are taken out of it. -/
def besidesRange (range : Filter.Range) : Value → List Value
  | sequence items =>
    items.take (sliceBounds range items.length).1 ++ items.drop (sliceBounds range items.length).2
  | value => value.unlessClosed

/-- What is left of a value when the entry under a key is taken out of it. -/
def besidesKey (name : String) : Value → List Value
  | mapping entries => (entries.eraseP fun entry => name == entry.1).map (·.2)
  | dict entries =>
    Store.dictParts (entries.eraseP fun entry => Store.isTextKey name entry.1)
  | value => value.unlessClosed

end Value

/-- The entries of a list after which the same key comes again. -/
def Keyed.overwritten {α : Type} : List (String × α) → List (String × α)
  | [] => []
  | entry :: rest =>
    if rest.any (entry.1 == ·.1) then entry :: overwritten rest else overwritten rest

/-- A computation that also notes what it does. The newest note comes first. It releases nothing
when it fails: its error comes with the values that it holds. -/
abbrev Traced (α : Type) := Computation (Store × List Note) (EvalError × List Value) α

namespace Traced

variable {α β : Type}

/-- An action that notes nothing, and whose failure holds nothing. -/
def ofAction (action : Action α) : Traced α :=
  ExceptT.mk fun (store, trace) =>
    (action.run store).map fun (result, store) =>
      (result.mapError fun error => (error, []), (store, trace))

/-- Notes something about the store. -/
def note (f : Store → Note) : Traced Unit :=
  ExceptT.mk fun (store, trace) => some (.ok (), (store, f store :: trace))

/-- Is done with values. -/
def drop (values : List Value) : Traced Unit := note fun _ => .dropped values

/-- Starts the application of a node, and goes on only while the context allows it. -/
def start (evaluator : Evaluator) : Traced Unit := do
  note .applied
  ofAction evaluator.check

/-- A computation while which values are held. Where an evaluation releases values on a failure, it
holds them here. -/
def whileHolding (values : List Value) (body : Traced α) : Traced α :=
  ExceptT.mk fun state =>
    (body.run state).map fun (result, state) =>
      (result.mapError fun (error, held) => (error, held ++ values), state)

/-- Takes up to `limit` elements out of a stream and applies a computation to each. The results
before are held; they come newest first. -/
def spreadWithin (stream : Handle .stream) (f : Value → Traced Value) :
    (limit : Nat) → List Value → Traced Value
  | 0, values => pure (.sequence values.reverse)
  | limit + 1, values => do
    match ← ofAction (perform (Store.pull stream)) with
    | none => pure (.sequence values.reverse)
    | some element => do
      let value ← whileHolding values.reverse (f element)
      spreadWithin stream f limit (value :: values)

/-- `Evaluator.spread` with a trace. -/
def spread (stream : Handle .stream) (f : Value → Traced Value) : Traced Value := do
  let limit ← ofAction (perform fun store => ((store.remaining stream).length, store))
  spreadWithin stream f limit []

/-- `Evaluator.resolveLink` with a trace. -/
def resolveLink (evaluator : Evaluator) (link : Handle .link) : Traced Value := do
  let before ← ofAction (perform fun store => (store, store))
  let value ← ofAction (evaluator.resolveLink link)
  note (.dereferenced link value before)
  pure value

/-- `Evaluator.follow` with a trace. -/
def follow (evaluator : Evaluator) : (links : Nat) → Value → Traced Value
  | links + 1, .link link => do
    let target ← resolveLink evaluator link
    follow evaluator links target
  | links, value => ofAction (evaluator.follow links value)

/-- `Evaluator.resolve` with a trace. -/
def resolve (evaluator : Evaluator) (value : Value) : Traced Value :=
  follow evaluator maxLinkDepth value

/-- `Evaluator.selectIndex` with a trace. -/
def selectIndex (evaluator : Evaluator) (position : Int64) (input : Value) : Traced Value := do
  let target ← resolve evaluator input
  drop (target.besidesIndex position)
  ofAction (evaluator.selectIndex position target)

/-- `Evaluator.selectRange` with a trace. -/
def selectRange (evaluator : Evaluator) (range : Filter.Range) (input : Value) : Traced Value := do
  if range.isAll then pure input
  else
    let target ← resolve evaluator input
    drop (target.besidesRange range)
    ofAction (evaluator.selectRange range target)

/-- `Evaluator.length` with a trace. -/
def length (evaluator : Evaluator) (input : Value) : Traced Value := do
  let target ← resolve evaluator input
  drop target.unlessClosed
  ofAction (evaluator.length target)

/-- The elements of a value that is reached through links. -/
def elementsOf : Value → Action Value
  | .iterator iterator => pure (.iterator iterator)
  | .array array => do
    let iterator ← Evaluator.iterateArray array
    pure (.iterator iterator)
  | .sequence items => Evaluator.newStream .values items
  | other => Evaluator.newStream .single [other]

/-- `Evaluator.iterateAll` with a trace. -/
def iterateAll (evaluator : Evaluator) : Value → Traced Value
  | .stream stream => ofAction (Evaluator.newStream .wrapped [.stream stream])
  | input => do
    let target ← resolve evaluator input
    ofAction (elementsOf target)

/-- `Evaluator.arithmetic` with a trace. -/
def arithmetic (evaluator : Evaluator) (left : Value) (operator : Operator) (right : Value) :
    Traced Value := do
  let left ← resolve evaluator left
  let right ← whileHolding [left] (resolve evaluator right)
  match left.toFloat?.bind fun a =>
      right.toFloat?.bind fun b => Evaluator.operate? operator a b with
  | some x => pure (.float x)
  | none => throw (.unsupportedBinary left.kind operator right.kind, [left, right])

/-- A literal drops its input. -/
def literal (value input : Value) : Traced Value := do
  drop [input]
  pure value

/-- An input that no part of a node looks at is dropped. -/
def dropUnused (parts : List β) (input : Value) : Traced Unit :=
  if parts.isEmpty then drop [input] else pure ()

/-- `Evaluator.fanOut` with a trace. -/
def fanOut (evaluator : Evaluator) (f : Value → Traced Value) : (depth : Nat) → Value → Traced Value
  | 0, input => do
    start evaluator
    match input with
    | .stream _ => ofAction diverge
    | input => f input
  | depth + 1, input => do
    start evaluator
    match input with
    | .stream stream => spread stream (fanOut evaluator f depth)
    | input => f input

/-- `Evaluator.pointwise` with a trace. -/
def pointwise (evaluator : Evaluator) (f : Value → Traced Value) (input : Value) :
    Traced Value := do
  let depth ← ofAction Evaluator.streamDepth
  fanOut evaluator f depth input

mutual

/-- `Evaluator.broadcast` with a trace. -/
def broadcast (evaluator : Evaluator) (f : Value → Traced Value) : Value → Traced Value
  | .sequence items => do
    start evaluator
    let values ← broadcastItems evaluator f items []
    pure (.sequence values)
  | input => do
    start evaluator
    f input
termination_by structural input => input

/-- `Evaluator.broadcastItems` with a trace. -/
def broadcastItems (evaluator : Evaluator) (f : Value → Traced Value) :
    List Value → List Value → Traced (List Value)
  | [], values => pure values.reverse
  | item :: rest, values => do
    let value ← whileHolding values.reverse (broadcast evaluator f item)
    broadcastItems evaluator f rest (value :: values)
termination_by structural items => items

end

/-- Applies a computation to each of several values. The results before are held; they come newest
first. -/
def collect (f : Value → Traced Value) : List Value → List Value → Traced (List Value)
  | [], values => pure values.reverse
  | item :: rest, values => do
    let value ← whileHolding values.reverse (f item)
    collect f rest (value :: values)

/-- `Evaluator.selectEntry` with a trace. -/
def selectEntry (evaluator : Evaluator) (name : String) (target : Value) : Traced Value := do
  drop (target.besidesKey name)
  ofAction (evaluator.selectEntry name target)

/-- `Evaluator.selectKeyWithin` with a trace. -/
def selectKeyWithin (evaluator : Evaluator) (name : String) : (depth : Nat) → Value → Traced Value
  | 0 => broadcast evaluator fun
    | .stream _ => ofAction diverge
    | input => do
      match ← resolve evaluator input with
      | .sequence _ => ofAction diverge
      | target => selectEntry evaluator name target
  | depth + 1 => broadcast evaluator fun
    | .stream stream => spread stream (selectKeyWithin evaluator name depth)
    | input => do
      match ← resolve evaluator input with
      | .sequence items => do
        let values ← collect (selectKeyWithin evaluator name depth) items []
        pure (.sequence values)
      | target => selectEntry evaluator name target

/-- `Evaluator.selectKey` with a trace. -/
def selectKey (evaluator : Evaluator) (name : String) (input : Value) : Traced Value := do
  let depth ← ofAction evaluator.keyDepth
  selectKeyWithin evaluator name depth input

mutual

/-- `Evaluator.apply` with a trace. -/
def apply (evaluator : Evaluator) : Node → Value → Traced Value
  | .identity => fun input => do
    start evaluator
    pure input
  | .chain steps => fun input => do
    start evaluator
    thread evaluator steps input
  | .pipeline stages => fun input => do
    start evaluator
    thread evaluator stages input
  | .iterate => fun input => do
    start evaluator
    iterateAll evaluator input
  | .text s => pointwise evaluator (literal (.text s))
  | .number x => pointwise evaluator (literal (.float x))
  | .length => pointwise evaluator (length evaluator)
  | .key name => selectKey evaluator name
  | .index position => pointwise evaluator (selectIndex evaluator position)
  | .range bounds => pointwise evaluator (selectRange evaluator bounds)
  | .binary left operator right => pointwise evaluator fun input => do
    let a ← apply evaluator left input
    let b ← whileHolding [a] (apply evaluator right input)
    whileHolding [a, b] (arithmetic evaluator a operator b)
  | .array items => pointwise evaluator fun input => do
    dropUnused items input
    let values ← applyAll evaluator items input []
    pure (.sequence values)
  | .object entries => pointwise evaluator fun input => do
    dropUnused entries input
    let entries ← applyEntries evaluator entries input []
    drop ((Keyed.overwritten entries).map (·.2))
    pure (.mapping (Keyed.ofList entries))
termination_by structural node => node

/-- `Evaluator.thread` with a trace. -/
def thread (evaluator : Evaluator) : List Node → Value → Traced Value
  | [] => fun input => pure input
  | node :: rest => fun input => do
    let value ← apply evaluator node input
    thread evaluator rest value
termination_by structural nodes => nodes

/-- `Evaluator.applyAll` with a trace. -/
def applyAll (evaluator : Evaluator) : List Node → Value → List Value → Traced (List Value)
  | [] => fun _ values => pure values.reverse
  | node :: rest => fun input values => do
    let value ← whileHolding values.reverse (apply evaluator node input)
    applyAll evaluator rest input (value :: values)
termination_by structural nodes => nodes

/-- `Evaluator.applyEntries` with a trace. -/
def applyEntries (evaluator : Evaluator) :
    List (String × Node) → Value → List (String × Value) → Traced (List (String × Value))
  | [] => fun _ values => pure values.reverse
  | (key, node) :: rest => fun input values => do
    let value ← whileHolding (values.reverse.map (·.2)) (apply evaluator node input)
    applyEntries evaluator rest input ((key, value) :: values)
termination_by structural entries => entries

end

/-- An input that is itself an iterator or a byte stream is held by the first stage. -/
def handleOf : Value → List Value
  | .iterator iterator => [.iterator iterator]
  | .byteStream stream => [.byteStream stream]
  | _ => []

/-- `Evaluator.continueRun` with a trace. The result of the stage before is held. -/
def continueRun (evaluator : Evaluator) : Program → Value →
    StateT (Store × List Note) Option (Except Failure Value)
  | [], value => fun (store, trace) =>
    let (value, store) := flatten value store
    some (.ok value, (store, trace))
  | node :: rest, value => fun state =>
    match (apply evaluator node value).run state with
    | none => none
    | some (.ok value, state) => continueRun evaluator rest value state
    | some (.error (error, held), (store, trace)) =>
      let (output, behind) := flatten value (releaseAll held store)
      some (.error ⟨error, some output⟩,
        (release output behind, .failed store (held ++ [value]) :: trace))

/-- `Evaluator.run` with a trace. -/
def runProgram (evaluator : Evaluator) (program : Program) (input : Value) :
    StateT (Store × List Note) Option (Except Failure Value) :=
  match program with
  | [] => continueRun evaluator [] input
  | node :: rest => fun state =>
    match (apply evaluator node input).run state with
    | none => none
    | some (.ok value, state) => continueRun evaluator rest value state
    | some (.error (error, held), (store, trace)) =>
      some (.error ⟨error, none⟩,
        (closeHandle input (releaseAll held store),
          .failed store (held ++ handleOf input) :: trace))

/-- What is left of an outcome when the notes are forgotten. -/
def forget (outcome : Option (β × (Store × List Note))) : Option (β × Store) :=
  outcome.map fun (result, (store, _)) => (result, store)

/-- What is left of an outcome when the notes are forgotten and what is held at a failure is
released. -/
def settle : Option (Except (EvalError × List Value) α × (Store × List Note)) →
    Option (Except EvalError α × Store)
  | none => none
  | some (.ok a, (store, _)) => some (.ok a, store)
  | some (.error (error, held), (store, _)) => some (.error error, releaseAll held store)

/-- Whether a computation does what an action does, apart from its notes and from what it still
holds at a failure. -/
def Traces (body : Traced α) (action : Action α) : Prop :=
  ∀ store trace, settle (body.run (store, trace)) = action.run store

/-- Values are released one after another. -/
theorem releaseAll_append (values others : List Value) (store : Store) :
    releaseAll (values ++ others) store = releaseAll others (releaseAll values store) := by
  simp [releaseAll, List.foldl_append]

/-- A computation that succeeds holds nothing. -/
theorem run_whileHolding_eq_ok {body : Traced α} {values : List Value}
    {state after : Store × List Note} {a : α}
    (h : (whileHolding values body).run state = some (.ok a, after)) :
    body.run state = some (.ok a, after) := by
  obtain ⟨⟨result, middle⟩, hbody, heq⟩ := Option.map_eq_some_iff.mp h
  rcases result with ⟨error, held⟩ | b <;> cases heq
  exact hbody

/-- A computation that fails holds what is held meanwhile after what it holds itself. -/
theorem run_whileHolding_eq_error {body : Traced α} {values held : List Value}
    {state after : Store × List Note} {error : EvalError}
    (h : (whileHolding values body).run state = some (.error (error, held), after)) :
    ∃ inner, body.run state = some (.error (error, inner), after) ∧ held = inner ++ values := by
  obtain ⟨⟨result, middle⟩, hbody, heq⟩ := Option.map_eq_some_iff.mp h
  rcases result with ⟨found, inner⟩ | b <;> cases heq
  exact ⟨inner, hbody, rfl⟩

/-- An action notes nothing, and its failure holds nothing. -/
theorem run_ofAction_eq_some {action : Action α} {state after : Store × List Note}
    {result : Except (EvalError × List Value) α}
    (h : (ofAction action).run state = some (result, after)) :
    action.run state.1 = some (result.mapError Prod.fst, after.1) ∧ after.2 = state.2 := by
  obtain ⟨⟨found, store⟩, hrun, heq⟩ := Option.map_eq_some_iff.mp h
  cases heq
  refine ⟨hrun.trans ?_, rfl⟩
  cases found <;> rfl

namespace Traces

variable {body : Traced α} {action : Action α} {store after : Store} {trace notes : List Note}

/-- A computation that succeeds ends as the action does. -/
theorem run_eq_ok (h : Traces body action) {a : α}
    (hrun : body.run (store, trace) = some (.ok a, (after, notes))) :
    action.run store = some (.ok a, after) := by
  rw [← h store trace, hrun]
  rfl

/-- Whatever an action succeeds with, the computation succeeds with. -/
theorem exists_run_eq_ok (h : Traces body action) (trace : List Note) {a : α}
    (hrun : action.run store = some (.ok a, after)) :
    ∃ notes, body.run (store, trace) = some (.ok a, (after, notes)) := by
  rw [← h store trace] at hrun
  rcases hbody : body.run (store, trace) with _ | ⟨⟨error, held⟩ | b, last, notes⟩ <;>
    rw [hbody] at hrun <;> cases hrun
  exact ⟨notes, rfl⟩

/-- Whatever an action fails with, the computation fails with, and the action has released what the
computation holds. -/
theorem exists_run_eq_error (h : Traces body action) (trace : List Note) {error : EvalError}
    (hrun : action.run store = some (.error error, after)) :
    ∃ held atFailure notes,
      body.run (store, trace) = some (.error (error, held), (atFailure, notes)) ∧
      after = releaseAll held atFailure := by
  rw [← h store trace] at hrun
  rcases hbody : body.run (store, trace) with _ | ⟨⟨found, held⟩ | b, last, notes⟩ <;>
    rw [hbody] at hrun <;> cases hrun
  exact ⟨held, last, notes, rfl, rfl⟩

/-- A result by itself. -/
theorem pure (a : α) : Traces (Pure.pure a) (Pure.pure a) := fun _ _ => rfl

/-- An action traces itself. -/
theorem ofAction (action : Action α) : Traces (Traced.ofAction action) action := by
  intro store trace
  simp only [Traced.ofAction, ExceptT.run_mk]
  rcases action.run store with _ | ⟨error | a, after⟩ <;> rfl

/-- What follows a computation has to do with its possible results only. -/
theorem bind_of_ok {f : α → Traced β} {g : α → Action β} (h : Traces body action)
    (hnext : ∀ ⦃a store after⦄, action.run store = some (.ok a, after) → Traces (f a) (g a)) :
    Traces (body >>= f) (action >>= g) := by
  intro store trace
  have hfirst := h store trace
  rw [Computation.run_bind, Computation.run_bind, ← hfirst]
  rcases hrun : body.run (store, trace) with _ | ⟨⟨error, held⟩ | a, after, notes⟩
  · rfl
  · rfl
  · exact hnext (h.run_eq_ok hrun) after notes

/-- Computations one after the other trace actions one after the other. -/
theorem bind {f : α → Traced β} {g : α → Action β} (h : Traces body action)
    (hnext : ∀ a, Traces (f a) (g a)) : Traces (body >>= f) (action >>= g) :=
  h.bind_of_ok fun a _ _ _ => hnext a

/-- A note changes nothing. -/
theorem note {f : Store → Note} {body : Unit → Traced α} (h : Traces (body ()) action) :
    Traces (Traced.note f >>= body) action := by
  intro store trace
  rw [Computation.run_bind]
  exact h store (f store :: trace)

/-- Dropping values changes nothing. -/
theorem drop {values : List Value} {body : Unit → Traced α} (h : Traces (body ()) action) :
    Traces (Traced.drop values >>= body) action := note h

/-- What is held while a computation fails is released after what the computation holds itself. -/
theorem whileHolding (h : Traces body action) (values : List Value) :
    Traces (Traced.whileHolding values body) (action.orRelease values) := by
  intro store trace
  simp only [Traced.whileHolding, Action.orRelease, Action.onError, ExceptT.run_mk, ← h store trace]
  rcases body.run (store, trace) with _ | ⟨⟨error, held⟩ | a, after, notes⟩
  · rfl
  · simp [Except.mapError, settle, releaseAll_append]
  · rfl

/-- Each application starts by asking the context. -/
theorem start (evaluator : Evaluator) : Traces (Traced.start evaluator) evaluator.check :=
  note (ofAction evaluator.check)

/-- The loop over the elements of a stream, with the results before. -/
theorem spreadWithin {f : Value → Traced Value} {g : Value → Action Value}
    (h : ∀ value, Traces (f value) (g value)) (stream : Handle .stream) (limit : Nat)
    (values : List Value) (store : Store) (trace : List Note) :
    settle ((Traced.spreadWithin stream f limit values).run (store, trace)) =
      Evaluator.spreadResult
        ((Store.mapEachWithin stream (fun value => (g value).run) limit values :
          StateT Store Option _) store) := by
  induction limit generalizing values store trace with
  | zero => rfl
  | succ limit ih =>
    rw [Store.run_mapEachWithin_succ]
    simp only [Traced.spreadWithin, Computation.run_bind, Traced.ofAction, ExceptT.run_mk,
      Action.run_perform, Option.map_some, Computation.next]
    rcases store.pull stream with ⟨_ | element, middle⟩
    · rfl
    · have helement := h element middle trace
      simp only [Store.mapRest, Except.mapError, Computation.run_bind, Traced.whileHolding,
        ExceptT.run_mk, ← helement]
      rcases (f element).run (middle, trace) with _ | ⟨⟨error, held⟩ | value, after, notes⟩
      · rfl
      · simp [settle, Computation.next, Evaluator.spreadResult, releaseAll_append]
      · exact ih (value :: values) after notes

/-- Spreading over a stream. -/
theorem spread {f : Value → Traced Value} {g : Value → Action Value}
    (h : ∀ value, Traces (f value) (g value)) (stream : Handle .stream) :
    Traces (Traced.spread stream f) (Evaluator.spread stream g) := by
  intro store trace
  rw [Evaluator.run_spread, Store.run_mapEach]
  exact spreadWithin h stream _ [] store trace

end Traces

variable (evaluator : Evaluator)

/-- Dereferencing with a trace is dereferencing. -/
theorem traces_resolveLink (link : Handle .link) :
    Traces (resolveLink evaluator link) (evaluator.resolveLink link) := by
  intro store trace
  simp only [resolveLink, Computation.run_bind, ofAction, ExceptT.run_mk, run_perform,
    Option.map_some, Except.mapError, Computation.next]
  rcases (evaluator.resolveLink link).run store with _ | ⟨error | value, after⟩ <;> rfl

/-- Following links with a trace is following them. -/
theorem traces_follow (links : Nat) (value : Value) :
    Traces (follow evaluator links value) (evaluator.follow links value) := by
  induction links generalizing value with
  | zero => exact .ofAction _
  | succ links ih =>
    cases value with
    | link link => exact .bind (traces_resolveLink evaluator link) ih
    | _ => exact .ofAction _

/-- Resolving with a trace is resolving. -/
theorem traces_resolve (value : Value) :
    Traces (resolve evaluator value) (evaluator.resolve value) :=
  traces_follow evaluator maxLinkDepth value

/-- Links lead to a value that is no link. -/
theorem ne_link_of_run_follow {evaluator : Evaluator} {links : Nat} {value target : Value}
    {store after : Store}
    (h : (evaluator.follow links value).run store = some (.ok target, after)) :
    ∀ link, target ≠ .link link := by
  induction links generalizing value store with
  | zero =>
    cases value with
    | link link => cases h
    | _ =>
      cases h
      simp
  | succ links ih =>
    cases value with
    | link link =>
      rcases Computation.run_bind_eq_some h with ⟨next, middle, _, hrest⟩ | ⟨error, _, hresult⟩
      · exact ih hrest
      · cases hresult
    | _ =>
      cases h
      simp

/-- A value that is no link stands for itself. -/
theorem resolve_of_ne_link {evaluator : Evaluator} {target : Value}
    (hlink : ∀ link, target ≠ .link link) : evaluator.resolve target = pure target := by
  cases target with
  | link link => exact absurd rfl (hlink link)
  | _ => rfl

/-- Resolving what links lead to again changes nothing. -/
theorem resolve_of_run_follow {evaluator : Evaluator} {links : Nat} {value target : Value}
    {store after : Store}
    (h : (evaluator.follow links value).run store = some (.ok target, after)) :
    evaluator.resolve target = pure target :=
  resolve_of_ne_link (ne_link_of_run_follow h)

/-- A result that is there releases nothing. -/
theorem orRelease_pure (a : α) (values : List Value) :
    (pure a : Action α).orRelease values = pure a := rfl

/-- Selecting an index with a trace is selecting it. -/
theorem traces_selectIndex (position : Int64) (input : Value) :
    Traces (selectIndex evaluator position input) (evaluator.selectIndex position input) := by
  refine (traces_resolve evaluator input).bind_of_ok fun target _ _ hrun => .drop ?_
  simp only [Evaluator.selectIndex, resolve_of_run_follow hrun, pure_bind]
  exact .ofAction _

/-- Selecting a range with a trace is selecting it. -/
theorem traces_selectRange (range : Filter.Range) (input : Value) :
    Traces (selectRange evaluator range input) (evaluator.selectRange range input) := by
  unfold selectRange Evaluator.selectRange
  split
  case isTrue hall => exact .pure input
  case isFalse hnot =>
    refine (traces_resolve evaluator input).bind_of_ok fun target _ _ hrun => .drop ?_
    simp only [resolve_of_run_follow hrun, pure_bind]
    exact .ofAction _

/-- Taking the length with a trace is taking it. -/
theorem traces_length (input : Value) :
    Traces (length evaluator input) (evaluator.length input) := by
  refine (traces_resolve evaluator input).bind_of_ok fun target _ _ hrun => .drop ?_
  simp only [Evaluator.length, resolve_of_run_follow hrun, pure_bind]
  exact .ofAction _

/-- Iteration with a trace is iteration. -/
theorem traces_iterateAll (input : Value) :
    Traces (iterateAll evaluator input) (evaluator.iterateAll input) := by
  cases input with
  | stream stream => exact .ofAction _
  | _ =>
    refine (traces_resolve evaluator _).bind fun target => ?_
    cases target <;> exact .ofAction _

/-- Calculating with a trace is calculating, with the operands released on a failure. -/
theorem traces_arithmetic (left : Value) (operator : Operator) (right : Value) :
    Traces (arithmetic evaluator left operator right)
      (evaluator.arithmetic left operator right) := by
  refine (traces_resolve evaluator left).bind fun left => ?_
  refine ((traces_resolve evaluator right).whileHolding [left]).bind fun right => ?_
  intro store trace
  cases left.toFloat?.bind fun a =>
    right.toFloat?.bind fun b => Evaluator.operate? operator a b with
  | some x | none => rfl

/-- Selecting an entry with a trace is selecting it. -/
theorem traces_selectEntry (name : String) (target : Value) :
    Traces (selectEntry evaluator name target) (evaluator.selectEntry name target) :=
  .drop (.ofAction _)

variable {evaluator}

/-- Handing down into streams with a trace hands down what is traced. -/
theorem traces_fanOut {f : Value → Traced Value} {g : Value → Action Value}
    (h : ∀ value, Traces (f value) (g value)) (depth : Nat) (input : Value) :
    Traces (fanOut evaluator f depth input) (evaluator.fanOut g depth input) := by
  induction depth generalizing input with
  | zero =>
    refine .bind (.start evaluator) fun _ => ?_
    cases input with
    | stream stream => exact .ofAction _
    | _ => exact h _
  | succ depth ih =>
    refine .bind (.start evaluator) fun _ => ?_
    cases input with
    | stream stream => exact .spread ih stream
    | _ => exact h _

/-- Handing down as deep as streams go, with a trace, hands down what is traced. -/
theorem traces_pointwise {f : Value → Traced Value} {g : Value → Action Value}
    (h : ∀ value, Traces (f value) (g value)) (input : Value) :
    Traces (pointwise evaluator f input) (evaluator.pointwise g input) :=
  .bind (.ofAction _) fun depth => traces_fanOut h depth input

mutual

/-- Handing down into sequences with a trace hands down what is traced. -/
theorem traces_broadcast {f : Value → Traced Value} {g : Value → Action Value}
    (h : ∀ value, Traces (f value) (g value)) (input : Value) :
    Traces (broadcast evaluator f input) (evaluator.broadcast g input) := by
  match input with
  | .sequence items =>
    exact .bind (.start evaluator) fun _ =>
      .bind (traces_broadcastItems h items []) fun values => .pure _
  | .null | .bool _ | .int _ | .float _ | .byte _ | .bytes _ | .text _ | .mapping _ | .dict _
  | .link _ | .map _ | .array _ | .iterator _ | .byteStream _ | .stream _ =>
    exact .bind (.start evaluator) fun _ => h _
termination_by structural input

/-- Items with a trace are the items, with the results before released on a failure. -/
theorem traces_broadcastItems {f : Value → Traced Value} {g : Value → Action Value}
    (h : ∀ value, Traces (f value) (g value)) (items values : List Value) :
    Traces (broadcastItems evaluator f items values)
      (evaluator.broadcastItems g items values) := by
  match items with
  | [] => exact .pure _
  | item :: rest =>
    exact .bind ((traces_broadcast h item).whileHolding _) fun value =>
      traces_broadcastItems h rest (value :: values)
termination_by structural items

end

/-- Collecting with a trace is collecting, with the results before released on a failure. -/
theorem traces_collect {f : Value → Traced Value} {g : Value → Action Value}
    (h : ∀ value, Traces (f value) (g value)) (items values : List Value) :
    Traces (collect f items values) (Evaluator.selectKeyWithin.collect g items values) := by
  induction items generalizing values with
  | nil => exact .pure _
  | cons item rest ih => exact .bind ((h item).whileHolding _) fun value => ih (value :: values)

/-- Selecting a key with a trace is selecting it, by induction on how deep it is handed down. -/
theorem traces_selectKeyWithin (name : String) (depth : Nat) (input : Value) :
    Traces (selectKeyWithin evaluator name depth input)
      (evaluator.selectKeyWithin name depth input) := by
  induction depth generalizing input with
  | zero =>
    refine traces_broadcast (fun input => ?_) input
    cases input with
    | stream stream => exact .ofAction _
    | _ =>
      refine .bind (traces_resolve evaluator _) fun target => ?_
      cases target with
      | sequence items => exact .ofAction _
      | _ => exact traces_selectEntry evaluator name _
  | succ depth ih =>
    refine traces_broadcast (fun input => ?_) input
    cases input with
    | stream stream => exact .spread ih stream
    | _ =>
      refine .bind (traces_resolve evaluator _) fun target => ?_
      cases target with
      | sequence items => exact .bind (traces_collect ih items []) fun values => .pure _
      | _ => exact traces_selectEntry evaluator name _

/-- Selecting a key with a trace is selecting it. -/
theorem traces_selectKey (name : String) (input : Value) :
    Traces (selectKey evaluator name input) (evaluator.selectKey name input) :=
  .bind (.ofAction _) fun depth => traces_selectKeyWithin name depth input

/-- Dropping an input that is not used changes nothing. -/
theorem Traces.dropUnused {parts : List β} {input : Value} {body : Unit → Traced α}
    {action : Action α} (h : Traces (body ()) action) :
    Traces (Traced.dropUnused parts input >>= body) action := by
  unfold Traced.dropUnused
  split
  · exact .drop h
  · exact h

mutual

/-- Without its notes the evaluator with a trace is the evaluator. -/
theorem traces_apply (node : Node) (input : Value) :
    Traces (apply evaluator node input) (evaluator.apply node input) := by
  match node with
  | .identity => exact .bind (.start evaluator) fun _ => .pure input
  | .chain steps => exact .bind (.start evaluator) fun _ => traces_thread steps input
  | .pipeline stages => exact .bind (.start evaluator) fun _ => traces_thread stages input
  | .iterate => exact .bind (.start evaluator) fun _ => traces_iterateAll evaluator input
  | .text s => exact traces_pointwise (fun _ => .drop (.pure _)) input
  | .number x => exact traces_pointwise (fun _ => .drop (.pure _)) input
  | .length => exact traces_pointwise (traces_length evaluator) input
  | .key name => exact traces_selectKey name input
  | .index position => exact traces_pointwise (traces_selectIndex evaluator position) input
  | .range bounds => exact traces_pointwise (traces_selectRange evaluator bounds) input
  | .binary left operator right =>
    refine traces_pointwise (fun input => ?_) input
    refine .bind (traces_apply left input) fun a => ?_
    refine .bind ((traces_apply right input).whileHolding [a]) fun b => ?_
    exact (traces_arithmetic evaluator a operator b).whileHolding [a, b]
  | .array items =>
    refine traces_pointwise (fun input => .dropUnused ?_) input
    exact .bind (traces_applyAll items input []) fun values => .pure _
  | .object entries =>
    refine traces_pointwise (fun input => .dropUnused ?_) input
    exact .bind (traces_applyEntries entries input []) fun values => .drop (.pure _)
termination_by structural node

/-- Stages with a trace are the stages. -/
theorem traces_thread (nodes : List Node) (input : Value) :
    Traces (thread evaluator nodes input) (evaluator.thread nodes input) := by
  match nodes with
  | [] => exact .pure input
  | node :: rest => exact .bind (traces_apply node input) fun value => traces_thread rest value
termination_by structural nodes

/-- The parts of an array with a trace are the parts, with the results before released on a
failure. -/
theorem traces_applyAll (nodes : List Node) (input : Value) (values : List Value) :
    Traces (applyAll evaluator nodes input values) (evaluator.applyAll nodes input values) := by
  match nodes with
  | [] => exact .pure _
  | node :: rest =>
    exact .bind ((traces_apply node input).whileHolding _) fun value =>
      traces_applyAll rest input (value :: values)
termination_by structural nodes

/-- The parts of an object with a trace are the parts, with the results before released on a
failure. -/
theorem traces_applyEntries (entries : List (String × Node)) (input : Value)
    (values : List (String × Value)) :
    Traces (applyEntries evaluator entries input values)
      (evaluator.applyEntries entries input values) := by
  match entries with
  | [] => exact .pure _
  | (key, node) :: rest =>
    exact .bind ((traces_apply node input).whileHolding _) fun value =>
      traces_applyEntries rest input ((key, value) :: values)
termination_by structural entries

end

/-- Stages of a run with a trace are the stages, without what they note. -/
theorem forget_continueRun (program : Program) (value : Value) (store : Store)
    (trace : List Note) :
    forget (continueRun evaluator program value (store, trace)) =
      evaluator.continueRun program value store := by
  induction program generalizing value store trace with
  | nil => rfl
  | cons node rest ih =>
    have hnode := @traces_apply evaluator node value store trace
    simp only [continueRun, Evaluator.continueRun, ← hnode]
    rcases (apply evaluator node value).run (store, trace) with
      _ | ⟨⟨error, held⟩ | next, after, notes⟩
    · rfl
    · rfl
    · exact ih next after notes

/-- A run with a trace is the run, without what it notes. -/
theorem forget_runProgram (program : Program) (input : Value) (store : Store)
    (trace : List Note) :
    forget (runProgram evaluator program input (store, trace)) =
      evaluator.run program input store := by
  cases program with
  | nil => rfl
  | cons node rest =>
    have hnode := @traces_apply evaluator node input store trace
    simp only [runProgram, Evaluator.run, ← hnode]
    rcases (apply evaluator node input).run (store, trace) with
      _ | ⟨⟨error, held⟩ | next, after, notes⟩
    · rfl
    · rfl
    · exact forget_continueRun rest next after notes

/-- Every run has a trace. -/
theorem exists_trace_of_run {program : Program} {input : Value} {store after : Store}
    {result : Except Failure Value} (h : evaluator.run program input store = some (result, after)) :
    ∃ trace, runProgram evaluator program input (store, []) = some (result, (after, trace)) := by
  rw [← forget_runProgram program input store []] at h
  obtain ⟨⟨found, behind, trace⟩, hrun, heq⟩ := Option.map_eq_some_iff.mp h
  cases heq
  exact ⟨trace, hrun⟩

end Traced

end Sluice
