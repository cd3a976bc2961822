import Sluice.Proofs.Eval.Steps
import Sluice.Proofs.Eval.Tracing

/-!
# What pervades an evaluation

Evaluation is put together from a few operations, and most of it runs only after the context has
been asked and has allowed it. So what holds of those operations, and is kept by putting parts
together, holds of the application of every node (`Pervades.apply`).
-/

namespace Sluice

open Sluice.Action Sluice.Filter

namespace Traced

variable {evaluator : Evaluator} {always allowed : ∀ {α : Type}, Traced α → Prop}

/-- Whether one property holds of each part of an evaluation wherever it runs, and another one of
each part that runs right after the context has allowed it. -/
structure Pervades (evaluator : Evaluator) (always allowed : ∀ {α : Type}, Traced α → Prop) :
    Prop where
  pure : ∀ {α : Type} (a : α), always (Pure.pure a : Traced α)
  bind : ∀ {α β : Type} {x : Traced α} {f : α → Traced β},
    always x → (∀ a, always (f a)) → always (x >>= f)
  whileHolding : ∀ {α : Type} (values : List Value) {x : Traced α},
    always x → always (Traced.whileHolding values x)
  read : ∀ {α : Type} (f : Store → α), always (ofAction (perform fun store => (f store, store)))
  pull : ∀ stream, always (ofAction (perform (Store.pull stream)))
  diverge : ∀ {α : Type}, always (ofAction (Action.diverge : Action α))
  drop : ∀ values, always (Traced.drop values)
  arithmetic : ∀ left operator right,
    always (Traced.arithmetic evaluator left operator right)
  /-- What holds wherever a part runs, holds where it is allowed. -/
  relax : ∀ {α : Type} {x : Traced α}, always x → allowed x
  /-- What starts the application of a node asks the context. -/
  start : ∀ {α : Type} {f : Unit → Traced α},
    allowed (f ()) → always (Traced.start evaluator >>= f)
  /-- Resolving a value asks the context again after anything that can make it refuse. -/
  resolve : ∀ {α : Type} (value : Value) {f : Value → Traced α},
    (∀ target, allowed (f target)) → allowed (Traced.resolve evaluator value >>= f)
  iterateAll : ∀ input, allowed (Traced.iterateAll evaluator input)
  length : ∀ input, allowed (Traced.length evaluator input)
  selectIndex : ∀ position input, allowed (Traced.selectIndex evaluator position input)
  selectRange : ∀ range input, allowed (Traced.selectRange evaluator range input)
  selectEntry : ∀ name target, allowed (Traced.selectEntry evaluator name target)

namespace Pervades

/-- The property holds of handing down into the elements of a stream. -/
theorem spreadWithin (h : Pervades evaluator always allowed) {f : Value → Traced Value}
    (hf : ∀ value, always (f value)) (stream : Handle .stream) (limit : Nat)
    (values : List Value) : always (Traced.spreadWithin stream f limit values) := by
  induction limit generalizing values with
  | zero => exact h.pure _
  | succ limit ih =>
    refine h.bind (h.pull stream) fun element => ?_
    cases element with
    | none => exact h.pure _
    | some element => exact h.bind (h.whileHolding _ (hf element)) fun value => ih (value :: values)

/-- The property holds of handing down into a stream. -/
theorem spread (h : Pervades evaluator always allowed) {f : Value → Traced Value}
    (hf : ∀ value, always (f value)) (stream : Handle .stream) :
    always (Traced.spread stream f) :=
  h.bind (h.read _) fun limit => h.spreadWithin hf stream limit []

/-- The property holds of handing down into streams what runs only once the context has allowed
it. -/
theorem fanOut (h : Pervades evaluator always allowed) {f : Value → Traced Value}
    (hf : ∀ value, allowed (f value)) (depth : Nat) (input : Value) :
    always (Traced.fanOut evaluator f depth input) := by
  induction depth generalizing input with
  | zero =>
    refine h.start ?_
    cases input with
    | stream stream => exact h.relax h.diverge
    | _ => exact hf _
  | succ depth ih =>
    refine h.start ?_
    cases input with
    | stream stream => exact h.relax (h.spread ih stream)
    | _ => exact hf _

/-- The property holds of handing down as deep as streams go. -/
theorem pointwise (h : Pervades evaluator always allowed) {f : Value → Traced Value}
    (hf : ∀ value, allowed (f value)) (input : Value) :
    always (Traced.pointwise evaluator f input) :=
  h.bind (h.read _) fun depth => h.fanOut hf depth input

mutual

/-- The property holds of handing down into sequences what runs only once the context has allowed
it. -/
theorem broadcast (h : Pervades evaluator always allowed) {f : Value → Traced Value}
    (hf : ∀ value, allowed (f value)) (input : Value) :
    always (Traced.broadcast evaluator f input) := by
  match input with
  | .sequence items =>
    exact h.start (h.relax (h.bind (broadcastItems h hf items []) fun values => h.pure _))
  | .null | .bool _ | .int _ | .float _ | .byte _ | .bytes _ | .text _ | .mapping _ | .dict _
  | .link _ | .map _ | .array _ | .iterator _ | .byteStream _ | .stream _ =>
    exact h.start (hf _)
termination_by structural input

/-- The property holds of the items one after the other. -/
theorem broadcastItems (h : Pervades evaluator always allowed) {f : Value → Traced Value}
    (hf : ∀ value, allowed (f value)) (items values : List Value) :
    always (Traced.broadcastItems evaluator f items values) := by
  match items with
  | [] => exact h.pure _
  | item :: rest =>
    exact h.bind (h.whileHolding _ (broadcast h hf item)) fun value =>
      broadcastItems h hf rest (value :: values)
termination_by structural items

end

/-- The property holds of collecting items. -/
theorem collect (h : Pervades evaluator always allowed) {f : Value → Traced Value}
    (hf : ∀ value, always (f value)) (items values : List Value) :
    always (Traced.collect f items values) := by
  induction items generalizing values with
  | nil => exact h.pure _
  | cons item rest ih =>
    exact h.bind (h.whileHolding _ (hf item)) fun value => ih (value :: values)

/-- The property holds of selecting a key, by induction on how deep it is handed down. -/
theorem selectKeyWithin (h : Pervades evaluator always allowed) (name : String) (depth : Nat)
    (input : Value) : always (Traced.selectKeyWithin evaluator name depth input) := by
  induction depth generalizing input with
  | zero =>
    refine h.broadcast (fun input => ?_) input
    cases input with
    | stream stream => exact h.relax h.diverge
    | _ =>
      refine h.resolve _ fun target => ?_
      cases target with
      | sequence items => exact h.relax h.diverge
      | _ => exact h.selectEntry name _
  | succ depth ih =>
    refine h.broadcast (fun input => ?_) input
    cases input with
    | stream stream => exact h.relax (h.spread ih stream)
    | _ =>
      refine h.resolve _ fun target => ?_
      cases target with
      | sequence items =>
        exact h.relax (h.bind (h.collect ih items []) fun values => h.pure _)
      | _ => exact h.selectEntry name _

/-- The property holds of selecting a key. -/
theorem selectKey (h : Pervades evaluator always allowed) (name : String) (input : Value) :
    always (Traced.selectKey evaluator name input) :=
  h.bind (h.read _) fun depth => h.selectKeyWithin name depth input

/-- The property holds of a literal. -/
theorem literal (h : Pervades evaluator always allowed) (value input : Value) :
    always (Traced.literal value input) :=
  h.bind (h.drop _) fun _ => h.pure value

/-- The property holds of dropping an input that no part looks at. -/
theorem dropUnused {β : Type} (h : Pervades evaluator always allowed) (parts : List β)
    (input : Value) : always (Traced.dropUnused parts input) := by
  unfold Traced.dropUnused
  split
  · exact h.drop _
  · exact h.pure ()

mutual

/-- What pervades evaluation holds of the application of every node. -/
theorem apply (h : Pervades evaluator always allowed) (node : Node) (input : Value) :
    always (Traced.apply evaluator node input) := by
  match node with
  | .identity => exact h.start (h.relax (h.pure input))
  | .chain steps => exact h.start (h.relax (thread h steps input))
  | .pipeline stages => exact h.start (h.relax (thread h stages input))
  | .iterate => exact h.start (h.iterateAll input)
  | .text s => exact h.pointwise (fun input => h.relax (h.literal _ input)) input
  | .number x => exact h.pointwise (fun input => h.relax (h.literal _ input)) input
  | .length => exact h.pointwise h.length input
  | .key name => exact h.selectKey name input
  | .index position => exact h.pointwise (h.selectIndex position) input
  | .range bounds => exact h.pointwise (h.selectRange bounds) input
  | .binary left operator right =>
    refine h.pointwise (fun input => h.relax ?_) input
    refine h.bind (apply h left input) fun a => ?_
    refine h.bind (h.whileHolding _ (apply h right input)) fun b => ?_
    exact h.whileHolding _ (h.arithmetic a operator b)
  | .array items =>
    refine h.pointwise (fun input => h.relax ?_) input
    refine h.bind (h.dropUnused items input) fun _ => ?_
    exact h.bind (applyAll h items input []) fun values => h.pure _
  | .object entries =>
    refine h.pointwise (fun input => h.relax ?_) input
    refine h.bind (h.dropUnused entries input) fun _ => ?_
    refine h.bind (applyEntries h entries input []) fun entries => ?_
    exact h.bind (h.drop _) fun _ => h.pure _
termination_by structural node

/-- The property holds of stages one after the other. -/
theorem thread (h : Pervades evaluator always allowed) (nodes : List Node) (input : Value) :
    always (Traced.thread evaluator nodes input) := by
  match nodes with
  | [] => exact h.pure input
  | node :: rest => exact h.bind (apply h node input) fun value => thread h rest value
termination_by structural nodes

/-- The property holds of the parts of an array. -/
theorem applyAll (h : Pervades evaluator always allowed) (nodes : List Node) (input : Value)
    (values : List Value) : always (Traced.applyAll evaluator nodes input values) := by
  match nodes with
  | [] => exact h.pure _
  | node :: rest =>
    exact h.bind (h.whileHolding _ (apply h node input)) fun value =>
      applyAll h rest input (value :: values)
termination_by structural nodes

/-- The property holds of the parts of an object. -/
theorem applyEntries (h : Pervades evaluator always allowed) (entries : List (String × Node))
    (input : Value) (values : List (String × Value)) :
    always (Traced.applyEntries evaluator entries input values) := by
  match entries with
  | [] => exact h.pure _
  | (key, node) :: rest =>
    exact h.bind (h.whileHolding _ (apply h node input)) fun value =>
      applyEntries h rest input ((key, value) :: values)
termination_by structural entries

end

end Pervades

section Composes

variable {holds : ∀ {α : Type}, Action α → Prop} (hcomposes : Composes evaluator holds)
  (pure : ∀ {α : Type} (a : α), always (Pure.pure a : Traced α))
  (throw : ∀ {α : Type} (failure : EvalError × List Value),
    always (MonadExcept.throw failure : Traced α))
  (bind : ∀ {α β : Type} {x : Traced α} {f : α → Traced β},
    always x → (∀ a, always (f a)) → always (x >>= f))
  (whileHolding : ∀ {α : Type} (values : List Value) {x : Traced α},
    always x → always (Traced.whileHolding values x))
  (ofAction : ∀ {α : Type} {action : Action α}, holds action → always (Traced.ofAction action))
  (drop : ∀ values, always (Traced.drop values))
  (start : always (Traced.start evaluator))
  (resolveLink : ∀ link, always (Traced.resolveLink evaluator link))

include hcomposes in
/-- A property of quiet actions holds of taking the elements of a value. -/
theorem holds_elementsOf (target : Value) : holds (elementsOf target) := by
  cases target with
  | iterator => exact hcomposes.pure _
  | array => exact hcomposes.bind (hcomposes.iterateArray _) fun _ => hcomposes.pure _
  | _ => exact hcomposes.newStream _ _

include hcomposes bind ofAction resolveLink in
/-- Resolving does what dereferencing does, and nothing else is noted. -/
theorem always_resolve (value : Value) : always (resolve evaluator value) := by
  unfold resolve
  induction maxLinkDepth generalizing value with
  | zero => exact ofAction (hcomposes.follow 0 value)
  | succ links ih =>
    cases value with
    | link link => exact bind (resolveLink link) ih
    | _ => exact ofAction (hcomposes.follow (links + 1) _)

include hcomposes pure throw bind whileHolding ofAction drop start resolveLink in
/-- What holds of every action on one input, of the three kinds of notes and of computations put
together, pervades evaluation. -/
theorem pervades_of_composes : Pervades evaluator always always := by
  have hresolve := always_resolve hcomposes bind ofAction resolveLink
  refine ⟨pure, bind, whileHolding, fun f => ofAction (hcomposes.read f), fun stream => ?pull,
    ofAction hcomposes.diverge, drop, fun left operator right => ?arithmetic, id,
    bind start ∘ fun h _ => h, fun value f hf => bind (hresolve value) hf, fun input => ?iterateAll,
    fun input => ?length, fun position input => ?selectIndex, fun range input => ?selectRange,
    fun name target => ?selectEntry⟩
  case pull => exact ofAction (hcomposes.perform fun store => Store.quiet_pull store stream)
  case arithmetic =>
    refine bind (hresolve left) fun left => ?_
    refine bind (whileHolding _ (hresolve right)) fun right => ?_
    split
    · exact pure _
    · exact throw _
  case iterateAll =>
    cases input with
    | stream stream => exact ofAction (hcomposes.newStream _ _)
    | _ => exact bind (hresolve _) fun target => ofAction (holds_elementsOf hcomposes target)
  case length =>
    refine bind (hresolve input) fun target => bind (drop _) fun _ => ?_
    exact ofAction (hcomposes.length target)
  case selectIndex =>
    refine bind (hresolve input) fun target => bind (drop _) fun _ => ?_
    exact ofAction (hcomposes.selectIndex position target)
  case selectRange =>
    unfold selectRange
    split
    · exact pure _
    · refine bind (hresolve input) fun target => bind (drop _) fun _ => ?_
      exact ofAction (hcomposes.selectRange range target)
  case selectEntry => exact bind (drop _) fun _ => ofAction (hcomposes.selectEntry name target)

end Composes

/-- Whether a relation holds between the store and trace before a computation and those after it,
however it ends. -/
def Relates (R : Store × List Note → Store × List Note → Prop) {α : Type} (x : Traced α) : Prop :=
  ∀ ⦃state result after⦄, x.run state = some (result, after) → R state after

section Relates

variable {R : Store × List Note → Store × List Note → Prop} {α β : Type}

/-- Doing nothing relates a store to itself. -/
theorem Relates.pure (hrefl : ∀ state, R state state) (a : α) :
    Relates R (Pure.pure a : Traced α) := by
  rintro state result after h
  cases h
  exact hrefl state

/-- An error by itself leaves the store and the trace as they are. -/
theorem Relates.throw (hrefl : ∀ state, R state state) (failure : EvalError × List Value) :
    Relates R (MonadExcept.throw failure : Traced α) := by
  rintro state result after h
  cases h
  exact hrefl state

/-- A relation that is transitive is kept by parts one after the other. -/
theorem Relates.bind (htrans : ∀ {first second third}, R first second → R second third →
    R first third) {x : Traced α} {f : α → Traced β} (hx : Relates R x)
    (hf : ∀ a, Relates R (f a)) : Relates R (x >>= f) := by
  intro state result after h
  rcases Computation.run_bind_eq_some h with ⟨a, middle, hfirst, hrest⟩ | ⟨error, hfirst, _⟩
  · exact htrans (hx hfirst) (hf a hrest)
  · exact hx hfirst

/-- Holding values changes neither the store nor the trace. -/
theorem Relates.whileHolding (values : List Value) {x : Traced α} (hx : Relates R x) :
    Relates R (Traced.whileHolding values x) := by
  intro state result after h
  obtain ⟨⟨found, middle⟩, hbody, heq⟩ := Option.map_eq_some_iff.mp h
  cases heq
  exact hx hbody

section Run

variable
  (htrans : ∀ {first second third}, R first second → R second third → R first third)
  (hcleanUps : ∀ {store behind} trace, Store.CleanUps store behind →
    R (store, trace) (behind, trace))
  (hfailed : ∀ store trace held, R (store, trace) (store, .failed store held :: trace))
  (happly : ∀ node input, Relates R (Traced.apply evaluator node input))
  {program : Program} {value : Value} {state after : Store × List Note}
  {result : Except Failure Value}

include htrans hcleanUps hfailed happly

/-- What the application of each node relates, and what cleaning up after a failure does, the rest
of a run relates. -/
theorem relates_continueRun
    (h : continueRun evaluator program value state = some (result, after)) : R state after := by
  induction program generalizing value state with
  | nil =>
    cases h
    exact hcleanUps _ (Store.cleanUps_flatten value _)
  | cons node rest ih =>
    simp only [continueRun] at h
    rcases hnode : (Traced.apply evaluator node value).run state with
      _ | ⟨⟨error, held⟩ | next, store, trace⟩ <;> rw [hnode] at h
    · cases h
    · cases h
      have hflattened := (Store.cleanUps_releaseAll held store).trans
        (Store.cleanUps_flatten value _)
      refine htrans (happly node value hnode)
        (htrans (hfailed store trace (held ++ [value])) (hcleanUps _ ?_))
      exact hflattened.trans (Store.cleanUps_release _ _)
    · exact htrans (happly node value hnode) (ih h)

/-- What the application of each node relates, and what cleaning up after a failure does, a run
relates. -/
theorem relates_runProgram
    (h : runProgram evaluator program value state = some (result, after)) : R state after := by
  have hcontinue := @relates_continueRun evaluator R htrans hcleanUps hfailed happly
  cases program with
  | nil => exact hcontinue h
  | cons node rest =>
    simp only [runProgram] at h
    rcases hnode : (Traced.apply evaluator node value).run state with
      _ | ⟨⟨error, held⟩ | next, store, trace⟩ <;> rw [hnode] at h
    · cases h
    · cases h
      have hcleaned := (Store.cleanUps_releaseAll held store).trans
        (Store.cleanUps_closeHandle value _)
      exact htrans (happly node value hnode)
        (htrans (hfailed store trace (held ++ handleOf value)) (hcleanUps _ hcleaned))
    · exact htrans (happly node value hnode) (hcontinue h)

end Run

end Relates

/-- Whether a computation changes the store by steps, whatever it notes. -/
abbrev IsStepwise {α : Type} (x : Traced α) : Prop :=
  Relates (fun state after => Store.Steps state.1 after.1) x

/-- The application of a node changes the store by steps. -/
theorem stepwise_apply (node : Node) (input : Value) : IsStepwise (apply evaluator node input) := by
  have hofAction {α : Type} {action : Action α} (h : Stepwise action) :
      IsStepwise (ofAction action) := fun _ _ _ hrun => h (run_ofAction_eq_some hrun).1
  have hnote (f : Store → Note) : IsStepwise (note f) := by
    rintro state result after hrun
    cases hrun
    exact .refl
  have hbind {α β : Type} {x : Traced α} {f : α → Traced β} (hx : IsStepwise x)
      (hf : ∀ a, IsStepwise (f a)) : IsStepwise (x >>= f) :=
    Relates.bind (fun hfirst hnext => hfirst.trans hnext) hx hf
  have hresolveLink (link : Handle .link) : IsStepwise (resolveLink evaluator link) :=
    hbind (hofAction (.read _)) fun before =>
      hbind (hofAction (Evaluator.stepwise_resolveLink evaluator link)) fun value =>
        hbind (hnote _) fun _ => .pure (fun _ => .refl) value
  have hpervades : Pervades evaluator IsStepwise IsStepwise := pervades_of_composes
    evaluator.composes_stepwise (.pure fun _ => .refl) (.throw fun _ => .refl) hbind .whileHolding
    hofAction (fun values => hnote _)
    (hbind (hnote _) fun _ => hofAction (Evaluator.stepwise_check evaluator)) hresolveLink
  exact hpervades.apply node input

/-- A run changes the store by steps. -/
theorem steps_of_runProgram {program : Program} {input : Value} {state after : Store × List Note}
    {result : Except Failure Value}
    (h : runProgram evaluator program input state = some (result, after)) :
    Store.Steps state.1 after.1 :=
  relates_runProgram (R := fun state after => Store.Steps state.1 after.1)
    (fun hfirst hnext => hfirst.trans hnext)
    (fun _ hcleaned => (Store.Quiet.of_cleanUps hcleaned).steps)
    (fun _ _ _ => .refl) stepwise_apply h

end Traced

/-- The application of a node changes the store by steps, however it ends. -/
theorem Evaluator.stepwise_apply (evaluator : Evaluator) (node : Node) (input : Value) :
    Stepwise (evaluator.apply node input) := by
  intro store result after h
  have htraces : Traced.Traces (.apply evaluator node input) (evaluator.apply node input) :=
    Traced.traces_apply node input
  cases result with
  | ok value =>
    obtain ⟨notes, hrun⟩ := htraces.exists_run_eq_ok [] h
    exact Traced.stepwise_apply node input hrun
  | error error =>
    obtain ⟨held, atFailure, notes, hrun, rfl⟩ := htraces.exists_run_eq_error [] h
    exact (Traced.stepwise_apply node input hrun).trans
      (Store.releases_releaseAll held atFailure).steps

end Sluice
