import Sluice.Proofs.Eval.Deepening
import Sluice.Proofs.Eval.Distributing
import Sluice.Proofs.Eval.FailedRuns
import Sluice.Proofs.Store.Keeping

/-!
# Failed constructions

An array, an object, an operator, a key over a sequence and any node over a stream put their result
together from the values of several sub-evaluations. When the application fails, it holds what it
has produced until then (`Produced`), so whatever that reaches at the failure is closed in the end
(`closed_of_failed_construction`).
-/

namespace Sluice

open Sluice.Action Sluice.Filter Sluice.Store

section Produced

variable (evaluator : Evaluator)

/-- Several nodes evaluated one after another, each on an input of its own: their values, and the
stores before and after. -/
inductive Evaluated : List (Node × Value) → Store → List Value → Store → Prop
  | nil (store : Store) : Evaluated [] store [] store
  | cons {node : Node} {input value : Value} {parts : List (Node × Value)} {values : List Value}
      {store middle after : Store} :
      (evaluator.apply node input).run store = some (.ok value, middle) →
      Evaluated parts middle values after →
      Evaluated ((node, input) :: parts) store (value :: values) after

/-- A node evaluated on elements that are pulled from a stream: the values, and the stores before
and after. -/
inductive Pulled (node : Node) (stream : Handle .stream) : Store → List Value → Store → Prop
  | nil (store : Store) : Pulled node stream store [] store
  | cons {element value : Value} {values : List Value} {store pulled middle after : Store} :
      store.pull stream = (some element, pulled) →
      (evaluator.apply node element).run pulled = some (.ok value, middle) →
      Pulled node stream middle values after →
      Pulled node stream store (value :: values) after

/-- What a node evaluates, in this order, for an input that is no stream, and the store in which it
begins to. -/
inductive Parts : Node → Value → Store → List (Node × Value) → Store → Prop
  | array {input : Value} (items : List Node) (store : Store) :
      (∀ stream, input ≠ .stream stream) →
      Parts (.array items) input store (items.map fun item => (item, input)) store
  | object {input : Value} (entries : List (String × Node)) (store : Store) :
      (∀ stream, input ≠ .stream stream) →
      Parts (.object entries) input store (entries.map fun entry => (entry.2, input)) store
  | binary {input : Value} (left : Node) (operator : Operator) (right : Node) (store : Store) :
      (∀ stream, input ≠ .stream stream) →
      Parts (.binary left operator right) input store [(left, input), (right, input)] store
  | key {input : Value} {items : List Value} {store first : Store} (name : String) :
      (evaluator.resolve input).run store = some (.ok (.sequence items), first) →
      Parts (.key name) input store (items.map fun item => (.key name, item)) first

/-- Whether the application of a node to an input fails. -/
def Fails (node : Node) (input : Value) (store : Store) : Prop :=
  ∃ error after, (evaluator.apply node input).run store = some (.error error, after)

/-- What the application of a node to an input, which the context allows, can have produced at some
moment: the values of the sub-evaluations that it has completed, what its operands have been
resolved to, and what the sub-evaluation has produced with which it fails. -/
inductive Produced : Node → Value → Store → List Value → Prop
  /-- Some of the parts are completed. -/
  | parts {node : Node} {input : Value} {done rest : List (Node × Value)} {values : List Value}
      {store first middle : Store} :
      evaluator.context.check store = .ok () →
      Parts evaluator node input store (done ++ rest) first →
      Evaluated evaluator done first values middle →
      Produced node input store values
  /-- The part after those fails. -/
  | inPart {node inner : Node} {input other : Value} {done rest : List (Node × Value)}
      {values more : List Value} {store first middle : Store} :
      evaluator.context.check store = .ok () →
      Parts evaluator node input store (done ++ (inner, other) :: rest) first →
      Evaluated evaluator done first values middle →
      Fails evaluator inner other middle →
      Produced inner other middle more →
      Produced node input store (values ++ more)
  /-- The left operand has been resolved. -/
  | left {left right : Node} {operator : Operator} {input a b target : Value}
      {store middle after : Store} :
      evaluator.context.check store = .ok () →
      (∀ stream, input ≠ .stream stream) →
      Evaluated evaluator [(left, input), (right, input)] store [a, b] middle →
      (evaluator.resolve a).run middle = some (.ok target, after) →
      Produced (.binary left operator right) input store [a, b, target]
  /-- Both operands have been resolved. -/
  | right {left right : Node} {operator : Operator} {input a b target other : Value}
      {store middle next after : Store} :
      evaluator.context.check store = .ok () →
      (∀ stream, input ≠ .stream stream) →
      Evaluated evaluator [(left, input), (right, input)] store [a, b] middle →
      (evaluator.resolve a).run middle = some (.ok target, next) →
      (evaluator.resolve b).run next = some (.ok other, after) →
      Produced (.binary left operator right) input store [a, b, target, other]
  /-- The node is completed on some elements of a stream. -/
  | elements {node : Node} {stream : Handle .stream} {values : List Value} {store middle : Store} :
      evaluator.context.check store = .ok () → node.fansOut = true →
      Pulled evaluator node stream store values middle →
      Produced node (.stream stream) store values
  /-- It fails on the element after those. -/
  | inElement {node : Node} {stream : Handle .stream} {element : Value} {values more : List Value}
      {store middle pulled : Store} :
      evaluator.context.check store = .ok () → node.fansOut = true →
      Pulled evaluator node stream store values middle →
      middle.pull stream = (some element, pulled) →
      Fails evaluator node element pulled →
      Produced node element pulled more →
      Produced node (.stream stream) store (values ++ more)
  /-- A step of a chain fails, or a stage in parentheses. -/
  | inStep {node inner : Node} {done rest : List Node} {input value : Value} {values : List Value}
      {store middle : Store} :
      node = .chain (done ++ inner :: rest) ∨ node = .pipeline (done ++ inner :: rest) →
      evaluator.context.check store = .ok () →
      (evaluator.thread done input).run store = some (.ok value, middle) →
      Fails evaluator inner value middle →
      Produced inner value middle values →
      Produced node input store values

end Produced

namespace Traced

variable {α β : Type} {evaluator : Evaluator}

/-- Holding nothing changes nothing. -/
theorem whileHolding_nil (body : Traced α) : whileHolding [] body = body := by
  refine Computation.ext fun state => ?_
  simp only [whileHolding, ExceptT.run_mk, List.append_nil]
  rcases body.run state with _ | ⟨_ | _, _⟩ <;> rfl

section Held

variable {bodies : List (Traced Value)} {before : List Value} {state after : Store × List Note}
  {error : EvalError} {held : List Value} {value : Value}

/-- What is held meanwhile is held at a failure. -/
theorem mem_held_of_run_whileHolding {values : List Value} {body : Traced α}
    (h : (whileHolding values body).run state = some (.error (error, held), after))
    (hvalue : value ∈ values) : value ∈ held := by
  obtain ⟨inner, _, rfl⟩ := run_whileHolding_eq_error h
  exact List.mem_append_right inner hvalue

/-- Results that there are already are among the results in the end. -/
theorem mem_of_run_inTurn {results : List Value}
    (h : (inTurn bodies before).run state = some (.ok results, after)) (hvalue : value ∈ before) :
    value ∈ results := by
  induction bodies generalizing before state with
  | nil =>
    cases h
    exact List.mem_reverse.mpr hvalue
  | cons body rest ih =>
    obtain ⟨_, _, _, hrest⟩ := Computation.run_bind_eq_ok h
    exact ih hrest (List.mem_cons_of_mem _ hvalue)

/-- Results that there are already are held at a failure. -/
theorem mem_held_of_run_inTurn
    (h : (inTurn bodies before).run state = some (.error (error, held), after))
    (hvalue : value ∈ before) : value ∈ held := by
  induction bodies generalizing before state with
  | nil => cases h
  | cons body rest ih =>
    rcases Computation.run_bind_eq_some h with ⟨_, _, _, hrest⟩ | ⟨_, hfirst, heq⟩
    · exact ih hrest (List.mem_cons_of_mem _ hvalue)
    · cases heq
      exact mem_held_of_run_whileHolding hfirst (List.mem_reverse.mpr hvalue)

/-- Results for elements that have been pulled already are held at a failure. -/
theorem mem_held_of_run_spreadWithin {stream : Handle .stream} {f : Value → Traced Value}
    {limit : Nat}
    (h : (spreadWithin stream f limit before).run state = some (.error (error, held), after))
    (hvalue : value ∈ before) : value ∈ held := by
  induction limit generalizing before state with
  | zero => cases h
  | succ limit ih =>
    rcases Computation.run_bind_eq_some h with ⟨element, middle, _, hrest⟩ | ⟨_, hpull, _⟩
    · cases element with
      | none => cases hrest
      | some element =>
        rcases Computation.run_bind_eq_some hrest with ⟨_, _, _, hlast⟩ | ⟨_, hfirst, heq⟩
        · exact ih hlast (List.mem_cons_of_mem _ hvalue)
        · cases heq
          exact mem_held_of_run_whileHolding hfirst (List.mem_reverse.mpr hvalue)
    · cases hpull

end Held

section Resume

variable {store middle : Store}

/-- An application that fails does so with any trace before it. -/
theorem exists_run_of_fails {node : Node} {input : Value} (h : Fails evaluator node input store)
    (trace : List Note) :
    ∃ error held after, (apply evaluator node input).run (store, trace) =
      some (.error (error, held), after) := by
  obtain ⟨error, _, hrun⟩ := h
  obtain ⟨held, atFailure, notes, hheld, _⟩ :=
    (traces_apply node input).exists_run_eq_error trace hrun
  exact ⟨error, held, (atFailure, notes), hheld⟩

/-- A computation that ends does what a computation does that agrees with it. -/
theorem run_eq_of_agrees {x y : Traced α} (h : Agrees x y) {state : Store × List Note}
    {outcome : Except (EvalError × List Value) α × (Store × List Note)}
    (hrun : y.run state = some outcome) (hends : x.run state ≠ none) :
    x.run state = some outcome := by
  obtain ⟨found, hfound⟩ := Option.ne_none_iff_exists'.mp hends
  rw [hfound, h hfound hrun]

/-- Computations in turn end only if the first of them does. -/
theorem run_ne_none_of_inTurn {body : Traced Value} {bodies : List (Traced Value)}
    {before : List Value} {state : Store × List Note}
    (h : (inTurn (body :: bodies) before).run state ≠ none) : body.run state ≠ none :=
  fun hnone => h <| by simp [inTurn, Computation.run_bind, whileHolding, hnone, Computation.next]

/-- Computations that agree with evaluations of which some are completed go on after those, if they
end. -/
theorem exists_run_inTurn_eq {done others : List (Node × Value)} {values : List Value}
    (h : Evaluated evaluator done store values middle) {bodies : List (Traced Value)}
    (hbodies : List.Forall₂ (fun part body => Agrees body (apply evaluator part.1 part.2))
      (done ++ others) bodies) {trace : List Note}
    {before : List Value} (hends : (inTurn bodies before).run (store, trace) ≠ none) :
    ∃ rest notes, List.Forall₂ (fun part body => Agrees body (apply evaluator part.1 part.2))
        others rest ∧
      (inTurn bodies before).run (store, trace) =
        (inTurn rest (values.reverse ++ before)).run (middle, notes) := by
  induction h generalizing bodies before trace with
  | nil => exact ⟨bodies, trace, hbodies, rfl⟩
  | @cons node input value parts values store between after hrun _ ih =>
    cases hbodies with
    | @cons _ body _ bodies hbody hbodies =>
      obtain ⟨noted, hfirst⟩ := (traces_apply node input).exists_run_eq_ok trace hrun
      have hvalue := run_eq_of_agrees hbody hfirst (run_ne_none_of_inTurn hends)
      have hheld : (whileHolding before.reverse body).run (store, trace) =
          some (.ok value, (between, noted)) := by
        simp [whileHolding, hvalue, Except.mapError]
      have hnext : (inTurn (body :: bodies) before).run (store, trace) =
          (inTurn bodies (value :: before)).run (between, noted) :=
        Computation.run_bind_of_ok hheld fun value => inTurn bodies (value :: before)
      rw [hnext] at hends ⊢
      obtain ⟨rest, notes, hothers, hrest⟩ := ih hbodies hends
      refine ⟨rest, notes, hothers, hrest.trans ?_⟩
      rw [List.reverse_cons, List.append_assoc]
      rfl

/-- A stream that an element has been pulled from stays shorter than it was. -/
theorem length_remaining_le_of_pull {stream : Handle .stream} {element : Value}
    {pulled : Store} (hpull : store.pull stream = (some element, pulled))
    (hsteps : Steps pulled middle) :
    (middle.remaining stream).length + 1 ≤ (store.remaining stream).length := by
  obtain ⟨hremaining, _⟩ := pull_some hpull
  have hbound : stream.index < store.streams.size := by
    by_contra hout
    rw [remaining_of_size_le (Nat.le_of_not_lt hout)] at hremaining
    cases hremaining
  have hpulled : pulled = (store.pull stream).2 := by rw [hpull]
  have hindex : stream.index < pulled.streams.size := by rwa [hpulled, size_pull]
  have hsuffix := (remaining_suffix_of_steps hsteps hindex).2
  rw [hremaining]
  exact Nat.succ_le_succ hsuffix.length_le

/-- After an element has been pulled, the loop over a stream goes on with that element. -/
theorem run_spreadWithin_of_pull {stream : Handle .stream} {element : Value} {pulled : Store}
    (hpull : store.pull stream = (some element, pulled)) (f : Value → Traced Value) (limit : Nat)
    (before : List Value) (trace : List Note) :
    (spreadWithin stream f (limit + 1) before).run (store, trace) =
      (whileHolding before.reverse (f element) >>= fun value =>
        spreadWithin stream f limit (value :: before)).run (pulled, trace) := by
  have hpulled : (ofAction (perform (Store.pull stream))).run (store, trace) =
      some (.ok (some element), (pulled, trace)) := by
    simp only [ofAction, ExceptT.run_mk, run_perform, hpull, Option.map_some, Except.mapError]
  rw [spreadWithin, Computation.run_bind_of_ok hpulled]

/-- Computations over elements that agree with evaluations that are completed go on after them, if
they end. -/
theorem exists_run_spreadWithin_eq {node : Node} {stream : Handle .stream} {values : List Value}
    (h : Pulled evaluator node stream store values middle) {f : Value → Traced Value}
    (hf : ∀ value, Agrees (f value) (apply evaluator node value)) {limit : Nat}
    {before : List Value} {trace : List Note} (hlimit : (store.remaining stream).length ≤ limit)
    (hends : (spreadWithin stream f limit before).run (store, trace) ≠ none) :
    ∃ left notes, (middle.remaining stream).length ≤ left ∧
      (spreadWithin stream f limit before).run (store, trace) =
        (spreadWithin stream f left (values.reverse ++ before)).run (middle, notes) := by
  induction h generalizing limit before trace with
  | nil => exact ⟨limit, trace, hlimit, rfl⟩
  | @cons element value values store pulled between after hpull hrun _ ih =>
    have hleft := length_remaining_le_of_pull hpull (evaluator.stepwise_apply node element hrun)
    obtain ⟨limit, rfl⟩ : ∃ left, limit = left + 1 := ⟨limit - 1, by omega⟩
    rw [run_spreadWithin_of_pull hpull] at hends ⊢
    obtain ⟨noted, hfirst⟩ := (traces_apply node element).exists_run_eq_ok trace hrun
    have helement := run_eq_of_agrees (hf element) hfirst fun hnone => hends <| by
      simp [Computation.run_bind, whileHolding, hnone, Computation.next]
    have hheld : (whileHolding before.reverse (f element)).run (pulled, trace) =
        some (.ok value, (between, noted)) := by
      simp [whileHolding, helement, Except.mapError]
    rw [Computation.run_bind_of_ok hheld] at hends ⊢
    obtain ⟨left, notes, hlength, hrest⟩ := ih (by omega) hends
    refine ⟨left, notes, hlength, hrest.trans ?_⟩
    rw [List.reverse_cons, List.append_assoc]
    rfl

end Resume

section Shapes

variable {store : Store} {trace : List Note}

/-- A context that allows it lets the application of a node start. -/
theorem run_start_of_permitted (hpermitted : evaluator.context.check store = .ok ())
    (trace : List Note) :
    (start evaluator).run (store, trace) = some (.ok (), (store, .applied store :: trace)) := by
  have hcheck := Evaluator.run_check_of_ok hpermitted
  simp only [start, note, ofAction, Computation.run_bind, ExceptT.run_mk, Computation.next, hcheck,
    Option.map_some, Except.mapError]

/-- An input that is no stream is handed to the operation, if the context allows it. -/
theorem run_pointwise_of_permitted (hpermitted : evaluator.context.check store = .ok ())
    {f : Value → Traced Value} {input : Value} (hinput : ∀ stream, input ≠ .stream stream) :
    (pointwise evaluator f input).run (store, trace) =
      (f input).run (store, .applied store :: trace) := by
  have hstart := run_start_of_permitted hpermitted trace
  cases input with
  | stream stream => exact absurd rfl (hinput stream)
  | _ => exact Computation.run_bind_of_ok hstart _

/-- Whether or not the input is dropped, the store stays as it is. -/
theorem exists_run_dropUnused (parts : List β) (input : Value) (store : Store)
    (trace : List Note) : ∃ notes, (dropUnused parts input).run (store, trace) =
      some (.ok (), (store, notes)) := by
  unfold dropUnused
  split
  · exact ⟨.dropped [input] :: trace, rfl⟩
  · exact ⟨trace, rfl⟩

/-- A thread over several nodes is a thread over the first of them and then over the others. -/
theorem thread_append (nodes others : List Node) (input : Value) :
    thread evaluator (nodes ++ others) input =
      thread evaluator nodes input >>= thread evaluator others := by
  induction nodes generalizing input with
  | nil => rfl
  | cons node rest ih => simp only [List.cons_append, thread, ih, bind_assoc]

/-- What is made of the values of the operands. -/
def operate (evaluator : Evaluator) (operator : Operator) : List Value → Traced Value
  | [a, b] => whileHolding [a, b] (arithmetic evaluator a operator b)
  | _ => ofAction diverge

/-- An operator evaluates its operands in turn. -/
theorem run_binary (hpermitted : evaluator.context.check store = .ok ()) (left right : Node)
    (operator : Operator) {input : Value} (hinput : ∀ stream, input ≠ .stream stream) :
    (apply evaluator (.binary left operator right) input).run (store, trace) =
      (inTurn [apply evaluator left input, apply evaluator right input] [] >>=
        operate evaluator operator).run (store, .applied store :: trace) := by
  have happly : apply evaluator (.binary left operator right) input =
      pointwise evaluator (fun input => do
        let a ← apply evaluator left input
        let b ← whileHolding [a] (apply evaluator right input)
        whileHolding [a, b] (arithmetic evaluator a operator b)) input := rfl
  rw [happly, run_pointwise_of_permitted hpermitted hinput]
  simp [inTurn, whileHolding_nil, operate]

/-- A key may be carried into a stream or a link at least once. -/
theorem exists_run_key_eq (name : String) (input : Value) (store : Store) (trace : List Note) :
    ∃ depth, (apply evaluator (.key name) input).run (store, trace) =
      (selectKeyWithin evaluator name (depth + 1) input).run (store, trace) := by
  obtain ⟨depth, hdepth⟩ : ∃ depth, (store.links.size + 1) * (store.totalRemaining + 1) +
      evaluator.budget = depth + 1 := Nat.exists_eq_succ_of_ne_zero (by simp)
  exact ⟨depth, hdepth ▸ rfl⟩

/-- A key over what leads to a sequence is asked of each item. -/
theorem exists_run_key (hpermitted : evaluator.context.check store = .ok ())
    (trace : List Note) (name : String)
    {input : Value} {items : List Value} {first : Store}
    (hresolve : (evaluator.resolve input).run store = some (.ok (.sequence items), first)) :
    ∃ depth notes, (apply evaluator (.key name) input).run (store, trace) =
      (inTurn (items.map (selectKeyWithin evaluator name depth)) [] >>= fun values =>
        pure (.sequence values)).run (first, notes) := by
  have hstart := run_start_of_permitted hpermitted trace
  obtain ⟨depth, happly⟩ := exists_run_key_eq name input store trace
  rw [happly]
  cases input with
  | sequence items' =>
    cases hresolve
    refine ⟨depth + 1, .applied store :: trace, (Computation.run_bind_of_ok hstart _).trans ?_⟩
    rw [broadcastItems_eq_inTurn]
    rfl
  | stream stream => cases hresolve
  | _ =>
    obtain ⟨notes, htarget⟩ := (traces_resolve evaluator _).exists_run_eq_ok _ hresolve
    refine ⟨depth, notes, (Computation.run_bind_of_ok hstart _).trans ?_⟩
    refine (Computation.run_bind_of_ok htarget _).trans ?_
    simp only [collect_eq_inTurn]

/-- Whether what is made of several results holds them when it fails. -/
def HoldsResults (finish : List Value → Traced Value) : Prop :=
  ∀ ⦃results state error held after⦄,
    (finish results).run state = some (.error (error, held), after) →
      ∀ value ∈ results, value ∈ held

/-- What is made of results without failing holds them. -/
theorem holdsResults_pure (f : List Value → Value) :
    HoldsResults fun results => pure (f results) := by
  intro results state error held after hfails
  rw [Computation.run_pure] at hfails
  cases hfails

/-- A record that is made of results does not fail. -/
theorem holdsResults_mapping (keys : List String) :
    HoldsResults fun results =>
      drop ((Keyed.overwritten (keys.zip results)).map (·.2)) >>= fun _ =>
        pure (.mapping (Keyed.ofList (keys.zip results))) := by
  intro results state error held after hfails
  rw [Computation.run_bind] at hfails
  cases hfails

/-- Arithmetic holds its operands. -/
theorem holdsResults_operate (operator : Operator) : HoldsResults (operate evaluator operator) := by
  intro results state error held after hfails value hvalue
  match results with
  | [a, b] => exact mem_held_of_run_whileHolding hfails hvalue
  | [] | [_] | _ :: _ :: _ :: _ => cases hfails

/-- The parts of a node are evaluated in turn, and what is made of their values holds them. -/
theorem exists_inTurn_of_parts (hpermitted : evaluator.context.check store = .ok ()) {node : Node}
    {input : Value} {parts : List (Node × Value)} {first : Store}
    (hparts : Parts evaluator node input store parts first) (trace : List Note) :
    ∃ bodies finish notes,
      List.Forall₂ (fun part body => Agrees body (apply evaluator part.1 part.2)) parts bodies ∧
      HoldsResults finish ∧
      (apply evaluator node input).run (store, trace) =
        (inTurn bodies [] >>= finish).run (first, notes) := by
  cases hparts with
  | array items _ hinput =>
    have happly : apply evaluator (.array items) input = pointwise evaluator (fun input => do
        dropUnused items input
        let values ← applyAll evaluator items input []
        pure (.sequence values)) input := rfl
    obtain ⟨notes, hdrop⟩ := exists_run_dropUnused items input store (.applied store :: trace)
    refine ⟨items.map fun item => apply evaluator item input, _, notes, ?_,
      holdsResults_pure .sequence, ?_⟩
    · rw [List.forall₂_map_left_iff, List.forall₂_map_right_iff, List.forall₂_same]
      exact fun item _ => .refl _
    · rw [happly, run_pointwise_of_permitted hpermitted hinput,
        Computation.run_bind_of_ok hdrop, applyAll_eq_inTurn]
  | object entries _ hinput =>
    have happly : apply evaluator (.object entries) input = pointwise evaluator (fun input => do
        dropUnused entries input
        let entries ← applyEntries evaluator entries input []
        drop ((Keyed.overwritten entries).map (·.2))
        pure (.mapping (Keyed.ofList entries))) input := rfl
    obtain ⟨notes, hdrop⟩ := exists_run_dropUnused entries input store (.applied store :: trace)
    refine ⟨entries.map fun entry => apply evaluator entry.2 input, _, notes, ?_,
      holdsResults_mapping (entries.map (·.1)), ?_⟩
    · rw [List.forall₂_map_left_iff, List.forall₂_map_right_iff, List.forall₂_same]
      exact fun entry _ => .refl _
    · rw [happly, run_pointwise_of_permitted hpermitted hinput,
        Computation.run_bind_of_ok hdrop, applyEntries_eq_inTurn]
      simp
  | binary left operator right _ hinput =>
    refine ⟨[apply evaluator left input, apply evaluator right input], operate evaluator operator,
      _, ?_, holdsResults_operate operator, run_binary hpermitted left right operator hinput⟩
    exact .cons (.refl _) (.cons (.refl _) .nil)
  | key name hresolve =>
    obtain ⟨depth, notes, hrun⟩ := exists_run_key hpermitted trace name hresolve
    refine ⟨_, _, notes, ?_, holdsResults_pure .sequence, hrun⟩
    rw [List.forall₂_map_left_iff, List.forall₂_map_right_iff, List.forall₂_same]
    exact fun item _ _ _ _ hitem hother =>
      agrees_selectKeyWithin evaluator name _ _ item hitem hother

/-- A node that maps itself over a stream evaluates itself on the elements. -/
theorem exists_spread_of_fansOut (hpermitted : evaluator.context.check store = .ok ())
    {node : Node} (hnode : node.fansOut = true) (stream : Handle .stream) (trace : List Note) :
    ∃ f, (∀ value, Agrees (f value) (apply evaluator node value)) ∧
      (apply evaluator node (.stream stream)).run (store, trace) =
        (spread stream f).run (store, .applied store :: trace) := by
  have hstart := run_start_of_permitted hpermitted trace
  have hpointwise (operation : Value → Traced Value) :
      ∃ f, (∀ value, Agrees (f value) (pointwise evaluator operation value)) ∧
        (pointwise evaluator operation (.stream stream)).run (store, trace) =
          (spread stream f).run (store, .applied store :: trace) :=
    ⟨fanOut evaluator operation store.streams.size,
      fun value _ _ _ hvalue hother => agrees_fanOut evaluator operation _ _ value hvalue hother,
      Computation.run_bind_of_ok hstart _⟩
  cases node with
  | identity | chain | pipeline | iterate => cases hnode
  | key name =>
    obtain ⟨depth, happly⟩ := exists_run_key_eq name (.stream stream) store trace
    refine ⟨selectKeyWithin evaluator name depth, fun value _ _ _ hvalue hother => ?_, ?_⟩
    · exact agrees_selectKeyWithin evaluator name _ _ value hvalue hother
    · rw [happly]
      exact Computation.run_bind_of_ok hstart _
  | _ => exact hpointwise _

end Shapes

section Failures

variable {node : Node} {input value : Value} {values held : List Value} {error : EvalError}
  {store first middle : Store} {trace : List Note} {after : Store × List Note}

/-- The values of parts that are completed are held when the node fails. -/
theorem mem_held_of_evaluated (hpermitted : evaluator.context.check store = .ok ())
    {done rest : List (Node × Value)}
    (hparts : Parts evaluator node input store (done ++ rest) first)
    (h : Evaluated evaluator done first values middle)
    (hfails : (apply evaluator node input).run (store, trace) = some (.error (error, held), after))
    (hvalue : value ∈ values) : value ∈ held := by
  obtain ⟨bodies, finish, _, hbodies, hfinish, hrun⟩ :=
    exists_inTurn_of_parts hpermitted hparts trace
  rw [hrun] at hfails
  have hbefore : value ∈ values.reverse ++ [] := by simpa using hvalue
  rcases Computation.run_bind_eq_some hfails with
    ⟨results, between, hturn, hmade⟩ | ⟨_, hturn, heq⟩
  · obtain ⟨_, _, _, hresume⟩ := exists_run_inTurn_eq h hbodies (by rw [hturn]; nofun)
    exact hfinish hmade value (mem_of_run_inTurn (hresume.symm.trans hturn) hbefore)
  · cases heq
    obtain ⟨_, _, _, hresume⟩ := exists_run_inTurn_eq h hbodies (by rw [hturn]; nofun)
    exact mem_held_of_run_inTurn (hresume.symm.trans hturn) hbefore

/-- The values of the node on elements that are completed are held when it fails on the stream. -/
theorem mem_held_of_pulled (hpermitted : evaluator.context.check store = .ok ())
    (hnode : node.fansOut = true) {stream : Handle .stream}
    (h : Pulled evaluator node stream store values middle)
    (hfails : (apply evaluator node (.stream stream)).run (store, trace) =
      some (.error (error, held), after))
    (hvalue : value ∈ values) : value ∈ held := by
  obtain ⟨f, hagrees, hrun⟩ := exists_spread_of_fansOut hpermitted hnode stream trace
  have hloop : (spreadWithin stream f (store.remaining stream).length []).run
      (store, .applied store :: trace) = some (.error (error, held), after) :=
    hrun.symm.trans hfails
  obtain ⟨left, _, _, hresume⟩ :=
    exists_run_spreadWithin_eq h hagrees (Nat.le_refl _) (by rw [hloop]; nofun)
  have hbefore : value ∈ values.reverse ++ [] := by simpa using hvalue
  exact mem_held_of_run_spreadWithin (hresume.symm.trans hloop) hbefore

/-- What operands have been resolved to is held when the operator fails. -/
theorem mem_held_of_resolved {a b target : Value} {operator : Operator}
    (hleft : (evaluator.resolve a).run middle = some (.ok target, first))
    (hfails : (arithmetic evaluator a operator b).run (middle, trace) =
      some (.error (error, held), after)) :
    target ∈ held ∧ ∀ ⦃other last⦄, (evaluator.resolve b).run first = some (.ok other, last) →
      other ∈ held := by
  obtain ⟨notes, hfirst⟩ := (traces_resolve evaluator a).exists_run_eq_ok trace hleft
  unfold arithmetic at hfails
  rw [Computation.run_bind_of_ok hfirst] at hfails
  have hother {other : Value} {last : Store}
      (hright : (evaluator.resolve b).run first = some (.ok other, last)) :
      ∃ later, (whileHolding [target] (resolve evaluator b)).run (first, notes) =
        some (.ok other, (last, later)) := by
    obtain ⟨later, hrun⟩ := (traces_resolve evaluator b).exists_run_eq_ok notes hright
    exact ⟨later, by simp [whileHolding, hrun, Except.mapError]⟩
  rcases Computation.run_bind_eq_some hfails with ⟨right, last, hright, hmade⟩ | ⟨_, hright, heq⟩
  · split at hmade
    · rw [Computation.run_pure] at hmade
      cases hmade
    · cases hmade
      refine ⟨by simp, fun other last hresolve => ?_⟩
      obtain ⟨later, hsame⟩ := hother hresolve
      cases hsame.symm.trans hright
      simp
  · cases heq
    refine ⟨mem_held_of_run_whileHolding hright (List.mem_singleton_self target),
      fun other last hresolve => ?_⟩
    obtain ⟨later, hsame⟩ := hother hresolve
    cases hsame.symm.trans hright

/-- After both operands there is only the operation left. -/
theorem exists_failed_arithmetic (hpermitted : evaluator.context.check store = .ok ())
    {left right : Node} {operator : Operator} (hinput : ∀ stream, input ≠ .stream stream)
    {a b : Value} (h : Evaluated evaluator [(left, input), (right, input)] store [a, b] middle)
    (hfails : (apply evaluator (.binary left operator right) input).run (store, trace) =
      some (.error (error, held), after)) :
    ∃ inner notes, (arithmetic evaluator a operator b).run (middle, notes) =
      some (.error (error, inner), after) ∧ held = inner ++ [a, b] := by
  rw [run_binary hpermitted left right operator hinput] at hfails
  have hbodies : List.Forall₂ (fun part body => Agrees body (apply evaluator part.1 part.2))
      ([(left, input), (right, input)] ++ [])
      [apply evaluator left input, apply evaluator right input] :=
    .cons (.refl _) (.cons (.refl _) .nil)
  have hends : (inTurn [apply evaluator left input, apply evaluator right input] []).run
      (store, .applied store :: trace) ≠ none := fun hnone => by
    rw [Computation.run_bind, hnone] at hfails
    cases hfails
  obtain ⟨rest, notes, hnil, hresume⟩ := exists_run_inTurn_eq h hbodies hends
  cases hnil
  have hoperands : (inTurn [apply evaluator left input, apply evaluator right input] []).run
      (store, .applied store :: trace) = some (.ok [a, b], (middle, notes)) := hresume
  rw [Computation.run_bind_of_ok hoperands] at hfails
  obtain ⟨inner, hrun, heq⟩ := run_whileHolding_eq_error hfails
  exact ⟨inner, notes, hrun, heq⟩

/-- A part that fails is what the node fails with, and the values of the parts before are held
besides what the part holds. -/
theorem exists_failed_part (hpermitted : evaluator.context.check store = .ok ())
    {done rest : List (Node × Value)} {inner : Node} {other : Value}
    (hparts : Parts evaluator node input store (done ++ (inner, other) :: rest) first)
    (h : Evaluated evaluator done first values middle) (hinner : Fails evaluator inner other middle)
    (hfails : (apply evaluator node input).run (store, trace) =
      some (.error (error, held), after)) :
    ∃ failed inside notes last, (apply evaluator inner other).run (middle, notes) =
      some (.error (failed, inside), last) ∧ held = inside ++ values := by
  obtain ⟨bodies, finish, _, hbodies, _, hrun⟩ := exists_inTurn_of_parts hpermitted hparts trace
  rw [hrun, Computation.run_bind] at hfails
  have hends : (inTurn bodies []).run (first, _) ≠ none := fun hnone => by
    rw [hnone] at hfails
    cases hfails
  obtain ⟨_, notes, hothers, hresume⟩ := exists_run_inTurn_eq h hbodies hends
  cases hothers with
  | @cons _ body _ bodies hbody _ =>
    rw [hresume] at hends hfails
    obtain ⟨failed, inside, last, hinner⟩ := exists_run_of_fails hinner notes
    have hpart := run_eq_of_agrees hbody hinner (run_ne_none_of_inTurn hends)
    have hheld : (whileHolding (values.reverse ++ []).reverse body).run (middle, notes) =
        some (.error (failed, inside ++ values), last) := by
      simp [whileHolding, hpart, Except.mapError]
    rw [inTurn, Computation.run_bind, hheld] at hfails
    cases hfails
    exact ⟨error, inside, notes, after, hinner, rfl⟩

/-- An element on which the node fails is what it fails with on the stream, and the values for the
elements before are held besides what it holds there. -/
theorem exists_failed_element (hpermitted : evaluator.context.check store = .ok ())
    (hnode : node.fansOut = true) {stream : Handle .stream}
    (h : Pulled evaluator node stream store values middle) {element : Value} {pulled : Store}
    (hpull : middle.pull stream = (some element, pulled))
    (hinner : Fails evaluator node element pulled)
    (hfails : (apply evaluator node (.stream stream)).run (store, trace) =
      some (.error (error, held), after)) :
    ∃ failed inside notes last, (apply evaluator node element).run (pulled, notes) =
      some (.error (failed, inside), last) ∧ held = inside ++ values := by
  obtain ⟨f, hagrees, hrun⟩ := exists_spread_of_fansOut hpermitted hnode stream trace
  have hloop : (spreadWithin stream f (store.remaining stream).length []).run
      (store, .applied store :: trace) = some (.error (error, held), after) :=
    hrun.symm.trans hfails
  obtain ⟨left, notes, hlength, hresume⟩ :=
    exists_run_spreadWithin_eq h hagrees (Nat.le_refl _) (by rw [hloop]; nofun)
  obtain ⟨hremaining, _⟩ := pull_some hpull
  rw [hremaining, List.length_cons] at hlength
  obtain ⟨left, rfl⟩ : ∃ n, left = n + 1 := ⟨left - 1, by omega⟩
  rw [hresume, run_spreadWithin_of_pull hpull, Computation.run_bind] at hloop
  obtain ⟨failed, inside, last, hinner⟩ := exists_run_of_fails hinner notes
  have helement := run_eq_of_agrees (hagrees element) hinner fun hnone => by
    simp [whileHolding, hnone, Computation.next] at hloop
  have hheld : (whileHolding (values.reverse ++ []).reverse (f element)).run (pulled, notes) =
      some (.error (failed, inside ++ values), last) := by
    simp [whileHolding, helement, Except.mapError]
  rw [hheld] at hloop
  cases hloop
  exact ⟨error, inside, notes, after, hinner, rfl⟩

/-- A step that fails is what the chain or the pipeline fails with, and nothing else is held. -/
theorem exists_failed_step (hpermitted : evaluator.context.check store = .ok ())
    {done rest : List Node} {inner : Node}
    (hnode : node = .chain (done ++ inner :: rest) ∨ node = .pipeline (done ++ inner :: rest))
    {last : Value} (hdone : (evaluator.thread done input).run store = some (.ok last, middle))
    (hinner : Fails evaluator inner last middle)
    (hfails : (apply evaluator node input).run (store, trace) =
      some (.error (error, held), after)) :
    ∃ failed notes ended, (apply evaluator inner last).run (middle, notes) =
      some (.error (failed, held), ended) := by
  have hstart : (apply evaluator node input).run (store, trace) =
      (thread evaluator (done ++ inner :: rest) input).run (store, .applied store :: trace) := by
    have hstarted := run_start_of_permitted hpermitted trace
    rcases hnode with rfl | rfl <;> exact Computation.run_bind_of_ok hstarted _
  obtain ⟨notes, hbefore⟩ :=
    (traces_thread done input).exists_run_eq_ok (.applied store :: trace) hdone
  obtain ⟨failed, inside, ended, hinner⟩ := exists_run_of_fails hinner notes
  rw [hstart, thread_append, Computation.run_bind_of_ok hbefore, thread, Computation.run_bind,
    hinner] at hfails
  cases hfails
  exact ⟨error, notes, after, hinner⟩

/-- Whatever an application has produced is held when it fails. -/
theorem mem_held_of_produced (h : Produced evaluator node input store values)
    (hfails : (apply evaluator node input).run (store, trace) = some (.error (error, held), after))
    (hvalue : value ∈ values) : value ∈ held := by
  -- What a failure further inside holds is held outside of it, too.
  induction h generalizing error held after trace with
  | parts hpermitted hparts h => exact mem_held_of_evaluated hpermitted hparts h hfails hvalue
  | inPart hpermitted hparts h hinner _ ih =>
    obtain ⟨failed, inside, notes, last, hinner, rfl⟩ :=
      exists_failed_part hpermitted hparts h hinner hfails
    rcases List.mem_append.mp hvalue with hvalue | hvalue
    · exact List.mem_append_right inside hvalue
    · exact List.mem_append_left _ (ih hinner hvalue)
  | left hpermitted hinput h hleft =>
    obtain ⟨inner, notes, harithmetic, rfl⟩ := exists_failed_arithmetic hpermitted hinput h hfails
    have htarget := (mem_held_of_resolved hleft harithmetic).1
    simp only [List.mem_cons, List.not_mem_nil, or_false] at hvalue
    rcases hvalue with rfl | rfl | rfl
    · simp
    · simp
    · exact List.mem_append_left _ htarget
  | right hpermitted hinput h hleft hright =>
    obtain ⟨inner, notes, harithmetic, rfl⟩ := exists_failed_arithmetic hpermitted hinput h hfails
    obtain ⟨htarget, hother⟩ := mem_held_of_resolved hleft harithmetic
    simp only [List.mem_cons, List.not_mem_nil, or_false] at hvalue
    rcases hvalue with rfl | rfl | rfl | rfl
    · simp
    · simp
    · exact List.mem_append_left _ htarget
    · exact List.mem_append_left _ (hother hright)
  | elements hpermitted hnode h => exact mem_held_of_pulled hpermitted hnode h hfails hvalue
  | inElement hpermitted hnode h hpull hinner _ ih =>
    obtain ⟨failed, inside, notes, last, hinner, rfl⟩ :=
      exists_failed_element hpermitted hnode h hpull hinner hfails
    rcases List.mem_append.mp hvalue with hvalue | hvalue
    · exact List.mem_append_right inside hvalue
    · exact List.mem_append_left _ (ih hinner hvalue)
  | inStep hnode hpermitted hdone hinner _ ih =>
    obtain ⟨failed, notes, ended, hinner⟩ :=
      exists_failed_step hpermitted hnode hdone hinner hfails
    exact ih hinner hvalue

end Failures

end Traced

/-- **A failed construction closes what it has produced.** If the application of a node fails, then
it does so with the error of the evaluation that closes nothing on its way out, and every iterator
and byte stream that can be reached, in the store in which that one fails, from the value of a
sub-evaluation that was completed or from what an operand was resolved to, is closed in the end,
whether or not closing reports failures. -/
theorem closed_of_failed_construction {evaluator : Evaluator} {node : Node} {input : Value}
    {store after : Store} {error : EvalError}
    (h : (evaluator.apply node input).run store = some (.error error, after)) :
    ∃ held atFailure trace, (Traced.apply evaluator node input).run (store, []) =
        some (.error (error, held), (atFailure, trace)) ∧
      ∀ values, Produced evaluator node input store values →
        ∀ source, (∃ value ∈ values, atFailure.Reachable source value) →
          after.isClosed source = true := by
  obtain ⟨held, atFailure, trace, hheld, rfl⟩ :=
    (Traced.traces_apply node input).exists_run_eq_error [] h
  refine ⟨held, atFailure, trace, hheld, fun values hproduced source hreach => ?_⟩
  obtain ⟨value, hvalue, hreach⟩ := hreach
  have hmem := Traced.mem_held_of_produced hproduced hheld hvalue
  exact ((releases_releaseAll held atFailure).closed source).mpr (Or.inr ⟨value, hmem, hreach⟩)

/-- The store with a link to an iterator that cannot be closed without a failure. -/
def Store.ofLinkedIterator : Store where
  links := ⟨#[{ path := "/l", target := some (.iterator ⟨0⟩) }]⟩
  iterators := ⟨#[{
    cursor := .ofValues [.int 1]
    behaviour := { closeFault := some .notPositioned } }]⟩

/-- In `. + 1` the operand is a link to an iterator, which cannot be added. The iterator is closed,
and the error stays what it was although the close fails. -/
theorem closed_of_failed_addition :
    ∃ after, (Evaluator.apply { context := .background } (.binary .identity .add (.number 1))
        (.link ⟨0⟩)).run .ofLinkedIterator =
      some (.error (.unsupportedBinary .iterator .add .float), after) ∧
      after.isClosed (.iterator ⟨0⟩) = true := by
  have hrun : (Evaluator.apply { context := .background } (.binary .identity .add (.number 1))
      (.link ⟨0⟩)).run .ofLinkedIterator =
      some (.error (.unsupportedBinary .iterator .add .float), _) := rfl
  obtain ⟨held, atFailure, trace, _, hclosed⟩ := closed_of_failed_construction hrun
  have hproduced : Produced { context := .background } (.binary .identity .add (.number 1))
      (.link ⟨0⟩) .ofLinkedIterator [.link ⟨0⟩, .float 1, .iterator ⟨0⟩] :=
    .left rfl (by simp) (.cons rfl (.cons rfl (.nil _))) rfl
  exact ⟨_, hrun, hclosed _ hproduced _ ⟨.iterator ⟨0⟩, by simp, .self rfl⟩⟩

end Sluice
