import Sluice.Proofs.Eval.Documents
import Sluice.Proofs.Eval.Exhausted
import Sluice.Proofs.Store.Scope

/-!
# Stages after `.[]`

After `.[]` the input of a stage is a stream. Chains and pipelines hand it on to their first step,
so it is the first step that is applied once per element, and the steps after it are applied to the
sequence of what that gives (`Evaluator.run_iterate_stage`). For keys that is the same as applying
them to each element, because a key is carried into a sequence; for an index it is not.
-/

namespace Sluice

open Sluice.Action Sluice.Filter

namespace Filter

mutual

/-- What a node does, step by step: chains and pipelines are taken apart, and the identity does
nothing. -/
def Node.steps : Node → List Node
  | .chain nodes | .pipeline nodes => allSteps nodes
  | .identity => []
  | node => [node]

/-- What several nodes do one after another, step by step. -/
def allSteps : List Node → List Node
  | [] => []
  | node :: rest => node.steps ++ allSteps rest

end

/-- The step of a node that is applied to each element of a stream. -/
def Node.perElement (node : Node) : Node := node.steps.headD .identity

/-- The steps of a node that are applied to the results of the first. -/
def Node.onResults (node : Node) : List Node := node.steps.tail

/-- Whether a node maps itself over a stream. -/
def Node.fansOut : Node → Bool
  | .identity | .chain _ | .pipeline _ | .iterate => false
  | _ => true

/-- Whether a node makes of a sequence the sequence of what it makes of the items. -/
def Node.distributes : Node → Bool
  | .key _ => true
  | .range bounds => bounds.isAll
  | _ => false

mutual

/-- In the steps of a node nothing is left that hands a stream on, if it does not iterate. -/
theorem Node.of_mem_steps {node step : Node} (hnode : node.iterates = false)
    (h : step ∈ node.steps) : step.fansOut = true ∧ step.iterates = false := by
  match node with
  | .chain nodes | .pipeline nodes =>
    have hnodes : anyIterates nodes = false := hnode
    exact of_mem_allSteps hnodes h
  | .identity => cases h
  | .iterate => cases hnode
  | .text _ | .number _ | .length | .key _ | .index _ | .range _ | .binary _ _ _ | .array _
  | .object _ =>
    obtain rfl := List.mem_singleton.mp h
    exact ⟨rfl, hnode⟩
termination_by structural node

/-- The steps of filters that never iterate fan out and never iterate. -/
theorem of_mem_allSteps {nodes : List Node} {step : Node} (hnodes : anyIterates nodes = false)
    (h : step ∈ allSteps nodes) : step.fansOut = true ∧ step.iterates = false := by
  match nodes with
  | [] => cases h
  | node :: rest =>
    obtain ⟨hnode, hrest⟩ := Bool.or_eq_false_iff.mp hnodes
    rcases List.mem_append.mp h with h | h
    · exact Node.of_mem_steps hnode h
    · exact of_mem_allSteps hrest h
termination_by structural nodes

end

/-- Filters never iterate if none of them does. -/
theorem anyIterates_eq_false_iff {nodes : List Node} :
    anyIterates nodes = false ↔ ∀ node ∈ nodes, node.iterates = false := by
  induction nodes with
  | nil => simp [anyIterates]
  | cons node rest ih => simp [anyIterates, ih]

namespace Node

variable {stage : Node}

/-- A stage without steps is the identity; any other has a first step, which maps itself over a
stream. -/
theorem steps_eq_nil_or_fansOut (hstage : stage.iterates = false) :
    (stage.perElement = .identity ∧ stage.onResults = []) ∨ stage.perElement.fansOut = true := by
  rw [perElement, onResults]
  cases hsteps : stage.steps with
  | nil => exact .inl ⟨rfl, rfl⟩
  | cons step rest => exact .inr (of_mem_steps hstage (by simp [hsteps])).1

/-- A stage that never iterates does not do so on each element. -/
theorem iterates_perElement (hstage : stage.iterates = false) :
    stage.perElement.iterates = false := by
  rw [perElement]
  cases hsteps : stage.steps with
  | nil => rfl
  | cons step rest => exact (of_mem_steps hstage (by simp [hsteps])).2

/-- A stage that never iterates does not do so on the results. -/
theorem anyIterates_onResults (hstage : stage.iterates = false) :
    anyIterates stage.onResults = false :=
  anyIterates_eq_false_iff.mpr fun _ hstep =>
    (of_mem_steps hstage (List.mem_of_mem_tail hstep)).2

end Node

end Filter

namespace Evaluator

variable {evaluator : Evaluator}

section Steps

/-- Asking the background context does nothing. -/
theorem check_eq_pure (hbackground : evaluator.context = .background) :
    evaluator.check = pure () :=
  Computation.ext fun _ => run_check_of_ok (by rw [hbackground]; rfl)

/-- Stages one after the other may be split anywhere. -/
theorem thread_append (nodes others : List Node) (input : Value) :
    thread evaluator (nodes ++ others) input =
      thread evaluator nodes input >>= thread evaluator others := by
  induction nodes generalizing input with
  | nil => rfl
  | cons node rest ih => simp only [List.cons_append, thread, ih, bind_assoc]

mutual

/-- Under the background context a node does what its steps do one after another. -/
theorem apply_eq_thread (hbackground : evaluator.context = .background) (node : Node)
    (input : Value) : evaluator.apply node input = thread evaluator node.steps input := by
  match node with
  | .chain nodes | .pipeline nodes =>
    simp only [apply, check_eq_pure hbackground, pure_bind]
    exact thread_eq_thread_allSteps hbackground nodes input
  | .identity =>
    simp only [apply, check_eq_pure hbackground, pure_bind]
    rfl
  | .iterate | .text _ | .number _ | .length | .key _ | .index _ | .range _ | .binary _ _ _
  | .array _ | .object _ => exact (bind_pure _).symm
termination_by structural node

/-- Stages run as all their steps one after the other. -/
theorem thread_eq_thread_allSteps (hbackground : evaluator.context = .background)
    (nodes : List Node) (input : Value) :
    thread evaluator nodes input = thread evaluator (allSteps nodes) input := by
  match nodes with
  | [] => rfl
  | node :: rest =>
    rw [allSteps, thread_append, ← apply_eq_thread hbackground node input]
    exact bind_congr fun value => thread_eq_thread_allSteps hbackground rest value
termination_by structural nodes

end

end Steps

section Spread

/-- A stream that holds elements gives the first and keeps the rest. -/
theorem exists_pull_of_remaining {stream : Handle .stream} {value : Value} {rest : List Value}
    {store : Store} (h : store.remaining stream = value :: rest) :
    ∃ after, store.pull stream = (some value, after) ∧ after.remaining stream = rest := by
  refine ⟨(store.pull stream).2, ?_, ?_⟩
  · rw [← Prod.eta (store.pull stream), Store.fst_pull, h, List.head?_cons]
  · rw [Store.remaining_pull, h, List.tail_cons]

/-- Applying an action to the elements of a stream takes all of them out, if none of them fails. -/
theorem exists_run_mapEachWithin {stream : Handle .stream} {f : Value → Action Value}
    {xs zs : List Value} (h : List.Forall₂ (fun x z => Gives (f x) z) xs zs) (results : List Value)
    {store : Store} (hremaining : store.remaining stream = xs) :
    ∃ after, (Store.mapEachWithin stream (fun value => (f value).run) xs.length results :
        StateT Store Option _) store = some (.ok (results.reverse ++ zs), after) ∧
      after.remaining stream = [] := by
  induction h generalizing results store with
  | nil =>
    rw [List.append_nil]
    exact ⟨store, rfl, hremaining⟩
  | @cons x z xs zs hx _ ih =>
    obtain ⟨middle, hpull, hrest⟩ := exists_pull_of_remaining hremaining
    obtain ⟨after, hrun, hafter⟩ := ih (z :: results) hrest
    refine ⟨after, ?_, hafter⟩
    rw [List.length_cons, Store.run_mapEachWithin_succ, hpull]
    simp only [Store.mapRest, hx middle, hrun]
    simp

/-- An operation handed down into a stream gives its results for the elements in order, and the
stream has run out then. -/
theorem exists_run_spread {stream : Handle .stream} {f : Value → Action Value}
    {xs zs : List Value} (h : List.Forall₂ (fun x z => Gives (f x) z) xs zs)
    {store : Store} (hremaining : store.remaining stream = xs) :
    ∃ after, (spread stream f).run store = some (.ok (.sequence zs), after) ∧
      after.remaining stream = [] := by
  obtain ⟨after, hrun, hafter⟩ := exists_run_mapEachWithin h [] hremaining
  refine ⟨after, ?_, hafter⟩
  rw [run_spread, Store.run_mapEach, hremaining, hrun]
  rfl

/-- A node that maps itself over a stream does to each document in it what it does to the document
by itself. -/
theorem exists_run_eq_spread (hbackground : evaluator.context = .background) {node : Node}
    (hnode : node.fansOut = true) (stream : Handle .stream) (store : Store) :
    ∃ f, (evaluator.apply node (.stream stream)).run store = (spread stream f).run store ∧
      ∀ value, value.isDocument = true → ∀ store,
        (f value).run store = (evaluator.apply node value).run store := by
  have hpointwise (operation : Value → Action Value) :
      ∃ f, (evaluator.pointwise operation (.stream stream)).run store =
          (spread stream f).run store ∧
        ∀ value, value.isDocument = true → ∀ store,
          (f value).run store = (evaluator.pointwise operation value).run store := by
    refine ⟨evaluator.fanOut operation store.streams.size, ?_, fun value hvalue other => ?_⟩
    · rw [run_pointwise, fanOut, check_eq_pure hbackground, pure_bind]
    · have hstream := Value.ne_stream_of_isDocument hvalue
      rw [run_pointwise_of_ne_stream hstream, fanOut_of_ne_stream _ hstream]
  cases node with
  | identity | chain | pipeline | iterate => cases hnode
  | key name =>
    obtain ⟨depth, hdepth⟩ : ∃ depth, (store.links.size + 1) * (store.totalRemaining + 1) +
        evaluator.budget = depth + 1 :=
      Nat.exists_eq_succ_of_ne_zero (by simp)
    refine ⟨evaluator.selectKeyWithin name depth, ?_, fun value hvalue other => ?_⟩
    · have hkey : evaluator.apply (.key name) = evaluator.selectKey name := rfl
      rw [hkey, run_selectKey, hdepth, selectKeyWithin_stream, check_eq_pure hbackground, pure_bind]
      rfl
    · rw [selectKeyWithin_of_isDocument name depth hvalue]
      exact (run_selectKey_of_isDocument name hvalue other).symm
  | _ => exact hpointwise _

end Spread

section Sequence

variable {items results : List Value}

/-- Collecting gives the results for the items in order. -/
theorem gives_collect {f : Value → Action Value}
    (h : List.Forall₂ (fun item result => Gives (f item) result) items results)
    (values : List Value) :
    Gives (selectKeyWithin.collect f items values) (values.reverse ++ results) := by
  intro store
  induction h generalizing values with
  | nil =>
    rw [List.append_nil]
    rfl
  | @cons item result items results hitem _ ih =>
    have hitem := run_orRelease_of_ok (hitem store) values.reverse
    rw [selectKeyWithin.collect, Computation.run_bind_of_ok hitem, ih (result :: values),
      List.reverse_cons, List.append_assoc]
    rfl

/-- Keys are carried into a sequence, and full ranges leave everything as it is. -/
theorem gives_of_distributes (hbackground : evaluator.context = .background) {node : Node}
    (hnode : node.distributes = true) (hitems : ∀ item ∈ items, item.isDocument = true)
    (h : List.Forall₂ (fun item result => Gives (evaluator.apply node item) result) items results) :
    Gives (evaluator.apply node (.sequence items)) (.sequence results) := by
  have hsequence := Value.isDocument_sequence_iff.mpr hitems
  cases node with
  | key name =>
    have hkey : evaluator.apply (.key name) = evaluator.selectKey name := rfl
    have hwithin : List.Forall₂
        (fun item result => Gives (evaluator.selectKeyWithin name 0 item) result) items results :=
      forall₂_of_mem h fun item hitem result hresult store =>
        (run_selectKey_of_isDocument name (hitems item hitem) store).symm.trans (hresult store)
    intro store
    rw [hkey, run_selectKey_of_isDocument name hsequence, selectKeyWithin_sequence,
      check_eq_pure hbackground, pure_bind,
      Computation.run_bind_of_ok (gives_collect hwithin [] store)]
    rfl
  | range bounds =>
    have hall : bounds.isAll = true := hnode
    have hrange (input : Value) (hinput : input.isDocument = true) :
        Gives (evaluator.apply (.range bounds) input) input := by
      intro store
      have happly : evaluator.apply (.range bounds) =
          evaluator.pointwise (evaluator.selectRange bounds) := rfl
      rw [happly, run_pointwise_of_ne_stream (Value.ne_stream_of_isDocument hinput),
        check_eq_pure hbackground, pure_bind, selectRange, if_pos hall]
      rfl
    have hsame : items = results := by
      rw [← List.forall₂_eq_eq_eq]
      exact forall₂_of_mem h fun item hitem result hresult =>
        (hrange item (hitems item hitem)).unique hresult
    rw [← hsame]
    exact hrange _ hsequence
  | _ => cases hnode

/-- What two actions one after the other make of documents is what the second makes of the results
of the first. -/
theorem exists_forall₂_gives {f g : Value → Action Value}
    (hf : ∀ item ∈ items, Fixed (·.isDocument = true) (f item))
    (h : List.Forall₂ (fun item result => Gives (f item >>= g) result) items results) :
    ∃ between, List.Forall₂ (fun item value => Gives (f item) value) items between ∧
      (∀ value ∈ between, value.isDocument = true) ∧
      List.Forall₂ (fun value result => Gives (g value) result) between results := by
  induction h with
  | nil => exact ⟨[], .nil, List.forall_mem_nil _, .nil⟩
  | cons hitem _ ih =>
    obtain ⟨hfirst, hrest⟩ := List.forall_mem_cons.mp hf
    obtain ⟨value, hvalue, hdocument, hresult⟩ := hfirst.exists_gives_of_bind hitem
    obtain ⟨between, hbetween, hdocuments, hresults⟩ := ih hrest
    exact ⟨value :: between, .cons hvalue hbetween,
      List.forall_mem_cons.mpr ⟨hdocument, hdocuments⟩, .cons hresult hresults⟩

/-- Steps that distribute, one after another, make of a sequence the sequence of what they make of
the items. -/
theorem gives_thread_of_distributes (hbackground : evaluator.context = .background)
    {steps : List Node} (hsteps : ∀ step ∈ steps, step.distributes = true)
    (hiterates : anyIterates steps = false) (hitems : ∀ item ∈ items, item.isDocument = true)
    (h : List.Forall₂ (fun item result => Gives (thread evaluator steps item) result) items
      results) :
    Gives (thread evaluator steps (.sequence items)) (.sequence results) := by
  induction steps generalizing items with
  | nil =>
    have hsame : items = results := by
      rw [← List.forall₂_eq_eq_eq]
      exact h.imp fun item result hresult => Gives.unique (fun _ => rfl) hresult
    rw [← hsame]
    exact fun _ => rfl
  | cons step rest ih =>
    obtain ⟨hstep, hrest⟩ := List.forall_mem_cons.mp hsteps
    obtain ⟨hfirst, hothers⟩ := Bool.or_eq_false_iff.mp hiterates
    have hfixed : ∀ item ∈ items, Fixed (·.isDocument = true) (evaluator.apply step item) :=
      fun item hitem => fixed_apply hbackground step hfirst (hitems item hitem)
    obtain ⟨between, hbetween, hdocuments, hresults⟩ := exists_forall₂_gives hfixed h
    intro store
    have hrun := gives_of_distributes hbackground hstep hitems hbetween store
    rw [thread, Computation.run_bind_of_ok hrun]
    exact ih hrest hothers hdocuments hresults store

end Sequence

section Run

/-- Elements that are flat come out as they are. -/
theorem run_flattenPulled_of_gives {flat : Value → StateM Store Value} {stream : Handle .stream}
    {items : List Value} (hflat : ∀ item ∈ items, ∀ store, (flat item).run store = (item, store))
    {store : Store} (hremaining : store.remaining stream = items) :
    ((flattenPulled flat stream items.length).run store).1 = items := by
  induction items generalizing store with
  | nil => rfl
  | cons item rest ih =>
    obtain ⟨hitem, hrest⟩ := List.forall_mem_cons.mp hflat
    obtain ⟨middle, hpull, hleft⟩ := exists_pull_of_remaining hremaining
    rw [List.length_cons, Store.run_flattenPulled_of_some hpull, hitem middle]
    exact congrArg _ (ih hrest hleft)

/-- A stream of documents flattens to the sequence of them. -/
theorem exists_flatten_stream {stream : Handle .stream} {items : List Value} {store : Store}
    (hremaining : store.remaining stream = items)
    (hitems : ∀ item ∈ items, item.isDocument = true) :
    ∃ after, flatten (.stream stream) store = (.sequence items, after) := by
  have hflatten : flatten (.stream stream) store =
      (flattenWith (flattenStream (store.totalRemaining + 1)) (.stream stream)).run store := rfl
  have hflat (depth : Nat) (item : Value) (hitem : item ∈ items) (store : Store) :
      (flattenWith (flattenStream depth) item).run store = (item, store) := by
    rw [flattenWith_of_isInert (Value.isInert_of_isDocument (hitems item hitem))]
    rfl
  rw [hflatten, run_flattenWith_stream, Store.run_flattenStream_succ, hremaining,
    run_flattenPulled_of_gives (hflat _) hremaining]
  exact ⟨_, rfl⟩

/-- `.[]` makes a new stream of the items of a sequence. -/
theorem run_iterate (hbackground : evaluator.context = .background) (program : Program)
    (items : List Value) (store : Store) :
    evaluator.run (.iterate :: program) (.sequence items) store =
      evaluator.continueRun program (.stream (store.newStream .values items).1)
        (store.newStream .values items).2 := by
  have happly : evaluator.apply .iterate (.sequence items) =
      evaluator.check >>= fun _ => newStream .values items := rfl
  rw [check_eq_pure hbackground, pure_bind] at happly
  simp only [run, happly]
  rfl

/-- Iterating over a sequence first makes a stream of its items. -/
theorem exists_run_iterate (hbackground : evaluator.context = .background) (program : Program)
    (items : List Value) (store : Store) :
    ∃ stream middle, middle.remaining stream = items ∧
      evaluator.run (.iterate :: program) (.sequence items) store =
        evaluator.continueRun program (.stream stream) middle :=
  ⟨_, _, Store.remaining_newStream store .values items rfl,
    run_iterate hbackground program items store⟩

/-- A stage is its first step, and then the others. -/
theorem apply_eq_perElement (hbackground : evaluator.context = .background) (stage : Node)
    (input : Value) :
    evaluator.apply stage input =
      evaluator.apply stage.perElement input >>= thread evaluator stage.onResults := by
  rw [apply_eq_thread hbackground, Node.perElement, Node.onResults]
  cases stage.steps with
  | nil => simp only [List.headD_nil, apply, check_eq_pure hbackground, pure_bind, List.tail_nil]
  | cons step rest => rfl

/-- A value without streams is flat. -/
theorem flatten_of_isInert {value : Value} (h : value.isInert = true) (store : Store) :
    flatten value store = (value, store) := by
  have hflatten : flatten value store =
      flattenWith (flattenStream (store.totalRemaining + 1)) value store := rfl
  rw [hflatten, flattenWith_of_isInert h]
  rfl

/-- A document is flat. -/
theorem flatten_of_isDocument {value : Value} (h : value.isDocument = true) (store : Store) :
    flatten value store = (value, store) :=
  flatten_of_isInert (Value.isInert_of_isDocument h) store

section Stage

variable {stage : Node} {stream : Handle .stream} {xs zs : List Value} {middle : Store}
  {outcome : Except EvalError Value}

/-- A stage without steps leaves the stream to be flattened. -/
theorem exists_continueRun_of_identity (hbackground : evaluator.context = .background)
    (hfirst : stage.perElement = .identity) (hothers : stage.onResults = [])
    (hremaining : middle.remaining stream = xs) (hxs : ∀ x ∈ xs, x.isDocument = true)
    (h : List.Forall₂ (fun x z => Gives (evaluator.apply stage.perElement x) z) xs zs) :
    xs = zs ∧ ∃ after, evaluator.continueRun [stage] (.stream stream) middle =
      some (.ok (.sequence xs), after) := by
  have hidentity (input : Value) : evaluator.apply .identity input = pure input := by
    simp only [apply, check_eq_pure hbackground, pure_bind]
  have happly : evaluator.apply stage (.stream stream) = pure (.stream stream) := by
    rw [apply_eq_perElement hbackground, hfirst, hothers, hidentity]
    rfl
  have hsame : xs = zs := by
    rw [← List.forall₂_eq_eq_eq]
    refine h.imp fun x z hz => Gives.unique (fun store => ?_) hz
    rw [hfirst, hidentity]
    rfl
  obtain ⟨after, hflatten⟩ := exists_flatten_stream hremaining hxs
  refine ⟨hsame, after, ?_⟩
  simp only [continueRun, happly, Computation.run_pure, hflatten]

/-- A stage with steps takes all elements out of the stream with the first of them. -/
theorem exists_continueRun_of_fansOut (hbackground : evaluator.context = .background)
    (hstage : stage.perElement.fansOut = true) (hremaining : middle.remaining stream = xs)
    (hxs : ∀ x ∈ xs, x.isDocument = true)
    (h : List.Forall₂ (fun x z => Gives (evaluator.apply stage.perElement x) z) xs zs)
    (hrest : ∀ store, (thread evaluator stage.onResults (.sequence zs)).run store =
      some (outcome, store))
    (houtcome : ∀ value, outcome = .ok value → value.isDocument = true) :
    ∃ after, evaluator.continueRun [stage] (.stream stream) middle =
      some (outcome.mapError fun error => ⟨error, some (.sequence [])⟩, after) := by
  obtain ⟨f, hspread, hf⟩ := exists_run_eq_spread hbackground hstage stream middle
  have hgives : List.Forall₂ (fun x z => Gives (f x) z) xs zs :=
    forall₂_of_mem h fun x hx z hz store => (hf x (hxs x hx) store).trans (hz store)
  obtain ⟨after, hrun, hdrained⟩ := exists_run_spread hgives hremaining
  have happly : (evaluator.apply stage (.stream stream)).run middle = some (outcome, after) := by
    rw [apply_eq_perElement hbackground, Computation.run_bind_of_ok (hspread.trans hrun), hrest]
  cases outcome with
  | ok value =>
    refine ⟨after, ?_⟩
    simp only [continueRun, happly, flatten_of_isDocument (houtcome value rfl)]
    rfl
  | error error =>
    obtain ⟨last, hflatten⟩ := exists_flatten_stream hdrained (List.forall_mem_nil _)
    refine ⟨last, ?_⟩
    simp only [continueRun, happly, hflatten]
    rfl

end Stage

/-- **The first step of a stage after `.[]` is applied per element, the others to all results.**
Under the background context, if a stage that does not iterate gives `y` for each document `x` of a
sequence, then its first step gives a `z` for each `x`, from which the other steps give `y`, and the
run ends as the other steps end on the sequence of the `z`: with the same result, or with the same
error and an empty output. If the other steps distribute over sequences, that is the sequence of the
`y`. -/
theorem run_iterate_stage (hbackground : evaluator.context = .background) {stage : Node}
    (hstage : stage.iterates = false) {xs ys : List Value}
    (hxs : ∀ x ∈ xs, x.isDocument = true)
    (hys : List.Forall₂ (fun x y => ∃ before after,
      (evaluator.apply stage x).run before = some (.ok y, after)) xs ys)
    (store : Store) :
    ∃ zs outcome after,
      List.Forall₂ (fun x z => Gives (evaluator.apply stage.perElement x) z) xs zs ∧
      List.Forall₂ (fun z y => Gives (thread evaluator stage.onResults z) y) zs ys ∧
      (∀ store, (thread evaluator stage.onResults (.sequence zs)).run store =
        some (outcome, store)) ∧
      evaluator.run [.iterate, stage] (.sequence xs) store =
        some (outcome.mapError fun error => ⟨error, some (.sequence [])⟩, after) ∧
      ((∀ step ∈ stage.onResults, step.distributes = true) → outcome = .ok (.sequence ys)) := by
  have hfirst := Node.iterates_perElement hstage
  have hothers := Node.anyIterates_onResults hstage
  have hfixed (x : Value) (hx : x ∈ xs) :
      Fixed (·.isDocument = true) (evaluator.apply stage.perElement x) :=
    fixed_apply hbackground _ hfirst (hxs x hx)
  have hgives : List.Forall₂ (fun x y => Gives (evaluator.apply stage.perElement x >>=
      thread evaluator stage.onResults) y) xs ys := by
    refine forall₂_of_mem hys fun x hx y hy => ?_
    obtain ⟨before, after, hrun⟩ := hy
    rw [← apply_eq_perElement hbackground]
    exact ((fixed_apply hbackground stage hstage (hxs x hx)).gives_of_run hrun).1
  obtain ⟨zs, hzs, hdocuments, hresults⟩ := exists_forall₂_gives hfixed hgives
  have hsequence := Value.isDocument_sequence_iff.mpr hdocuments
  obtain ⟨outcome, hrest, houtcome⟩ := fixed_thread hbackground _ hothers hsequence
  obtain ⟨stream, middle, hremaining, hrun⟩ := exists_run_iterate hbackground [stage] xs store
  obtain ⟨after, hend⟩ : ∃ after, evaluator.continueRun [stage] (.stream stream) middle =
      some (outcome.mapError fun error => ⟨error, some (.sequence [])⟩, after) := by
    rcases Node.steps_eq_nil_or_fansOut hstage with ⟨hidentity, hnil⟩ | hstep
    · obtain ⟨rfl, hend⟩ :=
        exists_continueRun_of_identity hbackground hidentity hnil hremaining hxs hzs
      obtain rfl : outcome = .ok (.sequence xs) := by
        simpa [hnil, thread] using (hrest {}).symm
      exact hend
    · exact exists_continueRun_of_fansOut hbackground hstep hremaining hxs hzs hrest houtcome
  refine ⟨zs, outcome, after, hzs, hresults, hrest, hrun.trans hend, fun hdistributes => ?_⟩
  have hall := gives_thread_of_distributes hbackground hdistributes hothers hdocuments hresults
  simpa [hrest {}] using hall {}

/-- After `.[]` two keys one after the other are carried to the items of all elements. -/
theorem run_iterate_stage_of_keys :
    let evaluator : Evaluator := { context := .background }
    let element (n : Int64) : Value := .mapping [("a", .mapping [("b", .int n)])]
    ∃ after, evaluator.run [.iterate, .chain [.key "a", .key "b"]]
      (.sequence [element 1, element 2]) {} = some (.ok (.sequence [.int 1, .int 2]), after) := by
  intro evaluator element
  have hxs : ∀ x ∈ [element 1, element 2], x.isDocument = true := by decide
  have hys : List.Forall₂ (fun x y => ∃ before after,
      (evaluator.apply (.chain [.key "a", .key "b"]) x).run before = some (.ok y, after))
      [element 1, element 2] [.int 1, .int 2] :=
    .cons ⟨{}, {}, rfl⟩ (.cons ⟨{}, {}, rfl⟩ .nil)
  obtain ⟨_, outcome, after, _, _, _, hrun, hdistributes⟩ := run_iterate_stage rfl rfl hxs hys {}
  obtain rfl := hdistributes (by decide)
  exact ⟨after, hrun⟩

/-- A chain after `.[]` need not give what it gives for each element: of the elements `{a: [1]}` and
`{a: [2]}` the filter `.a[0]` gives 1 and 2, but `.[] | .a[0]` gives `[1]`, the first of the values
under `a`. -/
theorem not_forall_run_iterate_chain :
    ¬ ∀ (evaluator : Evaluator) (steps : List Node) (stage : Node) (xs ys : List Value)
        (store : Store), evaluator.context = .background →
      (stage = .chain steps ∨ stage = .pipeline steps) → stage.iterates = false →
      (∀ x ∈ xs, x.isDocument = true) →
      List.Forall₂ (fun x y => Gives (evaluator.apply stage x) y) xs ys →
      ∃ after, evaluator.run [.iterate, stage] (.sequence xs) store =
        some (.ok (.sequence ys), after) := by
  intro h
  have hdocuments : ∀ x ∈ [Value.mapping [("a", .sequence [.int 1])],
      .mapping [("a", .sequence [.int 2])]], x.isDocument = true := by decide
  obtain ⟨after, hrun⟩ := h { context := .background } [.key "a", .index 0]
    (.chain [.key "a", .index 0]) _ [.int 1, .int 2] {} rfl (.inl rfl) rfl hdocuments
    (.cons (fun _ => rfl) (.cons (fun _ => rfl) .nil))
  obtain ⟨last, hfound⟩ : ∃ last, Evaluator.run { context := .background }
      [.iterate, .chain [.key "a", .index 0]]
      (.sequence [.mapping [("a", .sequence [.int 1])], .mapping [("a", .sequence [.int 2])]]) {} =
      some (.ok (.sequence [.int 1]), last) := ⟨_, rfl⟩
  rw [hfound] at hrun
  cases hrun

end Run

end Evaluator

end Sluice
