import Sluice.Proofs.Store.Scope

/-!
# What lazy streams deliver

A routine (`Routine`) is whatever the holders of a lazy stream do one after the other: they pull,
map what is left with closures that are routines themselves, close the stream, and do anything else
that leaves its elements alone. Running one notes what the stream hands out and when it is closed.

Whatever the routine, the elements that are handed out are the next ones of the stream, in order, up
to its first close (`Leads`, `delivers_run`). So no element is handed out twice and none is lost
(`delivers_each_once`).
-/

namespace Sluice

namespace Store

/-- A stream with nothing left gives nothing and stays as it is. -/
theorem pull_of_remaining_nil {store : Store} {stream : Handle .stream}
    (h : store.remaining stream = []) : store.pull stream = (none, store) := by
  rw [remaining] at h
  rw [pull, h]

/-- A closed stream has nothing left. -/
theorem remaining_closeStream (store : Store) (stream : Handle .stream) :
    (store.closeStream stream).remaining stream = [] := by
  rw [remaining, closeStream]
  rcases Nat.lt_or_ge stream.index store.streams.size with hlt | hge
  · rw [Table.get_set_self hlt]
  · rw [Table.get_of_size_le (by rwa [Table.size_set])]
    rfl

end Store

namespace LazyStream

/-- Something that the holders of a stream get from it or do to it. -/
inductive Delivery
  | handedOut (value : Value)
  | closed

/-- The elements that were handed out, in order. -/
def handedOut (deliveries : List Delivery) : List Value :=
  deliveries.filterMap fun
    | .handedOut value => some value
    | .closed => none

/-- An element that is handed out first stands first. -/
@[simp] theorem handedOut_cons_handedOut (value : Value) (deliveries : List Delivery) :
    handedOut (.handedOut value :: deliveries) = value :: handedOut deliveries := rfl

/-- What was handed out is read off in order. -/
@[simp] theorem handedOut_append (deliveries later : List Delivery) :
    handedOut (deliveries ++ later) = handedOut deliveries ++ handedOut later :=
  List.filterMap_append

/-- Whether deliveries lead from some elements that are left to others: what is handed out is the
first of them, and a close leaves none. -/
inductive Leads : List Value → List Delivery → List Value → Prop
  | none (elements : List Value) : Leads elements [] elements
  | handedOut {value : Value} {rest left : List Value} {deliveries : List Delivery} :
      Leads rest deliveries left → Leads (value :: rest) (.handedOut value :: deliveries) left
  | closed {elements left : List Value} {deliveries : List Delivery} :
      Leads [] deliveries left → Leads elements (.closed :: deliveries) left

namespace Leads

variable {elements middle left : List Value} {deliveries later : List Delivery}

/-- Deliveries one after the other lead where the second leads to. -/
theorem append (h : Leads elements deliveries middle) (hlater : Leads middle later left) :
    Leads elements (deliveries ++ later) left := by
  induction h with
  | none => exact hlater
  | handedOut _ ih => exact .handedOut (ih hlater)
  | closed _ ih => exact .closed (ih hlater)

/-- Deliveries are those of a first part and of the rest, with what is left in between. -/
theorem exists_of_append (h : Leads elements (deliveries ++ later) left) :
    ∃ middle, Leads elements deliveries middle ∧ Leads middle later left := by
  induction deliveries generalizing elements with
  | nil => exact ⟨elements, .none elements, h⟩
  | cons first deliveries ih =>
    cases h with
    | handedOut h =>
      obtain ⟨middle, hdeliveries, hlater⟩ := ih h
      exact ⟨middle, .handedOut hdeliveries, hlater⟩
    | closed h =>
      obtain ⟨middle, hdeliveries, hlater⟩ := ih h
      exact ⟨middle, .closed hdeliveries, hlater⟩

/-- Deliveries leave no more elements than there were. -/
theorem length_le (h : Leads elements deliveries left) : left.length ≤ elements.length := by
  induction h with
  | none => exact Nat.le_refl _
  | handedOut _ ih => exact Nat.le_succ_of_le ih
  | closed _ ih => exact Nat.le_trans ih (Nat.zero_le _)

/-- What is handed out are the first of the elements. -/
theorem handedOut_prefix (h : Leads elements deliveries left) :
    LazyStream.handedOut deliveries <+: elements := by
  induction h with
  | none elements => exact List.nil_prefix
  | handedOut _ ih => exact List.cons_prefix_cons.mpr ⟨rfl, ih⟩
  | closed _ ih => exact ih.trans List.nil_prefix

/-- As long as the stream is not closed, what is handed out and what is left make up the
elements. -/
theorem handedOut_append_eq (h : Leads elements deliveries left) (hopen : .closed ∉ deliveries) :
    LazyStream.handedOut deliveries ++ left = elements := by
  induction h with
  | none => rfl
  | handedOut _ ih =>
    rw [handedOut_cons_handedOut, List.cons_append, ih fun h => hopen (List.mem_cons_of_mem _ h)]
  | closed => exact absurd List.mem_cons_self hopen

/-- From nothing nothing is handed out. -/
theorem of_nil (h : Leads [] deliveries left) :
    LazyStream.handedOut deliveries = [] ∧ left = [] :=
  ⟨List.prefix_nil.mp h.handedOut_prefix, List.length_eq_zero_iff.mp (Nat.le_zero.mp h.length_le)⟩

/-- After a close nothing is handed out and nothing is left. -/
theorem of_closed (h : Leads elements (deliveries ++ .closed :: later) left) :
    LazyStream.handedOut later = [] ∧ left = [] := by
  obtain ⟨_, _, hclosed⟩ := h.exists_of_append
  cases hclosed with
  | closed hlater => exact hlater.of_nil

end Leads

/-- What becomes of the holders of a stream: a result, what they keep for themselves, the store, and
what was delivered. -/
structure Outcome (σ α : Type) where
  result : α
  own : σ
  store : Store
  deliveries : List Delivery

/-- An outcome with what was delivered before. -/
def Outcome.preceded {σ α : Type} (past : List Delivery) (outcome : Outcome σ α) : Outcome σ α :=
  { outcome with deliveries := past ++ outcome.deliveries }

/-- An outcome before which nothing was delivered. -/
@[simp] theorem Outcome.preceded_nil {σ α : Type} (outcome : Outcome σ α) :
    outcome.preceded [] = outcome := rfl

/-- Something that holders of a stream do, with what they keep for themselves. -/
def Holder (σ α : Type) : Type := σ → Store → Outcome σ α

namespace Holder

variable {σ α β ε : Type}

/-- Holders act one after the other, and what they deliver is noted in that order. -/
instance : Monad (Holder σ) where
  pure a := fun own store => ⟨a, own, store, []⟩
  bind action next := fun own store =>
    let first := action own store
    (next first.result first.own first.store).preceded first.deliveries

/-- A holder can change the store. -/
instance : MonadStateOf Store (Holder σ) where
  get := fun own store => ⟨store, own, store, []⟩
  set store := fun own _ => ⟨(), own, store, []⟩
  modifyGet f := fun own store => ⟨(f store).1, own, (f store).2, []⟩

/-- Notes what is delivered. -/
def note (deliveries : List Delivery) : Holder σ Unit :=
  fun own store => ⟨(), own, store, deliveries⟩

/-- Something that is done apart from the stream. It gives what the holders keep for themselves. -/
def apart (change : σ → Store → σ × Store) : Holder σ σ := fun own store =>
  ⟨(change own store).1, (change own store).1, (change own store).2, []⟩

/-- Takes the next element. -/
def pull (stream : Handle .stream) : Holder σ (Option Value) := do
  let element? ← modifyGetThe Store (Store.pull stream)
  note (element?.toList.map .handedOut)
  pure element?

/-- Gives an element that was taken to a closure. -/
def give (closure : Value → Holder σ (Except ε β)) (element : Value) : Holder σ (Except ε β) := do
  note [.handedOut element]
  closure element

/-- Takes every remaining element and gives it to a closure, up to the first failure. -/
def mapEach (stream : Handle .stream) (closure : Value → Holder σ (Except ε β)) :
    Holder σ (Except (ε × List β) (List β)) :=
  Store.mapEach stream (give closure)

/-- Drops what is left. -/
def close (stream : Handle .stream) : Holder σ Unit := do
  modifyThe Store (Store.closeStream stream)
  note [.closed]

end Holder

/-- What the holders of a stream do, each step depending on what came out of those before. -/
inductive Routine (stream : Handle .stream) (σ ε β : Type)
  | finish (result : Except ε β)
  | pull (next : Option Value → Routine stream σ ε β)
  | mapEach (closure : Value → Routine stream σ ε β)
      (next : Except (ε × List β) (List β) → Routine stream σ ε β)
  | close (next : Routine stream σ ε β)
  | apart (change : σ → Store → σ × Store)
      (keeps : ∀ own store, (change own store).2.remaining stream = store.remaining stream)
      (next : σ → Routine stream σ ε β)

/-- Runs a routine. -/
def Routine.run {stream : Handle .stream} {σ ε β : Type} :
    Routine stream σ ε β → Holder σ (Except ε β)
  | finish result => pure result
  | pull next => do
    let element? ← Holder.pull stream
    (next element?).run
  | mapEach closure next => do
    let result ← Holder.mapEach stream fun element => (closure element).run
    (next result).run
  | close next => do
    Holder.close stream
    next.run
  | apart change _ next => do
    let own ← Holder.apart change
    (next own).run

namespace Holder

variable {σ α β ε : Type} {stream : Handle .stream}

/-- What comes of two actions in a row. -/
theorem bind_apply (action : Holder σ α) (next : α → Holder σ β) (own : σ) (store : Store) :
    (action >>= next) own store =
      (next (action own store).result (action own store).own (action own store).store).preceded
        (action own store).deliveries := rfl

/-- Changing the store delivers nothing by itself. -/
theorem modifyGet_apply (f : Store → α × Store) (own : σ) (store : Store) :
    (modifyGetThe Store f : Holder σ α) own store = ⟨(f store).1, own, (f store).2, []⟩ := rfl

/-- Whether what is delivered leads from what was left of a stream to what is left of it then. -/
def Delivers (stream : Handle .stream) (action : Holder σ α) : Prop :=
  ∀ own store, Leads (store.remaining stream) (action own store).deliveries
    ((action own store).store.remaining stream)

/-- Doing nothing leaves the stream as it is. -/
theorem delivers_pure (a : α) : Delivers stream (pure a : Holder σ α) := fun _ _ => .none _

/-- What two actions deliver leads from what was left before the first to what is left after the
second. -/
theorem Delivers.bind {action : Holder σ α} {next : α → Holder σ β} (h : Delivers stream action)
    (hnext : ∀ a, Delivers stream (next a)) : Delivers stream (action >>= next) :=
  fun own store => (h own store).append (hnext _ _ _)

/-- What is done apart from a stream leaves its elements as they are. -/
theorem delivers_apart {change : σ → Store → σ × Store}
    (hkeeps : ∀ own store, (change own store).2.remaining stream = store.remaining stream) :
    Delivers stream (apart change) := by
  intro own store
  rw [← hkeeps own store]
  exact .none _

/-- Taking the next element delivers it. -/
theorem delivers_pull (stream : Handle .stream) :
    Delivers stream (pull stream : Holder σ (Option Value)) := by
  intro own store
  change Leads _ ([] ++ ((store.pull stream).1.toList.map Delivery.handedOut ++ []))
    ((store.pull stream).2.remaining stream)
  rw [Store.fst_pull, Store.remaining_pull]
  cases store.remaining stream with
  | nil => exact .none []
  | cons element rest => exact .handedOut (.none rest)

/-- Closing leaves nothing. -/
theorem delivers_close (stream : Handle .stream) :
    Delivers stream (close stream : Holder σ Unit) := by
  intro own store
  change Leads _ [.closed] ((store.closeStream stream).remaining stream)
  rw [Store.remaining_closeStream]
  exact .closed (.none [])

section MapEach

variable {closure : Value → Holder σ (Except ε β)} {own : σ} {store : Store}

/-- Mapping stops where nothing is left. -/
theorem mapEachWithin_of_remaining_nil (h : store.remaining stream = []) (limit : Nat)
    (results : List β) :
    Store.mapEachWithin stream (give closure) limit results own store =
      ⟨.ok results.reverse, own, store, []⟩ := by
  cases limit with
  | zero => rfl
  | succ limit =>
    rw [Store.mapEachWithin, bind_apply, modifyGet_apply, Store.pull_of_remaining_nil h]
    rfl

/-- Mapping gives the next element to the closure, and goes on if that does not fail. -/
theorem mapEachWithin_succ {element : Value} (h : (store.pull stream).1 = some element)
    {given : Outcome σ (Except ε β)} (hgiven : closure element own (store.pull stream).2 = given)
    (limit : Nat) (results : List β) :
    Store.mapEachWithin stream (give closure) (limit + 1) results own store =
      match given.result with
      | .error error =>
        ⟨.error (error, results.reverse), given.own, given.store,
          .handedOut element :: given.deliveries⟩
      | .ok result =>
        (Store.mapEachWithin stream (give closure) limit (result :: results) given.own
          given.store).preceded (.handedOut element :: given.deliveries) := by
  have hgive : give closure element own (store.pull stream).2 =
      given.preceded [.handedOut element] := congrArg (Outcome.preceded _) hgiven
  obtain ⟨result, own, after, deliveries⟩ := given
  rw [Store.mapEachWithin, bind_apply, modifyGet_apply]
  dsimp only
  rw [h, Outcome.preceded_nil]
  dsimp only
  rw [bind_apply, hgive]
  cases result with
  | error error => exact congrArg (Outcome.mk _ own after) (List.append_nil _)
  | ok result => rfl

/-- How mapping a stream ends: with nothing left, or with the failure of the closure at an element.
Then no more was delivered after that element than what the closure delivered there. -/
def Ends (stream : Handle .stream) (closure : Value → Holder σ (Except ε β))
    (mapped : Outcome σ (Except (ε × List β) (List β))) : Prop :=
  match mapped.result with
  | .ok _ => mapped.store.remaining stream = []
  | .error (error, _) =>
    ∃ (past : List Delivery) (element : Value) (own : σ) (before : Store),
      (closure element own before).result = .error error ∧
      mapped.store = (closure element own before).store ∧
      mapped.deliveries = past ++ .handedOut element :: (closure element own before).deliveries

/-- How mapping ends does not depend on what was delivered before. -/
theorem Ends.preceded {mapped : Outcome σ (Except (ε × List β) (List β))}
    (h : Ends stream closure mapped) (earlier : List Delivery) :
    Ends stream closure (mapped.preceded earlier) := by
  obtain ⟨result, own, after, deliveries⟩ := mapped
  cases result with
  | ok _ => exact h
  | error _ =>
    obtain ⟨past, element, own, before, hresult, hstore, hdeliveries⟩ := h
    refine ⟨earlier ++ past, element, own, before, hresult, hstore, ?_⟩
    rw [List.append_assoc, ← hdeliveries]
    rfl

/-- Mapping a stream delivers what is next, whatever the closure does, and ends in one of two
ways. -/
theorem delivers_mapEachWithin (hclosure : ∀ element, Delivers stream (closure element))
    {limit : Nat} (hlimit : (store.remaining stream).length ≤ limit) (results : List β) :
    let mapped := Store.mapEachWithin stream (give closure) limit results own store
    Leads (store.remaining stream) mapped.deliveries (mapped.store.remaining stream) ∧
      Ends stream closure mapped := by
  induction limit generalizing own store results with
  | zero =>
    have hnil := List.length_eq_zero_iff.mp (Nat.le_zero.mp hlimit)
    exact ⟨.none _, hnil⟩
  | succ limit ih =>
    cases hremaining : store.remaining stream with
    | nil =>
      rw [mapEachWithin_of_remaining_nil hremaining]
      refine ⟨?_, hremaining⟩
      rw [← hremaining]
      exact .none _
    | cons element rest =>
      have hpull : (store.pull stream).1 = some element := by
        rw [Store.fst_pull, hremaining, List.head?_cons]
      have hrest : (store.pull stream).2.remaining stream = rest := by
        rw [Store.remaining_pull, hremaining, List.tail_cons]
      have hdelivers := hclosure element own (store.pull stream).2
      rw [hrest] at hdelivers
      generalize hgiven : closure element own (store.pull stream).2 = given at hdelivers
      rw [mapEachWithin_succ hpull hgiven]
      cases hresult : given.result with
      | error error =>
        subst hgiven
        exact ⟨.handedOut hdelivers, [], element, own, (store.pull stream).2, hresult, rfl, rfl⟩
      | ok result =>
        -- The closure can only take elements itself, so the limit is still enough.
        have hshorter : (given.store.remaining stream).length ≤ limit := by
          have hle := hdelivers.length_le
          rw [hremaining, List.length_cons] at hlimit
          omega
        obtain ⟨hothers, hends⟩ := ih hshorter (result :: results)
        exact ⟨.handedOut (hdelivers.append hothers), hends.preceded _⟩

end MapEach

end Holder

namespace Routine

variable {stream : Handle .stream} {σ ε β : Type}

/-- Whatever a routine does, it delivers what is next. -/
theorem delivers_run (routine : Routine stream σ ε β) : Holder.Delivers stream routine.run := by
  induction routine with
  | finish result => exact Holder.delivers_pure result
  | pull _ ih => exact (Holder.delivers_pull stream).bind ih
  | mapEach closure _ ihClosure ihNext =>
    have hmapped : Holder.Delivers stream
        (Holder.mapEach stream fun element => (closure element).run) :=
      fun _ _ => (Holder.delivers_mapEachWithin ihClosure (Nat.le_refl _) []).1
    exact hmapped.bind ihNext
  | close _ ih => exact (Holder.delivers_close stream).bind fun _ => ih
  | apart _ hkeeps _ ih => exact (Holder.delivers_apart hkeeps).bind ih

end Routine

end LazyStream

namespace Store

open LazyStream

/-- Whatever is done with a new stream, the elements that are handed out, in order, are the first
ones of it, and what is left are the others; after a close none is handed out and none is left.
Mapping it at any time leaves nothing if the closure does not fail. If it fails at an element, what
is left are the elements after that one and after those that the closure took there itself. -/
theorem delivers_each_once {start opened : Store} {stream : Handle .stream}
    {shape : LazyStream.Shape} {elements : List Value}
    (hnew : start.newStream shape elements = (stream, opened)) {σ ε β : Type}
    (routine : Routine stream σ ε β) (own : σ) :
    let final := routine.run own opened
    handedOut final.deliveries <+: elements ∧
    (.closed ∉ final.deliveries →
      handedOut final.deliveries ++ final.store.remaining stream = elements) ∧
    (∀ past later, final.deliveries = past ++ .closed :: later →
      handedOut later = [] ∧ final.store.remaining stream = []) ∧
    ∀ (closure : Value → Routine stream σ ε β) (own : σ) (store : Store),
      let mapped := Holder.mapEach stream (fun element => (closure element).run) own store
      match mapped.result with
      | .ok _ => mapped.store.remaining stream = []
      | .error (error, _) =>
        ∃ (past : List Delivery) (element : Value) (own : σ) (before : Store),
          let failing := (closure element).run own before
          failing.result = .error error ∧ mapped.store = failing.store ∧
          mapped.deliveries = past ++ .handedOut element :: failing.deliveries ∧
          (.closed ∉ mapped.deliveries → store.remaining stream =
            handedOut past ++ element ::
              (handedOut failing.deliveries ++ mapped.store.remaining stream)) ∧
          (.closed ∈ mapped.deliveries → mapped.store.remaining stream = []) := by
  intro final
  have hopened : opened.remaining stream = elements := by
    cases hnew
    exact remaining_newStream start shape elements rfl
  have hleads := routine.delivers_run own opened
  rw [hopened] at hleads
  refine ⟨hleads.handedOut_prefix, hleads.handedOut_append_eq, ?_, ?_⟩
  · intro past later hsplit
    rw [hsplit] at hleads
    exact hleads.of_closed
  · intro closure own store mapped
    obtain ⟨hmapped, hends⟩ : Leads (store.remaining stream) mapped.deliveries
          (mapped.store.remaining stream) ∧
        Holder.Ends stream (fun element => (closure element).run) mapped :=
      Holder.delivers_mapEachWithin (fun element => (closure element).delivers_run)
        (Nat.le_refl _) []
    rw [Holder.Ends] at hends
    cases hresult : mapped.result with
    | ok results =>
      rw [hresult] at hends
      exact hends
    | error failure =>
      rw [hresult] at hends
      obtain ⟨past, element, own, before, hfailing, hstore, hdeliveries⟩ := hends
      refine ⟨past, element, own, before, hfailing, hstore, hdeliveries, fun hnone => ?_,
        fun hclosed => ?_⟩
      · have hall := hmapped.handedOut_append_eq hnone
        rw [hdeliveries, handedOut_append, handedOut_cons_handedOut, List.append_assoc,
          List.cons_append] at hall
        exact hall.symm
      · obtain ⟨earlier, later, hsplit⟩ := List.append_of_mem hclosed
        rw [hsplit] at hmapped
        exact hmapped.of_closed.2

/-- A closure that takes an element of its own at the first of four and fails at the third. After
that there is one element left, which the routine pulls. -/
theorem delivers_each_once_of_four :
    let elements : List Value := [.null, .bool true, .bool false, .null]
    let closure : Value → Routine ⟨0⟩ Unit Unit (Option Value) := fun
      | .null => .pull fun taken? => .finish (.ok taken?)
      | _ => .finish (.error ())
    let routine : Routine ⟨0⟩ Unit Unit (Option Value) :=
      .mapEach closure fun _ => .pull fun last? => .close (.finish (.ok last?))
    ∃ opened : Store, Store.newStream .values elements {} = (⟨0⟩, opened) ∧
      (let mapped := Holder.mapEach ⟨0⟩ (fun element => (closure element).run) () opened
      mapped.deliveries = [.handedOut .null, .handedOut (.bool true), .handedOut (.bool false)] ∧
      mapped.store.remaining ⟨0⟩ = [.null]) ∧
      handedOut (routine.run () opened).deliveries <+: elements := by
  intro elements closure routine
  let opened := (Store.newStream .values elements {}).2
  have hnew : Store.newStream .values elements {} = (⟨0⟩, opened) := rfl
  refine ⟨opened, hnew, ⟨?_, ?_⟩, (delivers_each_once hnew routine ()).1⟩
  · rfl
  · rfl

end Store

end Sluice
