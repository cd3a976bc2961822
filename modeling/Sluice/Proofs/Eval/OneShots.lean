import Sluice.Proofs.Eval.Forward
import Sluice.Proofs.Store.Sparing

/-!
# Uses of sources

An index, a slice with a bound and `length` run through an iterator, and such a slice reads a byte
stream. Each of these uses comes to an end, whatever the source does, and does not close the source
itself (`Spares`). Then the source is closed, and the error of the use counts more than that of
closing (`Evaluator.exists_run_apply_of_opens`).
-/

namespace Sluice

open Sluice.Filter Sluice.Store

/-- Whether an action comes to an end, whatever store it starts in, and has not touched closing a
source then. -/
def Spares {α : Type} (source : Source) (action : Action α) : Prop :=
  ∀ store, ∃ outcome after, action.run store = some (outcome, after) ∧
    ClosesAlike source store after

namespace Spares

variable {α β : Type} {source : Source}

/-- A result that is known spares every source. -/
theorem ofExcept (result : Except EvalError α) :
    Spares source (MonadExcept.ofExcept result : Action α) :=
  fun store => ⟨_, store, Computation.run_ofExcept result store, .refl store⟩

/-- Doing nothing spares every source. -/
theorem pure (a : α) : Spares source (Pure.pure a : Action α) := ofExcept (.ok a)

/-- Failing at once spares every source. -/
theorem throw (error : EvalError) : Spares source (MonadExcept.throw error : Action α) :=
  ofExcept (.error error)

/-- Actions one after the other spare what each of them spares. -/
theorem bind {x : Action α} {f : α → Action β} (hx : Spares source x)
    (hf : ∀ a, Spares source (f a)) : Spares source (x >>= f) := by
  intro store
  obtain ⟨outcome, middle, hrun, hmiddle⟩ := hx store
  rw [Computation.run_bind, hrun]
  cases outcome with
  | error error => exact ⟨_, _, rfl, hmiddle⟩
  | ok a =>
    obtain ⟨outcome, after, hrest, hafter⟩ := hf a middle
    exact ⟨outcome, after, hrest, hmiddle.trans hafter⟩

/-- Changing the result does not matter. -/
theorem map {x : Action α} (hx : Spares source x) (f : α → β) : Spares source (f <$> x) :=
  hx.bind fun _ => pure _

/-- An operation on the store spares a source that closes alike behind it. -/
theorem perform {operation : Store → α × Store}
    (h : ∀ store, ClosesAlike source store (operation store).2) :
    Spares source (Action.perform operation) :=
  fun store => ⟨_, _, Action.run_perform operation store, h store⟩

/-- An operation that may fail spares a source that closes alike behind it. -/
theorem attempt {ε : Type} {toError : ε → EvalError} {operation : Store → Except ε α × Store}
    (h : ∀ store, ClosesAlike source store (operation store).2) :
    Spares source (Action.attempt toError operation) :=
  fun store => ⟨_, _, Action.run_attempt toError operation store, h store⟩

end Spares

namespace Evaluator

open Sluice.Action

variable {evaluator : Evaluator}

/-- Asking the context spares every source. -/
theorem spares_check (evaluator : Evaluator) (source : Source) : Spares source evaluator.check :=
  .attempt .refl

section Iterator

variable (iterator : Handle .iterator)

/-- Advancing spares the iterator. -/
theorem spares_advance : Spares (.iterator iterator) (advance iterator) :=
  .perform (closesAlike_advance iterator)

/-- Reading spares the iterator. -/
theorem spares_current : Spares (.iterator iterator) (current iterator) :=
  .attempt (closesAlike_current iterator)

/-- Asking how many advances are left spares the iterator. -/
theorem spares_advancesLeft : Spares (.iterator iterator) (advancesLeft iterator) := .perform .refl

/-- Seeking a position spares the iterator, by induction on the advances that are left. -/
theorem spares_seek (position : Int64) (limit skip seen : Nat) :
    Spares (.iterator iterator) (evaluator.seek iterator position limit skip seen) := by
  induction limit generalizing skip seen with
  | zero => exact .throw _
  | succ limit ih =>
    unfold seek
    refine (spares_advance iterator).bind fun more => ?_
    split
    · split
      · exact spares_current iterator
      · exact (spares_check _ _).bind fun _ => ih _ _
    · exact .throw _

/-- Collecting a window spares the iterator, by induction on the advances that are left. -/
theorem spares_window (start : Nat) (stop : Option Nat) (limit position : Nat)
    (collected : List Value) :
    Spares (.iterator iterator)
      (evaluator.window iterator start stop limit position collected) := by
  induction limit generalizing position collected with
  | zero => exact .pure _
  | succ limit ih =>
    unfold window
    split
    · refine (spares_advance iterator).bind fun more => ?_
      split
      · have hcheck (collected : List Value) := (spares_check evaluator
          (.iterator iterator)).bind fun _ => ih (position + 1) collected
        split
        · exact ((spares_current iterator).map _).bind hcheck
        · exact (Spares.pure _).bind hcheck
      · exact .pure _
    · exact .pure _

/-- Counting on spares the iterator, by induction on the advances that are left. -/
theorem spares_countFrom (limit count : Nat) :
    Spares (.iterator iterator) (evaluator.countFrom iterator limit count) := by
  induction limit generalizing count with
  | zero => exact .pure _
  | succ limit ih =>
    unfold countFrom
    refine (spares_advance iterator).bind fun more => ?_
    split
    · exact (spares_check _ _).bind fun _ => ih _
    · exact .pure _

end Iterator

/-- Reading up to a limit spares the byte stream. -/
theorem spares_readUpTo (stream : Handle .byteStream) (limit : Nat) :
    Spares (.byteStream stream) (attempt .byteStream (Store.readUpTo stream limit)) :=
  .attempt (closesAlike_readWith (fun source => closeFault_fill limit limit source) stream)

/-- Reading to the end spares the byte stream. -/
theorem spares_readToEnd (stream : Handle .byteStream) :
    Spares (.byteStream stream) (attempt .byteStream (Store.readToEnd stream)) :=
  .attempt (closesAlike_readWith (fun source => closeFault_fill _ _ source) stream)

/-- Looks for the value of an iterator at a position. -/
def useAt (evaluator : Evaluator) (iterator : Handle .iterator) (position : Int64) :
    Action Value := do
  let target ← ofExcept (oneShotPosition .iterator position)
  let limit ← advancesLeft iterator
  evaluator.seek iterator position limit target 0

/-- Collects the values of an iterator between two bounds. -/
def useBetween (evaluator : Evaluator) (iterator : Handle .iterator) (bounds : Range) :
    Action Value := do
  let (start, stop) ← ofExcept (oneShotBounds .iterator bounds)
  let limit ← advancesLeft iterator
  let values ← evaluator.window iterator start stop limit 0 []
  pure (.sequence values)

/-- Counts the values of an iterator. -/
def useAll (evaluator : Evaluator) (iterator : Handle .iterator) : Action Value :=
  .ofCount <$> do
    let limit ← advancesLeft iterator
    evaluator.countFrom iterator limit 0

/-- Reads the bytes of a stream between two bounds. -/
def useBytes (stream : Handle .byteStream) (bounds : Range) : Action Value := do
  let (start, stop) ← ofExcept (oneShotBounds .byteStream bounds)
  let skipped ← attempt .byteStream (Store.readUpTo stream start)
  if skipped.length < start then pure (.bytes [])
  else
    let content ← attempt .byteStream
      (match stop with
        | some stop => Store.readUpTo stream (stop - start)
        | none => Store.readToEnd stream)
    pure (.bytes content)

/-- What a node does with a source before the source is closed. -/
inductive OneShot (evaluator : Evaluator) : Node → Source → Action Value → Prop
  | index (position : Int64) (iterator : Handle .iterator) :
      OneShot evaluator (.index position) (.iterator iterator) (evaluator.useAt iterator position)
  | range {bounds : Range} (iterator : Handle .iterator) : bounds.isAll = false →
      OneShot evaluator (.range bounds) (.iterator iterator) (evaluator.useBetween iterator bounds)
  | length (iterator : Handle .iterator) :
      OneShot evaluator .length (.iterator iterator) (evaluator.useAll iterator)
  | bytes {bounds : Range} (stream : Handle .byteStream) : bounds.isAll = false →
      OneShot evaluator (.range bounds) (.byteStream stream) (useBytes stream bounds)

/-- The source that a node has of an input, with the store in which it has it: an iterator or byte
stream itself, or a new iterator over a collection. Of a map only the count is asked for. -/
inductive Opens (store : Store) : Node → Value → Source → Store → Prop
  | iterator {node : Node} (iterator : Handle .iterator) :
      Opens store node (.iterator iterator) (.iterator iterator) store
  | array {node : Node} (array : Handle .array) :
      Opens store node (.array array) (.iterator (store.iterateArray array).1)
        (store.iterateArray array).2
  | map (map : Handle .map) :
      Opens store .length (.map map) (.iterator (store.iterateMap map).1) (store.iterateMap map).2
  | byteStream {node : Node} (stream : Handle .byteStream) :
      Opens store node (.byteStream stream) (.byteStream stream) store

variable {node : Node} {source : Source} {body : Action Value} {store opened : Store}
  {input target : Value}

/-- What is done to a source before it is closed spares it. -/
theorem OneShot.spares (h : OneShot evaluator node source body) : Spares source body := by
  cases h with
  | index position iterator =>
    refine (Spares.ofExcept _).bind fun target => ?_
    exact (spares_advancesLeft iterator).bind fun limit => spares_seek iterator _ _ _ _
  | range iterator =>
    refine (Spares.ofExcept _).bind fun bounds => ?_
    refine (spares_advancesLeft iterator).bind fun limit => ?_
    exact (spares_window iterator _ _ _ _ _).bind fun values => .pure _
  | length iterator =>
    exact ((spares_advancesLeft iterator).bind fun limit => spares_countFrom iterator _ _).map _
  | bytes stream =>
    refine (Spares.ofExcept _).bind fun bounds => ?_
    refine (spares_readUpTo stream _).bind fun skipped => ?_
    split
    · exact .pure _
    · refine Spares.bind ?_ fun content => .pure _
      cases bounds.2 with
      | none => exact spares_readToEnd stream
      | some stop => exact spares_readUpTo stream _

/-- The positions that a node names. -/
def positions : Node → List Int64
  | .index position => [position]
  | .range bounds => bounds.start.toList ++ bounds.stop.toList
  | _ => []

/-- A position from the end is refused. -/
theorem oneShotPosition_of_negative {position : Int64} (h : position.toInt < 0)
    (kind : Value.Kind) :
    oneShotPosition kind position = .error (.negativeOnOneShot position kind) :=
  if_pos h

/-- Bounds of which one is negative are refused for the first that is. -/
theorem oneShotBounds_of_negative {bounds : Range} {position : Int64}
    (h : (positions (.range bounds)).find? (·.toInt < 0) = some position) (kind : Value.Kind) :
    oneShotBounds kind bounds = .error (.negativeOnOneShot position kind) := by
  have hnegative : position.toInt < 0 := by simpa using List.find?_some h
  have hrefused := oneShotPosition_of_negative hnegative kind
  obtain ⟨start, stop⟩ := bounds
  have hstop (hrest : stop.toList.find? (·.toInt < 0) = some position) : stop = some position :=
    Option.mem_toList.mp (List.mem_of_find?_eq_some hrest)
  cases start with
  | none =>
    obtain rfl := hstop h
    simp only [oneShotBounds, hrefused]
    rfl
  | some start =>
    rw [positions, Option.toList_some, List.singleton_append, List.find?_cons] at h
    by_cases hstart : start.toInt < 0
    · obtain rfl : start = position := by simpa [hstart] using h
      simp only [oneShotBounds, hrefused]
      rfl
    · obtain rfl := hstop (by simpa [hstart] using h)
      simp only [oneShotBounds, oneShotPosition_of_nonneg (Int.not_lt.mp hstart), hrefused]
      rfl

/-- A use that names a negative position fails for it. -/
theorem OneShot.run_of_negative (h : OneShot evaluator node source body) {position : Int64}
    (hnegative : (positions node).find? (·.toInt < 0) = some position) (store : Store) :
    body.run store =
      some (.error (.negativeOnOneShot position source.value.kind), store) := by
  cases h with
  | index other iterator =>
    have hlt : position.toInt < 0 := by simpa using List.find?_some hnegative
    obtain rfl := List.mem_singleton.mp (List.mem_of_find?_eq_some hnegative)
    rw [useAt, oneShotPosition_of_negative hlt]
    rfl
  | range iterator =>
    rw [useBetween, oneShotBounds_of_negative hnegative]
    rfl
  | length => cases hnegative
  | bytes stream =>
    rw [useBytes, oneShotBounds_of_negative hnegative]
    rfl

/-- The result may be changed before the close or after it. -/
theorem map_thenClose {α β : Type} (body : Action α)
    (close : Store → Except EvalError Unit × Store) (f : α → β) :
    f <$> body.thenClose close = (f <$> body).thenClose close := by
  refine Computation.ext fun store => ?_
  rw [map_eq_pure_bind, map_eq_pure_bind, Computation.run_bind, thenClose, thenClose,
    ExceptT.run_mk, ExceptT.run_mk, Computation.run_bind]
  rcases body.run store with _ | ⟨error | a, middle⟩
  · rfl
  · rfl
  · rcases hclose : close middle with ⟨error | _, after⟩ <;>
      simp [Computation.next, outcomeOfUse, hclose]

/-- A node uses its source and then closes it. -/
theorem run_apply_of_opens (hpermitted : evaluator.context.check store = .ok ())
    (htarget : store.links.leadsTo? input = some target)
    (hopens : Opens store node target source opened) (hshot : OneShot evaluator node source body) :
    (evaluator.apply node input).run store =
      (body.thenClose (closeSource source)).run opened := by
  have hresolve : (evaluator.resolve input).run store = some (.ok target, store) :=
    run_resolve_of_some htarget
  have hinput : ∀ stream, input ≠ .stream stream := by
    rintro stream rfl
    cases htarget
    cases hopens
  cases hshot with
  | index position iterator =>
    rw [apply, run_pointwise_of_permitted hpermitted hinput, selectIndex,
      Computation.run_bind_of_ok hresolve]
    cases hopens <;> rfl
  | range iterator hbounded =>
    rw [apply, run_pointwise_of_permitted hpermitted hinput, selectRange, hbounded,
      if_neg Bool.false_ne_true, Computation.run_bind_of_ok hresolve]
    cases hopens <;> rfl
  | length iterator =>
    rw [apply, run_pointwise_of_permitted hpermitted hinput, length,
      Computation.run_bind_of_ok hresolve]
    have hcount : (.ofCount <$> evaluator.count iterator : Action Value) =
        (evaluator.useAll iterator).thenClose (closeSource (.iterator iterator)) :=
      map_thenClose (do
        let limit ← advancesLeft iterator
        evaluator.countFrom iterator limit 0) (closeSource (.iterator iterator)) Value.ofCount
    rw [← hcount]
    cases hopens <;> rfl
  | bytes stream hbounded =>
    rw [apply, run_pointwise_of_permitted hpermitted hinput, selectRange, hbounded,
      if_neg Bool.false_ne_true, Computation.run_bind_of_ok hresolve]
    cases hopens
    rfl

/-- A source that was not there before is open, and has not been closed. -/
theorem Opens.eq_or_new (h : Opens store node target source opened) :
    opened = store ∨ opened.isClosed source = false ∧ opened.closes source = 0 := by
  have hnew {iterators : Table .iterator Iterator} (values : List Value) (behaviour : Behaviour)
      (heq : opened.iterators = (iterators.push ⟨.ofValues values, behaviour, 0, 0⟩).2)
      (hsource : source = .iterator (iterators.push ⟨.ofValues values, behaviour, 0, 0⟩).1) :
      opened.isClosed source = false ∧ opened.closes source = 0 := by
    rw [hsource, Store.isClosed, isIteratorClosed, closes, heq, Table.get_push_self]
    exact ⟨rfl, rfl⟩
  cases h with
  | iterator | byteStream => exact Or.inl rfl
  | array array => exact Or.inr (hnew _ _ rfl rfl)
  | map map => exact Or.inr (hnew _ _ rfl rfl)

/-- **A use of a source closes it once and tells the first error.** Where the context is neither
cancelled nor past its deadline, a node that runs through a source comes to an end with the source
closed. The underlying close has been called once if the source was open, and a new source is open.
What the node gives is the error of the use, or else the error of closing, or else the value of the
use; and a negative position fails the use. -/
theorem exists_run_apply_of_opens (hcancelled : evaluator.context.isCancelled store = false)
    (hexpired : evaluator.context.isExpired store = false)
    (htarget : store.links.leadsTo? input = some target)
    (hopens : Opens store node target source opened) (hshot : OneShot evaluator node source body) :
    ∃ outcome middle after, body.run opened = some (outcome, middle) ∧
      (evaluator.apply node input).run store =
        some (outcome.bind fun value => (opened.closeError? source).elim (.ok value) .error,
          after) ∧
      after.isClosed source = true ∧
      (after.closes source = opened.closes source + if opened.isClosed source then 0 else 1) ∧
      (opened = store ∨ opened.isClosed source = false ∧ opened.closes source = 0) ∧
      ∀ position, (positions node).find? (·.toInt < 0) = some position →
        outcome = .error (.negativeOnOneShot position source.value.kind) := by
  have hpermitted : evaluator.context.check store = .ok () := by
    simp [Context.check, hcancelled, hexpired]
  obtain ⟨outcome, middle, hrun, halike⟩ := hshot.spares opened
  obtain ⟨herror, hclosed, hcloses⟩ := closeSource_spec source middle
  refine ⟨outcome, middle, (closeSource source middle).2, hrun, ?_, hclosed, ?_,
    hopens.eq_or_new, fun position hnegative => ?_⟩
  · rw [run_apply_of_opens hpermitted htarget hopens hshot, thenClose, ExceptT.run_mk, hrun]
    simp only [herror, halike.closeError?_eq]
    cases outcome with
    | error error => rfl
    | ok value => cases opened.closeError? source <;> rfl
  · rw [hcloses, halike.closesInAll_eq]
    rfl
  · rw [hshot.run_of_negative hnegative] at hrun
    cases hrun
    rfl

/-- A store with a link to an iterator whose elements cannot be read and whose closing fails. -/
def brittle : Store where
  links := ⟨#[{ path := "/l", target := some (.iterator ⟨0⟩) }]⟩
  iterators := ⟨#[{
    cursor := .ofValues [.int 1, .int 2]
    behaviour := {
      scanFault := fun _ => some .notPositioned
      closeFault := some .iteratorClosed } }]⟩

/-- Where both an element cannot be read and closing fails, the former is told. -/
theorem exists_run_apply_of_brittle :
    ∃ after, (apply { context := .background } (.index 0) (.link ⟨0⟩)).run brittle =
        some (.error (.value .notPositioned), after) ∧
      after.isClosed (.iterator ⟨0⟩) = true ∧ after.closes (.iterator ⟨0⟩) = 1 := by
  have htarget : brittle.links.leadsTo? (.link ⟨0⟩) = some (.iterator ⟨0⟩) := rfl
  have hopens : Opens brittle (.index 0) (.iterator ⟨0⟩) (.iterator ⟨0⟩) brittle := .iterator ⟨0⟩
  have hshot : OneShot { context := .background } (.index 0) (.iterator ⟨0⟩) _ := .index 0 ⟨0⟩
  obtain ⟨outcome, middle, after, hbody, hrun, hclosed, hcloses, -, -⟩ :=
    exists_run_apply_of_opens rfl rfl htarget hopens hshot
  cases hbody
  exact ⟨after, hrun, hclosed, hcloses⟩

/-- Past its deadline a context that is not cancelled refuses every node, and the iterator behind a
link stays open. -/
theorem run_apply_past_deadline :
    let store : Store :=
      { links := ⟨#[{ path := "/l", target := some (.iterator ⟨0⟩) }]⟩
        iterators := ⟨#[{ cursor := .ofValues [.int 1, .int 2] }]⟩ }
    Context.isCancelled { deadline := some 0 } store = false ∧
      store.links.leadsTo? (.link ⟨0⟩) = some (.iterator ⟨0⟩) ∧
      (apply { context := { deadline := some 0 } } .length (.link ⟨0⟩)).run store =
        some (.error (.context .deadlineExceeded), store) ∧
      store.isClosed (.iterator ⟨0⟩) = false ∧ store.closes (.iterator ⟨0⟩) = 0 :=
  ⟨rfl, rfl, rfl, rfl, rfl⟩

end Evaluator

end Sluice
