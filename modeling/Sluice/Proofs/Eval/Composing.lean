import Sluice.Proofs.Eval.Actions
import Sluice.Proofs.Store.Settling

/-!
# What actions on one input are put together from

An action on one input dereferences links; everything else it does is quiet. So what holds of
dereferencing and of quiet operations, and is kept by putting actions together, holds of every
action on one input, up to the selectors (`Composes`).
-/

namespace Sluice

open Sluice.Store

/-- Whether a property of actions holds of dereferencing and of quiet operations, and is kept by
putting actions together. -/
structure Composes (evaluator : Evaluator) (holds : ∀ {α : Type}, Action α → Prop) : Prop where
  ofExcept : ∀ {α : Type} (result : Except EvalError α),
    holds (MonadExcept.ofExcept result : Action α)
  bind : ∀ {α β : Type} {x : Action α} {f : α → Action β},
    holds x → (∀ a, holds (f a)) → holds (x >>= f)
  perform : ∀ {α : Type} {operation : Store → α × Store},
    (∀ store, Quiet store (operation store).2) → holds (Action.perform operation)
  attempt : ∀ {ε α : Type} {toError : ε → EvalError} {operation : Store → Except ε α × Store},
    (∀ store, Quiet store (operation store).2) → holds (Action.attempt toError operation)
  diverge : ∀ {α : Type}, holds (Action.diverge : Action α)
  thenClose : ∀ {α : Type} {body : Action α} {close : Store → Except EvalError Unit × Store},
    holds body → (∀ store, Quiet store (close store).2) → holds (body.thenClose close)
  resolveLink : ∀ link, holds (evaluator.resolveLink link)

namespace Composes

open Sluice.Action

variable {evaluator : Evaluator} {holds : ∀ {α : Type}, Action α → Prop} {α β : Type}

/-- The property holds of actions that do nothing. -/
theorem pure (h : Composes evaluator holds) (a : α) : holds (Pure.pure a : Action α) :=
  h.ofExcept (.ok a)

/-- The property holds of actions that fail at once. -/
theorem throw (h : Composes evaluator holds) (error : EvalError) :
    holds (MonadExcept.throw error : Action α) :=
  h.ofExcept (.error error)

/-- The property is kept by changing the result. -/
theorem map (h : Composes evaluator holds) {x : Action α} (hx : holds x) (f : α → β) :
    holds (f <$> x) :=
  h.bind hx fun _ => h.pure _

/-- Reading the store is quiet. -/
theorem read (h : Composes evaluator holds) (f : Store → α) :
    holds (Action.perform fun store => (f store, store)) :=
  h.perform fun store => .refl store

/-- The property holds of asking the context. -/
theorem check (h : Composes evaluator holds) : holds evaluator.check :=
  h.attempt fun store => .refl store

/-- The property holds of following links, one after the other. -/
theorem follow (h : Composes evaluator holds) (links : Nat) (value : Value) :
    holds (evaluator.follow links value) := by
  induction links generalizing value with
  | zero =>
    cases value with
    | link link => exact h.bind (h.read _) fun _ => h.throw _
    | _ => exact h.pure _
  | succ links ih =>
    cases value with
    | link link => exact h.bind (h.resolveLink link) ih
    | _ => exact h.pure _

/-- The property holds of resolving a value. -/
theorem resolve (h : Composes evaluator holds) (value : Value) : holds (evaluator.resolve value) :=
  h.follow _ value

/-- The property holds of passing over an input that an operation does not support. -/
theorem unsupported (h : Composes evaluator holds) (operation : Operation) (input : Value) :
    holds (evaluator.unsupported operation input) := by
  unfold Evaluator.unsupported
  split
  · exact h.pure _
  · exact h.throw _

/-- The property holds of rejecting an input, which is closed first. -/
theorem reject (h : Composes evaluator holds) (operation : Operation) (input : Value) :
    holds (Evaluator.reject operation input) :=
  h.bind (h.perform fun store => .of_cleanUps (cleanUps_closeHandle input store)) fun _ => h.throw _

/-- The property holds of advancing an iterator. -/
theorem advance (h : Composes evaluator holds) (iterator : Handle .iterator) :
    holds (Evaluator.advance iterator) :=
  h.perform fun store => quiet_advance store iterator

/-- The property holds of reading an iterator. -/
theorem current (h : Composes evaluator holds) (iterator : Handle .iterator) :
    holds (Evaluator.current iterator) :=
  h.attempt fun store => quiet_current store iterator

/-- The property is kept by closing an iterator at the end. -/
theorem closingIterator (h : Composes evaluator holds) (iterator : Handle .iterator)
    {body : Action α} (hbody : holds body) : holds (Evaluator.closingIterator iterator body) :=
  h.thenClose hbody fun store => quiet_closeIterator store iterator

/-- The property holds of seeking a position, by induction on the advances that are left. -/
theorem seek (h : Composes evaluator holds) (iterator : Handle .iterator) (position : Int64)
    (limit skip seen : Nat) : holds (evaluator.seek iterator position limit skip seen) := by
  induction limit generalizing skip seen with
  | zero => exact h.throw _
  | succ limit ih =>
    unfold Evaluator.seek
    refine h.bind (h.advance iterator) fun more => ?_
    split
    · split
      · exact h.current iterator
      · exact h.bind h.check fun _ => ih _ _
    · exact h.throw _

/-- The property holds of reading the element at a position. -/
theorem nth (h : Composes evaluator holds) (iterator : Handle .iterator) (position : Int64) :
    holds (evaluator.nth iterator position) :=
  h.closingIterator iterator <|
    h.bind (h.ofExcept _) fun _ => h.bind (h.read _) fun _ => h.seek iterator _ _ _ _

/-- The property holds of collecting a window, by induction on the advances that are left. -/
theorem window (h : Composes evaluator holds) (iterator : Handle .iterator) (start : Nat)
    (stop : Option Nat) (limit position : Nat) (collected : List Value) :
    holds (evaluator.window iterator start stop limit position collected) := by
  induction limit generalizing position collected with
  | zero => exact h.pure _
  | succ limit ih =>
    unfold Evaluator.window
    split
    · refine h.bind (h.advance iterator) fun more => ?_
      split
      · split
        · exact h.bind (h.map (h.current iterator) _) fun _ => h.bind h.check fun _ => ih _ _
        · exact h.bind (h.pure _) fun _ => h.bind h.check fun _ => ih _ _
      · exact h.pure _
    · exact h.pure _

/-- The property holds of collecting a range. -/
theorem collectRange (h : Composes evaluator holds) (iterator : Handle .iterator)
    (range : Filter.Range) : holds (evaluator.collectRange iterator range) := by
  refine h.closingIterator iterator <| h.bind (h.ofExcept _) fun bounds => ?_
  exact h.bind (h.read _) fun _ => h.bind (h.window iterator _ _ _ _ _) fun _ => h.pure _

/-- The property holds of counting on, by induction on the advances that are left. -/
theorem countFrom (h : Composes evaluator holds) (iterator : Handle .iterator)
    (limit count : Nat) : holds (evaluator.countFrom iterator limit count) := by
  induction limit generalizing count with
  | zero => exact h.pure _
  | succ limit ih =>
    unfold Evaluator.countFrom
    refine h.bind (h.advance iterator) fun more => ?_
    split
    · exact h.bind h.check fun _ => ih _
    · exact h.pure _

/-- The property holds of counting the elements of an iterator. -/
theorem count (h : Composes evaluator holds) (iterator : Handle .iterator) :
    holds (evaluator.count iterator) :=
  h.closingIterator iterator <| h.bind (h.read _) fun _ => h.countFrom iterator _ _

/-- The property holds of reading a range of bytes. -/
theorem readRange (h : Composes evaluator holds) (stream : Handle .byteStream)
    (range : Filter.Range) : holds (Evaluator.readRange stream range) := by
  refine h.thenClose ?_ fun store => quiet_closeByteStream store stream
  refine h.bind (h.ofExcept _) fun bounds => ?_
  refine h.bind (h.attempt fun store => quiet_readWith store _ stream) fun skipped => ?_
  split
  · exact h.pure _
  · refine h.bind (h.attempt fun store => ?_) fun _ => h.pure _
    cases bounds.2 with
    | none | some stop => exact quiet_readWith store _ stream

/-- The property holds of iterating a collection. -/
theorem iterateArray (h : Composes evaluator holds) (array : Handle .array) :
    holds (Evaluator.iterateArray array) :=
  h.perform fun store => quiet_iterateArray store array

/-- The property holds of selecting an index. -/
theorem selectIndex (h : Composes evaluator holds) (position : Int64) (input : Value) :
    holds (evaluator.selectIndex position input) := by
  refine h.bind (h.resolve input) fun target => ?_
  split
  · exact h.nth _ position
  · exact h.bind (h.iterateArray _) fun _ => h.nth _ position
  · exact h.ofExcept _
  · exact h.ofExcept _
  · exact h.ofExcept _
  · exact h.reject _ _
  · exact h.unsupported _ _

/-- The property holds of selecting a range. -/
theorem selectRange (h : Composes evaluator holds) (range : Filter.Range) (input : Value) :
    holds (evaluator.selectRange range input) := by
  unfold Evaluator.selectRange
  split
  · exact h.pure _
  · refine h.bind (h.resolve input) fun target => ?_
    split
    · exact h.collectRange _ range
    · exact h.bind (h.iterateArray _) fun _ => h.collectRange _ range
    · exact h.readRange _ range
    · exact h.pure _
    · exact h.pure _
    · exact h.pure _
    · exact h.unsupported _ _

/-- The property holds of taking the length. -/
theorem length (h : Composes evaluator holds) (input : Value) : holds (evaluator.length input) := by
  refine h.bind (h.resolve input) fun target => ?_
  split
  · exact h.pure _
  · exact h.pure _
  · exact h.pure _
  · exact h.pure _
  · exact h.pure _
  · exact h.map (h.count _) _
  · exact h.bind (h.iterateArray _) fun _ => h.map (h.count _) _
  · exact h.bind (h.perform fun store => quiet_iterateMap store _) fun _ => h.map (h.count _) _
  · exact h.reject _ _
  · exact h.unsupported _ _

/-- The property holds of making a stream. -/
theorem newStream (h : Composes evaluator holds) (shape : LazyStream.Shape)
    (elements : List Value) : holds (Evaluator.newStream shape elements) :=
  h.bind (h.perform fun store => quiet_newStream store shape elements) fun _ => h.pure _

/-- The property holds of selecting an entry by its name. -/
theorem selectEntry (h : Composes evaluator holds) (name : String) (input : Value) :
    holds (evaluator.selectEntry name input) := by
  unfold Evaluator.selectEntry
  split
  · exact h.attempt fun store => quiet_lookUp store _ name
  · exact h.pure _
  · exact h.pure _
  · exact h.reject _ _
  · exact h.reject _ _
  · exact h.reject _ _
  · exact h.unsupported _ _

end Composes

end Sluice
