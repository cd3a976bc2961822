import Mathlib.Tactic.Common
import Sluice.Eval.Action
import Sluice.Proofs.Store.Closing

/-!
# Operations that spare a source

Closing a source calls its underlying close if the source is open (`closeSource_spec`). The
operations by which a source is run through leave all this as it is: whether the source is closed,
how often its underlying close has been called, and how that would end (`ClosesAlike`).
-/

namespace Sluice.Store

/-- Closes a source. -/
def closeSource : Source → Store → Except EvalError Unit × Store
  | .iterator iterator, store =>
    let (result, store) := store.closeIterator iterator
    (result.mapError .value, store)
  | .byteStream stream, store =>
    let (result, store) := store.closeByteStream stream
    (result.mapError .byteStream, store)

/-- The error of closing a source. There is none if it is closed already. -/
def closeError? (store : Store) : Source → Option EvalError
  | .iterator iterator =>
    let cell := store.iterators.get iterator
    if cell.cursor.closed then none else cell.behaviour.closeFault.map .value
  | .byteStream stream =>
    let cell := store.byteStreams.get stream
    if cell.closed then none else cell.source.closeFault.map .byteStream

/-- Closing a closed source does nothing. -/
theorem closeSource_of_isClosed {source : Source} {store : Store}
    (h : store.isClosed source = true) : closeSource source store = (.ok (), store) := by
  cases source with
  | iterator iterator =>
    have hclosed : (store.iterators.get iterator).cursor.closed = true := h
    simp [closeSource, closeIterator, hclosed, Except.mapError]
  | byteStream stream =>
    have hclosed : (store.byteStreams.get stream).closed = true := h
    simp [closeSource, closeByteStream, hclosed, Except.mapError]

/-- Closing a closed source does not fail. -/
theorem closeError?_of_isClosed {source : Source} {store : Store}
    (h : store.isClosed source = true) : store.closeError? source = none := by
  cases source with
  | iterator iterator => exact if_pos h
  | byteStream stream => exact if_pos h

/-- An open source exists. -/
theorem has_of_isClosed_eq_false {source : Source} {store : Store}
    (h : store.isClosed source = false) : store.Has source := by
  by_contra hout
  rw [(closes_of_not_has hout).2] at h
  cases h

/-- Closing a source calls its underlying close if the source is open, and only then. -/
theorem closeSource_spec (source : Source) (store : Store) :
    (closeSource source store).1 = (store.closeError? source).elim (.ok ()) .error ∧
      (closeSource source store).2.isClosed source = true ∧
      (closeSource source store).2.closes source = store.closesInAll source := by
  cases hsource : store.isClosed source with
  | true =>
    rw [closeSource_of_isClosed hsource, closeError?_of_isClosed hsource, closesInAll,
      if_pos hsource]
    exact ⟨rfl, hsource, rfl⟩
  | false =>
    have hbound := has_of_isClosed_eq_false hsource
    cases source with
    | iterator iterator =>
      have hopen : (store.iterators.get iterator).cursor.closed = false := hsource
      refine ⟨?_, ?_, ?_⟩
      · cases hfault : (store.iterators.get iterator).behaviour.closeFault <;>
          simp [closeSource, closeIterator, closeError?, hopen, hfault, Except.mapError]
      · simp [closeSource, closeIterator, isClosed, isIteratorClosed, hopen, record,
          Table.get_set_self hbound, Cursor.close]
      · simp [closeSource, closeIterator, closesInAll, closes, hsource, hopen, record,
          Table.get_set_self hbound]
    | byteStream stream =>
      have hopen : (store.byteStreams.get stream).closed = false := hsource
      refine ⟨?_, ?_, ?_⟩
      · cases hfault : (store.byteStreams.get stream).source.closeFault <;>
          simp [closeSource, closeByteStream, closeError?, hopen, hfault, Except.mapError]
      · simp [closeSource, closeByteStream, isClosed, isByteStreamClosed, hopen, record,
          Table.get_set_self hbound]
      · simp [closeSource, closeByteStream, closesInAll, closes, hsource, hopen, record,
          Table.get_set_self hbound]

/-- Whether closing a source has not been touched between two stores: it is closed or open as
before, its underlying close has not been called, and would fail as before. -/
structure ClosesAlike (source : Source) (store after : Store) : Prop where
  isClosed_eq : after.isClosed source = store.isClosed source
  closes_eq : after.closes source = store.closes source
  closeError?_eq : after.closeError? source = store.closeError? source

namespace ClosesAlike

variable {source : Source} {store middle after : Store}

/-- A source closes like itself. -/
theorem refl (store : Store) : ClosesAlike source store store := ⟨rfl, rfl, rfl⟩

/-- A source closes alike over two stretches if it does so over each. -/
theorem trans (h : ClosesAlike source store middle) (hnext : ClosesAlike source middle after) :
    ClosesAlike source store after :=
  ⟨hnext.isClosed_eq.trans h.isClosed_eq, hnext.closes_eq.trans h.closes_eq,
    hnext.closeError?_eq.trans h.closeError?_eq⟩

/-- Where a source closes alike, its underlying close is called as often in all. -/
theorem closesInAll_eq (h : ClosesAlike source store after) :
    after.closesInAll source = store.closesInAll source := by
  rw [closesInAll, closesInAll, h.closes_eq, h.isClosed_eq]

end ClosesAlike

/-- What a cell of an iterator shares with the cell before in which the iterator closes alike. -/
def IteratorAlike (cell next : Iterator) : Prop :=
  next.cursor.closed = cell.cursor.closed ∧ next.closes = cell.closes ∧
    next.behaviour.closeFault = cell.behaviour.closeFault

/-- What a cell of a byte stream shares with the cell before in which the stream closes alike. -/
def ByteStreamAlike (cell next : ByteStream) : Prop :=
  next.closed = cell.closed ∧ next.closes = cell.closes ∧
    next.source.closeFault = cell.source.closeFault

/-- An iterator closes alike if its cells do. -/
theorem closesAlike_iterator {iterator : Handle .iterator} {store after : Store}
    (h : IteratorAlike (store.iterators.get iterator) (after.iterators.get iterator)) :
    ClosesAlike (.iterator iterator) store after := by
  obtain ⟨hclosed, hcloses, hfault⟩ := h
  refine ⟨hclosed, hcloses, ?_⟩
  simp only [closeError?, hclosed, hfault]

/-- A byte stream closes alike if its cells do. -/
theorem closesAlike_byteStream {stream : Handle .byteStream} {store after : Store}
    (h : ByteStreamAlike (store.byteStreams.get stream) (after.byteStreams.get stream)) :
    ClosesAlike (.byteStream stream) store after := by
  obtain ⟨hclosed, hcloses, hfault⟩ := h
  refine ⟨hclosed, hcloses, ?_⟩
  simp only [closeError?, hclosed, hfault]

/-- Advancing spares an iterator. -/
theorem closesAlike_advance (iterator : Handle .iterator) (store : Store) :
    ClosesAlike (.iterator iterator) store (store.advance iterator).2 := by
  have hset (middle : Store) (hmiddle : middle.iterators = store.iterators) (advances : Nat) :
      IteratorAlike (store.iterators.get iterator)
        ((middle.iterators.set iterator { store.iterators.get iterator with
          cursor := (store.iterators.get iterator).cursor.next.2
          advances := advances }).get iterator) := by
    rw [hmiddle]
    exact rel_get_set (fun _ => ⟨rfl, rfl, rfl⟩) ⟨Cursor.closed_next _, rfl, rfl⟩ iterator
  unfold advance
  dsimp only
  split
  · exact .refl store
  · refine closesAlike_iterator (hset _ ?_ _)
    split <;> rfl

/-- Reading spares an iterator. -/
theorem closesAlike_current (iterator : Handle .iterator) (store : Store) :
    ClosesAlike (.iterator iterator) store (store.current iterator).2 := by
  unfold current
  dsimp only
  split
  · exact .refl store
  · exact ⟨rfl, rfl, rfl⟩

/-- Reading leaves alone how the close of a source ends. -/
theorem closeFault_read (source : ByteSource) (room : Nat) :
    (source.read room).2.closeFault = source.closeFault := by
  unfold ByteSource.read
  dsimp only
  split
  · rfl
  · split
    · rfl
    · split <;> rfl

/-- Filling a buffer leaves alone how the close of a source ends. -/
theorem closeFault_fill (reads room : Nat) (source : ByteSource) :
    (ByteSource.fill reads room source).2.closeFault = source.closeFault := by
  induction reads generalizing room source with
  | zero => rfl
  | succ reads ih =>
    have hread := closeFault_read source room
    unfold ByteSource.fill
    split
    next heq =>
      rw [heq] at hread
      exact hread
    next heq =>
      rw [heq] at hread
      split
      · exact hread
      · exact (ih _ _).trans hread

/-- Reading goes on with the same failure of closing. -/
theorem closesAlike_readWith {read : ByteSource → Except String (List UInt8) × ByteSource}
    (hread : ∀ source, (read source).2.closeFault = source.closeFault)
    (stream : Handle .byteStream) (store : Store) :
    ClosesAlike (.byteStream stream) store (readWith read stream store).2 := by
  unfold readWith
  dsimp only
  split
  · exact .refl store
  · refine closesAlike_byteStream ?_
    exact rel_get_set (fun _ => ⟨rfl, rfl, rfl⟩) ⟨rfl, rfl, hread _⟩ stream

end Sluice.Store
