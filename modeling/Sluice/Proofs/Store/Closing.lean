import Sluice.Proofs.Store.Release

/-!
# How often sources are closed

The underlying close of an iterator or a byte stream is called at the moment when the source is
closed and never again, whatever else happens to the store (`Continues`). So between two stores it
is called at most once, and not at all if the source was closed before (`Steps.closes_le`).
-/

namespace Sluice.Store

/-- Whether a source exists. -/
def Has (store : Store) : Source → Prop
  | .iterator handle => handle.index < store.iterators.size
  | .byteStream handle => handle.index < store.byteStreams.size

/-- How often the underlying close of a source has been called. -/
def closes (store : Store) : Source → Nat
  | .iterator handle => (store.iterators.get handle).closes
  | .byteStream handle => (store.byteStreams.get handle).closes

/-- How often the underlying close of a source will have been called once it is closed. -/
def closesInAll (store : Store) (source : Source) : Nat :=
  store.closes source + if store.isClosed source then 0 else 1

/-- A source that does not exist reads as one that is closed. -/
theorem closes_of_not_has {store : Store} {source : Source} (h : ¬ store.Has source) :
    store.closes source = 0 ∧ store.isClosed source = true := by
  cases source with
  | iterator handle =>
    have hdefault := Table.get_of_size_le (Nat.le_of_not_lt h)
    simp only [closes, isClosed, isIteratorClosed, hdefault]
    exact ⟨rfl, rfl⟩
  | byteStream handle =>
    have hdefault := Table.get_of_size_le (Nat.le_of_not_lt h)
    simp only [closes, isClosed, isByteStreamClosed, hdefault]
    exact ⟨rfl, rfl⟩

/-- What a step does to the byte streams: nothing, or it goes on with an open one, or it closes an
open one. -/
inductive ByteStreamStep (store after : Store) : Prop
  | keep : after.byteStreams = store.byteStreams → ByteStreamStep store after
  | read (stream : Handle .byteStream) (cell : ByteStream) :
      cell.closed = (store.byteStreams.get stream).closed →
      cell.closes = (store.byteStreams.get stream).closes →
      after.byteStreams = store.byteStreams.set stream cell → ByteStreamStep store after
  | close (stream : Handle .byteStream) (cell : ByteStream) :
      (store.byteStreams.get stream).closed = false → cell.closed = true →
      cell.closes = (store.byteStreams.get stream).closes + 1 →
      after.byteStreams = store.byteStreams.set stream cell → ByteStreamStep store after

/-- Every step does one of these to the byte streams. -/
theorem Step.byteStreamStep {store after : Store} (h : Step store after) :
    ByteStreamStep store after := by
  cases h with
  | fetched | elapse | cancel | newLink | lookUp | iterateArray | iterateMap | newStream =>
    exact .keep rfl
  | resolve link value =>
    refine .keep ?_
    simp only [Store.resolve]
    split <;> rfl
  | advance iterator =>
    refine .keep ?_
    simp only [Store.advance]
    split
    · rfl
    · split <;> rfl
  | current iterator =>
    refine .keep ?_
    simp only [Store.current]
    split <;> rfl
  | closeIterator iterator =>
    refine .keep ?_
    simp only [Store.closeIterator]
    split <;> rfl
  | pull stream =>
    refine .keep ?_
    simp only [Store.pull]
    split <;> rfl
  | readWith read stream =>
    simp only [Store.readWith]
    split
    · exact .keep rfl
    · exact .read stream { store.byteStreams.get stream with
        source := (read (store.byteStreams.get stream).source).2 } rfl rfl rfl
  | closeByteStream stream =>
    simp only [Store.closeByteStream]
    split
    case isTrue hclosed => exact .keep rfl
    case isFalse hopen => exact .close stream _ (by simpa using hopen) rfl rfl rfl

/-- What happens to a source that exists: it stays, and the underlying close is called when the
source is closed and only then. -/
structure Continues (store after : Store) (source : Source) : Prop where
  has : after.Has source
  closesInAll_eq : after.closesInAll source = store.closesInAll source
  closes_le : store.closes source ≤ after.closes source

/-- A source continues over two stretches if it does so over each. -/
theorem Continues.trans {store middle after : Store} {source : Source}
    (h : Continues store middle source) (hnext : Continues middle after source) :
    Continues store after source :=
  ⟨hnext.has, hnext.closesInAll_eq.trans h.closesInAll_eq,
    Nat.le_trans h.closes_le hnext.closes_le⟩

/-- What relates an old cell to the new one in its place relates every old cell to the new one. -/
theorem rel_get_set {resource : Resource} {α : Type} [Inhabited α] {table : Table resource α}
    {handle : Handle resource} {cell : α} {R : α → α → Prop} (hrefl : ∀ a, R a a)
    (h : R (table.get handle) cell) (other : Handle resource) :
    R (table.get other) ((table.set handle cell).get other) := by
  by_cases heq : other = handle
  · subst heq
    rcases Nat.lt_or_ge other.index table.size with hlt | hge
    · rwa [Table.get_set_self hlt]
    · rw [Table.get_of_size_le hge, Table.get_of_size_le (by rwa [Table.size_set])]
      exact hrefl _
  · rw [Table.get_set_of_ne _ heq]
    exact hrefl _

/-- Whether one cell of an iterator follows another as a step lets them. -/
def IteratorFollows (cell next : Iterator) : Prop :=
  (next.closes + (if next.cursor.closed then 0 else 1) =
    cell.closes + if cell.cursor.closed then 0 else 1) ∧ cell.closes ≤ next.closes

/-- Whether one cell of a byte stream follows another as a step lets them. -/
def ByteStreamFollows (cell next : ByteStream) : Prop :=
  (next.closes + (if next.closed then 0 else 1) =
    cell.closes + if cell.closed then 0 else 1) ∧ cell.closes ≤ next.closes

/-- A step keeps the iterators that there are and may add one. -/
theorem Step.follows_iterator {store after : Store} (h : Step store after)
    (iterator : Handle .iterator) :
    IteratorFollows (store.iterators.get iterator) (after.iterators.get iterator) ∧
        store.iterators.size ≤ after.iterators.size ∨
      ¬ store.Has (.iterator iterator) ∧ after.closesInAll (.iterator iterator) = 1 := by
  have hrefl (cell : Iterator) : IteratorFollows cell cell := ⟨rfl, Nat.le_refl _⟩
  cases h.iteratorStep with
  | keep hiterators _ =>
    rw [hiterators]
    exact .inl ⟨hrefl _, Nat.le_refl _⟩
  | advance other cell hopen hcell hcloses hiterators _ =>
    rw [hiterators, Table.size_set]
    refine .inl ⟨rel_get_set hrefl ⟨?_, ?_⟩ iterator, Nat.le_refl _⟩
    · rw [hopen, hcell, hcloses]
    · exact Nat.le_of_eq hcloses.symm
  | close other cell hopen hcell hcloses hiterators _ =>
    rw [hiterators, Table.size_set]
    refine .inl ⟨rel_get_set hrefl ⟨?_, ?_⟩ iterator, Nat.le_refl _⟩
    · simp [hopen, hcell, hcloses]
    · omega
  | obtain cell hopen hcloses hiterators _ =>
    by_cases hnew : iterator = (store.iterators.push cell).1
    · refine .inr ⟨?_, ?_⟩
      · simp [Has, hnew, Table.push, Table.size]
      · have hcell : after.iterators.get iterator = cell := by
          rw [hiterators, hnew, Table.get_push_self]
        simp [closesInAll, closes, isClosed, isIteratorClosed, hcell, hopen, hcloses]
    · rw [hiterators, Table.get_push_of_ne hnew, Table.size_push]
      exact .inl ⟨hrefl _, Nat.le_succ _⟩

/-- A step keeps the byte streams that there are and adds none. -/
theorem Step.follows_byteStream {store after : Store} (h : Step store after)
    (stream : Handle .byteStream) :
    ByteStreamFollows (store.byteStreams.get stream) (after.byteStreams.get stream) ∧
      store.byteStreams.size = after.byteStreams.size := by
  have hrefl (cell : ByteStream) : ByteStreamFollows cell cell := ⟨rfl, Nat.le_refl _⟩
  cases h.byteStreamStep with
  | keep hstreams =>
    rw [hstreams]
    exact ⟨hrefl _, rfl⟩
  | read other cell hclosed hcloses hstreams =>
    rw [hstreams, Table.size_set]
    refine ⟨rel_get_set hrefl ⟨?_, ?_⟩ stream, rfl⟩
    · rw [hclosed, hcloses]
    · exact Nat.le_of_eq hcloses.symm
  | close other cell hopen hcell hcloses hstreams =>
    rw [hstreams, Table.size_set]
    refine ⟨rel_get_set hrefl ⟨?_, ?_⟩ stream, rfl⟩
    · simp [hopen, hcell, hcloses]
    · omega

/-- A step lets every source that exists go on. -/
theorem Step.continues {store after : Store} (h : Step store after) {source : Source}
    (hhas : store.Has source) : Continues store after source := by
  cases source with
  | iterator iterator =>
    rcases h.follows_iterator iterator with ⟨⟨hall, hle⟩, hsize⟩ | ⟨hout, _⟩
    · exact ⟨Nat.lt_of_lt_of_le hhas hsize, hall, hle⟩
    · exact absurd hhas hout
  | byteStream stream =>
    obtain ⟨⟨hall, hle⟩, hsize⟩ := h.follows_byteStream stream
    exact ⟨Nat.lt_of_lt_of_eq hhas hsize, hall, hle⟩

/-- A source that exists continues, whatever happens to the store. -/
theorem Steps.continues {store after : Store} (h : Steps store after) {source : Source}
    (hhas : store.Has source) : Continues store after source := by
  induction h with
  | refl => exact ⟨hhas, rfl, Nat.le_refl _⟩
  | tail _ hstep ih => exact ih.trans (hstep.continues ih.has)

/-- The underlying close of a source that is added on the way is called at most once. -/
theorem Steps.closesInAll_le_one {store after : Store} (h : Steps store after) {source : Source}
    (hout : ¬ store.Has source) : after.closesInAll source ≤ 1 := by
  induction h with
  | refl =>
    obtain ⟨hcloses, hclosed⟩ := closes_of_not_has hout
    simp [closesInAll, hcloses, hclosed]
  | tail _ hstep ih =>
    cases source with
    | iterator iterator =>
      rcases hstep.follows_iterator iterator with ⟨⟨hall, _⟩, _⟩ | ⟨_, hone⟩
      · exact Nat.le_trans (Nat.le_of_eq hall) ih
      · exact Nat.le_of_eq hone
    | byteStream stream =>
      exact Nat.le_trans (Nat.le_of_eq (hstep.follows_byteStream stream).1.1) ih

/-- On the way from one store to a later one the underlying close of each source is called at most
once, and not at all if the source was closed before. -/
theorem Steps.closes_le {store after : Store} (h : Steps store after) (source : Source) :
    after.closes source ≤ store.closes source + 1 ∧
      (store.Has source → store.isClosed source = true →
        after.closes source = store.closes source) := by
  by_cases hhas : store.Has source
  · obtain ⟨_, hall, hle⟩ := h.continues hhas
    unfold closesInAll at hall
    refine ⟨?_, fun _ hclosed => ?_⟩
    · split at hall <;> split at hall <;> omega
    · rw [if_pos hclosed] at hall
      split at hall <;> omega
  · have hle := h.closesInAll_le_one hhas
    unfold closesInAll at hle
    exact ⟨by omega, fun hnow => absurd hnow hhas⟩

end Sluice.Store
