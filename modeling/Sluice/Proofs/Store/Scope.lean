import Mathlib.Tactic.Common
import Sluice.Store.Iterator
import Sluice.Store.ByteStream
import Sluice.Store.LazyStream
import Sluice.Store.Link

/-!
# Streams hold older values

Nothing in a store refers to a stream that is yet to be made, and the elements of a stream are
older than it is (`Store.Scoped`). So streams never lie inside each other in a circle, whatever
evaluation makes.
-/

namespace Sluice

mutual

/-- A number above that of every stream in a value. -/
def Value.streamBound : Value → Nat
  | .stream handle => handle.index + 1
  | .sequence items => Value.itemsBound items
  | .mapping entries => Value.mappingBound entries
  | .dict entries => Value.dictBound entries
  | _ => 0
termination_by structural value => value

/-- A number above that of every stream in a list of values. -/
def Value.itemsBound : List Value → Nat
  | [] => 0
  | item :: rest => max (Value.streamBound item) (Value.itemsBound rest)
termination_by structural items => items

/-- A number above that of every stream in the entries of a mapping. -/
def Value.mappingBound : List (String × Value) → Nat
  | [] => 0
  | (_, value) :: rest => max (Value.streamBound value) (Value.mappingBound rest)
termination_by structural entries => entries

/-- A number above that of every stream in the entries of a dict. -/
def Value.dictBound : List (Value × Value) → Nat
  | [] => 0
  | (key, value) :: rest =>
    max (max (Value.streamBound key) (Value.streamBound value)) (Value.dictBound rest)
termination_by structural entries => entries

end

namespace Value

variable {count : Nat}

/-- A stream is one of the first so many if its index is below that. -/
@[simp] theorem streamBound_stream_le {stream : Handle .stream} :
    (Value.stream stream).streamBound ≤ count ↔ stream.index < count := Nat.succ_le_iff

/-- A sequence refers to the first so many streams if each item does. -/
@[simp] theorem streamBound_sequence_le {items : List Value} :
    (Value.sequence items).streamBound ≤ count ↔ ∀ item ∈ items, item.streamBound ≤ count := by
  rw [streamBound]
  induction items with
  | nil => simp [itemsBound]
  | cons item rest ih => simp only [itemsBound, Nat.max_le, ih, List.forall_mem_cons]

/-- A mapping refers to the first so many streams if each value does. -/
@[simp] theorem streamBound_mapping_le {entries : List (String × Value)} :
    (Value.mapping entries).streamBound ≤ count ↔
      ∀ entry ∈ entries, entry.2.streamBound ≤ count := by
  rw [streamBound]
  induction entries with
  | nil => simp [mappingBound]
  | cons entry rest ih => simp only [mappingBound, Nat.max_le, ih, List.forall_mem_cons]

/-- A dict refers to the first so many streams if each key and each value does. -/
@[simp] theorem streamBound_dict_le {entries : List (Value × Value)} :
    (Value.dict entries).streamBound ≤ count ↔
      ∀ entry ∈ entries, entry.1.streamBound ≤ count ∧ entry.2.streamBound ≤ count := by
  rw [streamBound]
  induction entries with
  | nil => simp [dictBound]
  | cons entry rest ih => simp only [dictBound, Nat.max_le, ih, List.forall_mem_cons, and_assoc]

end Value

/-- Whether an iterator gives only values that refer to the first so many streams. -/
structure Iterator.Within (count : Nat) (cell : Iterator) : Prop where
  rest : ∀ value ∈ cell.cursor.rest, value.streamBound ≤ count
  current : ∀ position value, cell.cursor.current = some (position, value) →
    value.streamBound ≤ count

/-- What refers to the first few streams refers to the first few more. -/
theorem Iterator.Within.mono {count other : Nat} {cell : Iterator} (h : cell.Within count)
    (hle : count ≤ other) : cell.Within other :=
  ⟨fun value hvalue => Nat.le_trans (h.rest value hvalue) hle,
    fun position value hvalue => Nat.le_trans (h.current position value hvalue) hle⟩

/-- A closed iterator without values refers to no stream. -/
theorem Iterator.within_default (count : Nat) : (default : Iterator).Within count :=
  ⟨by simp [default], by simp [default]⟩

/-- Advancing an iterator gives no values that it did not have. -/
theorem Iterator.Within.next {count : Nat} {cell : Iterator} (h : cell.Within count)
    (advances : Nat) :
    { cell with cursor := cell.cursor.next.2, advances := advances : Iterator }.Within count := by
  unfold Cursor.next
  split
  · exact ⟨h.rest, h.current⟩
  · split
    case h_1 => exact ⟨h.rest, by simp⟩
    case h_2 value rest hrest =>
      have hle := h.rest
      rw [hrest] at hle
      refine ⟨fun value hvalue => hle value (List.mem_cons_of_mem _ hvalue), ?_⟩
      intro position other hcurrent
      obtain ⟨_, rfl⟩ : _ ∧ value = other := by simpa using hcurrent
      exact hle value List.mem_cons_self

namespace Store

/-- Whether everything that a store holds refers only to streams that exist, and the elements of
each stream only to older ones. -/
structure Scoped (store : Store) : Prop where
  target : ∀ link target, store.linkTarget? link = some target →
    target.streamBound ≤ store.streams.size
  entry : ∀ map, ∀ entry ∈ (store.maps.get map).entries, entry.2.streamBound ≤ store.streams.size
  element : ∀ array, ∀ element ∈ (store.arrays.get array).elements,
    element.streamBound ≤ store.streams.size
  iterator : ∀ iterator, (store.iterators.get iterator).Within store.streams.size
  older : ∀ stream, ∀ element ∈ store.remaining stream, element.streamBound ≤ stream.index

/-- What evaluation does to a scoped store whose links are resolved. -/
structure Grows (store after : Store) : Prop where
  links_eq : after.links = store.links
  scope : after.Scoped
  size_le : store.streams.size ≤ after.streams.size

/-- A scoped store grows by nothing. -/
theorem Grows.refl {store : Store} (h : store.Scoped) : Grows store store :=
  ⟨rfl, h, Nat.le_refl _⟩

/-- A store grows step by step. -/
theorem Grows.trans {store middle after : Store} (h : Grows store middle)
    (hnext : Grows middle after) : Grows store after :=
  ⟨hnext.links_eq.trans h.links_eq, hnext.scope, Nat.le_trans h.size_le hnext.size_le⟩

/-- A change of the journal, the switches, the byte streams and the iterators keeps a store
scoped, if the new iterators do not refer to other streams. -/
theorem Scoped.grows_of_eq {store after : Store} (h : store.Scoped)
    (hlinks : after.links = store.links) (hmaps : after.maps = store.maps)
    (harrays : after.arrays = store.arrays) (hstreams : after.streams = store.streams)
    (hiterators : ∀ iterator, (after.iterators.get iterator).Within store.streams.size) :
    Grows store after := by
  refine ⟨hlinks, ⟨?_, ?_, ?_, ?_, ?_⟩, Nat.le_of_eq (by rw [hstreams])⟩
  · simpa only [linkTarget?, hlinks, hstreams] using h.target
  · simpa only [hmaps, hstreams] using h.entry
  · simpa only [harrays, hstreams] using h.element
  · simpa only [hstreams] using hiterators
  · simpa only [remaining, hstreams] using h.older

/-- A new iterator that is within bounds leaves all within bounds. -/
theorem within_push {count : Nat} {iterators : Table .iterator Iterator} {cell : Iterator}
    (h : ∀ iterator, (iterators.get iterator).Within count) (hcell : cell.Within count)
    (iterator : Handle .iterator) : ((iterators.push cell).2.get iterator).Within count := by
  by_cases hnew : iterator = (iterators.push cell).1
  · rw [hnew, Table.get_push_self]
    exact hcell
  · rw [Table.get_push_of_ne hnew]
    exact h iterator

/-- Replacing an iterator by one within bounds leaves all within bounds. -/
theorem within_set {count : Nat} {iterators : Table .iterator Iterator} {cell : Iterator}
    {handle : Handle .iterator} (h : ∀ iterator, (iterators.get iterator).Within count)
    (hcell : cell.Within count) (iterator : Handle .iterator) :
    ((iterators.set handle cell).get iterator).Within count := by
  by_cases hother : iterator = handle
  · subst hother
    rcases Nat.lt_or_ge iterator.index iterators.size with hlt | hge
    · rw [Table.get_set_self hlt]
      exact hcell
    · rw [Table.get_of_size_le (by rwa [Table.size_set])]
      exact Iterator.within_default count
  · rw [Table.get_set_of_ne _ hother]
    exact h iterator

section Operations

variable {store : Store}

/-- Iterating a collection keeps a store scoped. -/
theorem Scoped.grows_iterateArray (h : store.Scoped) (array : Handle .array) :
    Grows store (store.iterateArray array).2 := by
  refine h.grows_of_eq rfl rfl rfl rfl (within_push h.iterator ?_)
  exact ⟨h.element array, by simp [Cursor.ofValues]⟩

/-- Iterating a map keeps a store scoped. -/
theorem Scoped.grows_iterateMap (h : store.Scoped) (map : Handle .map) :
    Grows store (store.iterateMap map).2 := by
  refine h.grows_of_eq rfl rfl rfl rfl (within_push h.iterator ?_)
  refine ⟨fun value hvalue => ?_, by simp [Cursor.ofValues]⟩
  obtain ⟨entry, hentry, rfl⟩ := List.mem_map.mp hvalue
  exact h.entry map entry hentry

/-- Looking up a key keeps a store scoped. -/
theorem Scoped.grows_lookUp (h : store.Scoped) (map : Handle .map) (key : String) :
    Grows store (store.lookUp map key).2 := h.grows_of_eq rfl rfl rfl rfl h.iterator

/-- Advancing an iterator keeps a store scoped. -/
theorem Scoped.grows_advance (h : store.Scoped) (iterator : Handle .iterator) :
    Grows store (store.advance iterator).2 := by
  unfold advance
  simp only
  split
  · exact .refl h
  · have hcell := (h.iterator iterator).next ((store.iterators.get iterator).advances + 1)
    have hiterators (other : Handle .iterator) :
        ((store.iterators.set iterator _).get other).Within store.streams.size :=
      within_set h.iterator hcell other
    split <;> exact h.grows_of_eq rfl rfl rfl rfl hiterators

/-- Reading an iterator keeps a store scoped. -/
theorem Scoped.grows_current (h : store.Scoped) (iterator : Handle .iterator) :
    Grows store (store.current iterator).2 := by
  unfold current
  simp only
  split
  · exact .refl h
  · exact h.grows_of_eq rfl rfl rfl rfl h.iterator

/-- Closing an iterator keeps a store scoped. -/
theorem Scoped.grows_closeIterator (h : store.Scoped) (iterator : Handle .iterator) :
    Grows store (store.closeIterator iterator).2 := by
  unfold closeIterator
  simp only
  split
  · exact .refl h
  · exact h.grows_of_eq rfl rfl rfl rfl (within_set h.iterator
      ⟨(h.iterator iterator).rest, (h.iterator iterator).current⟩)

/-- Reading bytes keeps a store scoped. -/
theorem Scoped.grows_readWith (h : store.Scoped)
    (read : ByteSource → Except String (List UInt8) × ByteSource) (stream : Handle .byteStream) :
    Grows store (store.readWith read stream).2 := by
  unfold readWith
  simp only
  split
  · exact .refl h
  · exact h.grows_of_eq rfl rfl rfl rfl h.iterator

/-- Closing a byte stream keeps a store scoped. -/
theorem Scoped.grows_closeByteStream (h : store.Scoped) (stream : Handle .byteStream) :
    Grows store (store.closeByteStream stream).2 := by
  unfold closeByteStream
  simp only
  split
  · exact .refl h
  · exact h.grows_of_eq rfl rfl rfl rfl h.iterator

/-- A value read from an iterator is one of its values. -/
theorem Scoped.streamBound_current (h : store.Scoped) {iterator : Handle .iterator} {value : Value}
    (hvalue : (store.current iterator).1 = .ok value) :
    value.streamBound ≤ store.streams.size := by
  unfold current at hvalue
  simp only at hvalue
  split at hvalue
  · cases hvalue
  · simp only at hvalue
    split at hvalue
    · cases hvalue
    · unfold Cursor.scan at hvalue
      split at hvalue
      · cases hvalue
      · split at hvalue
        case h_1 => cases hvalue
        case h_2 position other hcurrent =>
          cases hvalue
          exact (h.iterator iterator).current position _ hcurrent

/-- What is found under a name is null or the value of an entry. -/
theorem entryUnder_eq_null_or_mem (name : String) (entries : List (Value × Value)) :
    entryUnder name entries = .null ∨ ∃ entry ∈ entries, entryUnder name entries = entry.2 := by
  unfold entryUnder
  split
  case h_1 entry value hfound => exact Or.inr ⟨_, List.mem_of_find?_eq_some hfound, rfl⟩
  case h_2 => exact Or.inl rfl

/-- What is looked up refers to streams that exist. -/
theorem Scoped.streamBound_lookUp (h : store.Scoped) {map : Handle .map} {key : String}
    {value : Value} (hvalue : (store.lookUp map key).1 = .ok value) :
    value.streamBound ≤ store.streams.size := by
  unfold lookUp at hvalue
  simp only at hvalue
  split at hvalue
  · cases hvalue
  · obtain rfl : entryUnder key (store.maps.get map).entries = value := by simpa using hvalue
    rcases entryUnder_eq_null_or_mem key (store.maps.get map).entries with
      hnull | ⟨entry, hmem, heq⟩
    · rw [hnull]
      exact Nat.zero_le _
    · rw [heq]
      exact h.entry map entry hmem

/-- A new stream is one more. -/
theorem size_newStream (store : Store) (shape : LazyStream.Shape) (elements : List Value) :
    (store.newStream shape elements).2.streams.size = store.streams.size + 1 := Table.size_push _ _

/-- A new stream holds the elements it was made from. -/
theorem remaining_newStream (store : Store) (shape : LazyStream.Shape) (elements : List Value)
    {stream : Handle .stream} (h : stream.index = store.streams.size) :
    (store.newStream shape elements).2.remaining stream = elements := by
  have hnew : stream = (store.streams.push ⟨shape, elements⟩).1 := by
    rcases stream with ⟨index⟩
    simpa [Table.push, Table.size] using h
  rw [hnew, remaining, newStream, Table.get_push_self]

/-- A new stream leaves the others as they are. -/
theorem remaining_newStream_of_ne (store : Store) (shape : LazyStream.Shape)
    (elements : List Value) {stream : Handle .stream} (h : stream.index ≠ store.streams.size) :
    (store.newStream shape elements).2.remaining stream = store.remaining stream := by
  have hnew : stream ≠ (store.streams.push ⟨shape, elements⟩).1 := by
    rintro rfl
    exact h rfl
  rw [remaining, newStream, Table.get_push_of_ne hnew, remaining]

/-- A new stream of values that exist keeps the store scoped. -/
theorem Scoped.grows_newStream (h : store.Scoped) (shape : LazyStream.Shape) {elements : List Value}
    (helements : ∀ element ∈ elements, element.streamBound ≤ store.streams.size) :
    Grows store (store.newStream shape elements).2 ∧
      (store.newStream shape elements).1.index <
        (store.newStream shape elements).2.streams.size := by
  have hsize := size_newStream store shape elements
  have hindex : (store.newStream shape elements).1.index = store.streams.size := rfl
  have hle : store.streams.size ≤ store.streams.size + 1 := Nat.le_succ _
  refine ⟨⟨rfl, ⟨?_, ?_, ?_, ?_, ?_⟩, by omega⟩, by omega⟩
  · exact fun link target htarget => hsize ▸ Nat.le_trans (h.target link target htarget) hle
  · exact fun map entry hentry => hsize ▸ Nat.le_trans (h.entry map entry hentry) hle
  · exact fun array element helement => hsize ▸ Nat.le_trans (h.element array element helement) hle
  · exact fun iterator => hsize ▸ (h.iterator iterator).mono hle
  · intro stream element helement
    by_cases heq : stream.index = store.streams.size
    · rw [remaining_newStream store shape elements heq] at helement
      rw [heq]
      exact helements element helement
    · rw [remaining_newStream_of_ne store shape elements heq] at helement
      exact h.older stream element helement

/-- Pulling neither makes nor removes a stream. -/
@[simp] theorem size_pull (store : Store) (stream : Handle .stream) :
    (store.pull stream).2.streams.size = store.streams.size := by
  unfold pull
  simp only
  split
  · rfl
  · exact Table.size_set _ _ _

/-- Pulling leaves links alone. -/
@[simp] theorem links_pull (store : Store) (stream : Handle .stream) :
    (store.pull stream).2.links = store.links := by
  unfold pull
  simp only
  split <;> rfl

/-- Pulling keeps a store scoped. -/
theorem Scoped.grows_pull (h : store.Scoped) (stream : Handle .stream) :
    Grows store (store.pull stream).2 := by
  have hsize := size_pull store stream
  have holder (other : Handle .stream) (element : Value)
      (helement : element ∈ (store.pull stream).2.remaining other) :
      element.streamBound ≤ other.index := by
    by_cases heq : other = stream
    · subst heq
      rw [remaining_pull] at helement
      exact h.older other element (List.mem_of_mem_tail helement)
    · rw [remaining_pull_of_ne _ heq] at helement
      exact h.older other element helement
  have hrest : (store.pull stream).2.maps = store.maps ∧
      (store.pull stream).2.arrays = store.arrays ∧
      (store.pull stream).2.iterators = store.iterators := by
    unfold pull
    simp only
    split <;> exact ⟨rfl, rfl, rfl⟩
  obtain ⟨hmaps, harrays, hiterators⟩ := hrest
  have hlinks := links_pull store stream
  refine ⟨hlinks, ⟨?_, ?_, ?_, ?_, holder⟩, Nat.le_of_eq hsize.symm⟩
  · simpa only [linkTarget?, hlinks, hsize] using h.target
  · simpa only [hmaps, hsize] using h.entry
  · simpa only [harrays, hsize] using h.element
  · simpa only [hiterators, hsize] using h.iterator

end Operations

end Store

end Sluice
