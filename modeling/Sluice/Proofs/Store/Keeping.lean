import Sluice.Proofs.Store.Release
import Sluice.Proofs.Store.Scope

/-!
# What becomes of iterators

An iterator is kept as long as it is closed or can be reached from a value that somebody holds
(`Store.Kept`). An operation uses values and makes others. It loses no iterator if, whatever else is
held, what was kept with the used values is kept with those that it makes (`Store.Keeps`).
-/

namespace Sluice

namespace Store

/-- Whether an iterator is closed or can be reached from one of several values. -/
def Kept (store : Store) (iterator : Handle .iterator) (values : List Value) : Prop :=
  store.isIteratorClosed iterator = true ∨
    ∃ value ∈ values, store.Reachable (.iterator iterator) value

/-- An iterator that is kept with some values is kept with more. -/
theorem Kept.mono {store : Store} {iterator : Handle .iterator} {values others : List Value}
    (h : store.Kept iterator values) (hsubset : values ⊆ others) : store.Kept iterator others :=
  h.imp_right fun ⟨value, hmem, hreach⟩ => ⟨value, hsubset hmem, hreach⟩

/-- Whether between two stores no iterator is lost, where some values are used and others made, and
anything else may be held all the time. -/
def Keeps (store after : Store) (used made : List Value) : Prop :=
  ∀ ⦃iterator held⦄, store.Kept iterator (used ++ held) → after.Kept iterator (made ++ held)

namespace Keeps

variable {store middle after : Store} {used made last fewer more : List Value}

/-- It is enough that each iterator is kept that was closed, or that could be reached from a used
value, or from any value that is held on. -/
theorem intro
    (hclosed : ∀ iterator, store.isIteratorClosed iterator = true → after.Kept iterator made)
    (hused : ∀ iterator, ∀ value ∈ used, store.Reachable (.iterator iterator) value →
      after.Kept iterator made)
    (hheld : ∀ iterator value, store.Reachable (.iterator iterator) value →
      after.Kept iterator made ∨ after.Reachable (.iterator iterator) value) :
    Keeps store after used made := by
  rintro iterator held (hstore | ⟨value, hmem, hreach⟩)
  · exact (hclosed iterator hstore).mono (List.subset_append_left _ _)
  · rcases List.mem_append.mp hmem with hmem | hmem
    · exact (hused iterator value hmem hreach).mono (List.subset_append_left _ _)
    · rcases hheld iterator value hreach with hmade | hafter
      · exact hmade.mono (List.subset_append_left _ _)
      · exact Or.inr ⟨value, List.mem_append_right _ hmem, hafter⟩

/-- A store loses no iterator to itself. -/
theorem refl (store : Store) (values : List Value) : Keeps store store values values :=
  fun _ _ => id

/-- No iterator is lost if none is lost on the way. -/
theorem trans (h : Keeps store middle used made) (hnext : Keeps middle after made last) :
    Keeps store after used last := fun _ _ hkept => hnext (h hkept)

/-- More values stay more beside others. -/
theorem append_subset_append (h : fewer ⊆ more) (others : List Value) :
    fewer ++ others ⊆ more ++ others :=
  List.append_subset.mpr ⟨List.subset_append_of_subset_left _ h, List.subset_append_right _ _⟩

/-- Fewer values may be used. -/
theorem anti (h : Keeps store after used made) (hused : fewer ⊆ used) :
    Keeps store after fewer made := fun _ _ hkept => h (hkept.mono (append_subset_append hused _))

/-- More values may be made. -/
theorem mono (h : Keeps store after used made) (hmade : made ⊆ more) :
    Keeps store after used more := fun _ _ hkept => (h hkept).mono (append_subset_append hmade _)

/-- Holding more values loses no iterator. -/
theorem of_subset (h : used ⊆ made) : Keeps store store used made := (refl store used).mono h

/-- What is held besides is kept as well. -/
theorem frame (h : Keeps store after used made) (others : List Value) :
    Keeps store after (used ++ others) (made ++ others) := by
  intro iterator held hkept
  rw [List.append_assoc] at hkept ⊢
  exact h hkept

/-- Values may be replaced by others that reach as much. -/
theorem of_reachable (h : ∀ iterator, ∀ value ∈ used, store.Reachable (.iterator iterator) value →
    ∃ other ∈ made, store.Reachable (.iterator iterator) other) : Keeps store store used made :=
  .intro (fun _ => Or.inl) (fun iterator value hmem hreach => Or.inr (h iterator value hmem hreach))
    fun _ _ => Or.inr

/-- The items of a sequence keep what the sequence keeps. -/
theorem of_sequence (store : Store) (items : List Value) :
    Keeps store store [.sequence items] items :=
  .of_reachable (by simp)

/-- A sequence keeps what its items keep. -/
theorem sequence (store : Store) (items : List Value) :
    Keeps store store items [.sequence items] :=
  .of_reachable fun iterator item hmem hreach => by simpa using ⟨item, hmem, hreach⟩

/-- The values of a mapping keep what the mapping keeps. -/
theorem of_mapping (store : Store) (entries : List (String × Value)) :
    Keeps store store [.mapping entries] (entries.map (·.2)) :=
  .of_reachable fun iterator value hmem hreach => by
    rwa [List.mem_singleton.mp hmem, reachable_mapping_iff_sequence,
      reachable_sequence_iff] at hreach

/-- The keys and values of a dict keep what the dict keeps. -/
theorem of_dict (store : Store) (entries : List (Value × Value)) :
    Keeps store store [.dict entries] (dictParts entries) :=
  .of_reachable fun iterator value hmem hreach => by
    rwa [List.mem_singleton.mp hmem, reachable_dict_iff_sequence, reachable_sequence_iff] at hreach

/-- What closes no iterator, obtains none and leaves streams alone loses none. -/
theorem of_eq (hstreams : after.streams = store.streams)
    (hclosed : ∀ iterator, store.isIteratorClosed iterator = true →
      after.isIteratorClosed iterator = true) : Keeps store after [] [] := by
  refine .intro (fun iterator hstore => Or.inl (hclosed iterator hstore)) (by simp)
    fun iterator value hreach => Or.inr (hreach.mono fun stream element hmem => ?_)
  rwa [remaining, hstreams]

/-- What leaves iterators and streams alone loses no iterator. -/
theorem of_iterators_eq (hstreams : after.streams = store.streams)
    (hiterators : after.iterators = store.iterators) : Keeps store after [] [] :=
  .of_eq hstreams fun iterator hstore => by rwa [isIteratorClosed, hiterators]

/-- A new iterator is held by whoever asked for it. -/
theorem of_push {cell : Iterator} (hstreams : after.streams = store.streams)
    (hiterators : after.iterators = (store.iterators.push cell).2) :
    Keeps store after [] [.iterator (store.iterators.push cell).1] := by
  refine .intro (fun iterator hstore => ?_) (by simp) fun iterator value hreach =>
    Or.inr (hreach.mono fun stream element hmem => ?_)
  · by_cases hnew : iterator = (store.iterators.push cell).1
    · exact Or.inr ⟨_, List.mem_singleton_self _, by simp [hnew]⟩
    · left
      rw [isIteratorClosed, hiterators, Table.get_push_of_ne hnew]
      exact hstore
  · rwa [remaining, hstreams]

/-- What is released is closed, so it need not be held any more. -/
theorem of_releases {released : Source → Prop} (h : Releases store after released)
    (hused : ∀ iterator, ∀ value ∈ used, store.Reachable (.iterator iterator) value →
      released (.iterator iterator)) : Keeps store after used [] := by
  have hclosed (iterator : Handle .iterator) (hreleased : released (.iterator iterator)) :
      after.Kept iterator [] := Or.inl ((h.closed _).mpr (Or.inr hreleased))
  refine .intro
    (fun iterator hstore => Or.inl ((h.closed (.iterator iterator)).mpr (Or.inl hstore)))
    (fun iterator value hmem hreach => hclosed iterator (hused iterator value hmem hreach))
    fun iterator value hreach => ?_
  exact (h.keeps _ value hreach).symm.imp_left (hclosed iterator)

/-- The flat values take the place of the values. -/
theorem of_flattens {values flats : List Value} (h : Flattens store after values flats) :
    Keeps store after values flats := by
  have hflat (iterator : Handle .iterator)
      (hreach : after.Reachable (.iterator iterator) (.sequence flats)) :
      after.Kept iterator flats := Or.inr (reachable_sequence_iff.mp hreach)
  refine .intro (fun iterator hstore => Or.inl ((h.closed (.iterator iterator)).trans hstore))
    (fun iterator value hmem hreach => hflat iterator ?_) fun iterator value hreach => ?_
  · rw [h.reaches]
    exact .item hmem hreach
  · exact (h.keeps _ value hreach).symm.imp_left (hflat iterator)

/-- Advancing loses no iterator, since it closes none and takes none away. -/
theorem advance (store : Store) (iterator : Handle .iterator) :
    Keeps store (store.advance iterator).2 [] [] := by
  simp only [Store.advance]
  split
  case isTrue => exact .refl store []
  case isFalse hopen =>
    have hne {other : Handle .iterator} (hother : store.isIteratorClosed other = true) :
        other ≠ iterator := by
      rintro rfl
      exact hopen hother
    split <;> exact .of_eq rfl fun other hother => by
      rw [isIteratorClosed, Table.get_set_of_ne _ (hne hother)]
      exact hother

/-- An iterator that is closed need not be held any more. -/
theorem closeIterator (store : Store) (iterator : Handle .iterator) :
    Keeps store (store.closeIterator iterator).2 [.iterator iterator] [] := by
  refine .of_releases (releases_closeHandle (.iterator iterator) store)
    fun other value hmem hreach => ?_
  obtain rfl := List.mem_singleton.mp hmem
  rw [reachable_iterator_iff.mp hreach, Source.value]

/-- The elements of a new stream can be reached from it. -/
theorem newStream (store : Store) (shape : LazyStream.Shape) (elements : List Value) :
    Keeps store (store.newStream shape elements).2 elements
      [.stream (store.newStream shape elements).1] := by
  have hnew : (store.newStream shape elements).2.remaining (store.newStream shape elements).1 =
      elements := remaining_newStream store shape elements rfl
  have hmore (stream : Handle .stream) (element : Value) (hmem : element ∈ store.remaining stream) :
      element ∈ (store.newStream shape elements).2.remaining stream := by
    have hne : stream.index ≠ store.streams.size := by
      intro heq
      rw [remaining_of_size_le (Nat.le_of_eq heq.symm)] at hmem
      exact absurd hmem List.not_mem_nil
    rwa [remaining_newStream_of_ne store shape elements hne]
  refine .intro (fun iterator => Or.inl) (fun iterator element hmem hreach => Or.inr ?_)
    fun iterator value hreach => Or.inr (hreach.mono hmore)
  exact ⟨_, List.mem_singleton_self _, .element (by rwa [hnew]) (hreach.mono hmore)⟩

/-- What is pulled is held by whoever pulled it. -/
theorem of_pull {stream : Handle .stream} {element : Value}
    (h : store.pull stream = (some element, after)) : Keeps store after [] [element] := by
  obtain ⟨_, _, _, hclosed⟩ := pull_some h
  refine .intro (fun iterator hstore => Or.inl ((hclosed (.iterator iterator)).trans hstore))
    (by simp) fun iterator value hreach => ?_
  exact ((Drains.of_pull h).keeps _ value hreach).symm.imp_left fun htaken =>
    Or.inr ⟨element, List.mem_singleton_self _, htaken⟩

end Keeps

/-- A stream that there is stays, and loses elements from the front only. -/
theorem remaining_suffix_of_steps {store after : Store} (h : Steps store after)
    {stream : Handle .stream} (hbound : stream.index < store.streams.size) :
    stream.index < after.streams.size ∧ after.remaining stream <:+ store.remaining stream := by
  induction h with
  | refl => exact ⟨hbound, List.suffix_refl _⟩
  | @tail middle after _ hstep ih =>
    obtain ⟨hmiddle, hsuffix⟩ := ih
    cases hstep.streamStep with
    | keep hstreams =>
      rw [hstreams, remaining, hstreams]
      exact ⟨hmiddle, hsuffix⟩
    | add shape elements hafter =>
      rw [hafter, size_newStream, remaining_newStream_of_ne _ _ _ (by omega)]
      exact ⟨by omega, hsuffix⟩
    | pull other hafter =>
      rw [hafter, size_pull]
      refine ⟨hmiddle, List.IsSuffix.trans ?_ hsuffix⟩
      by_cases hother : stream = other
      · subst hother
        rw [remaining_pull]
        exact List.tail_suffix _
      · exact remaining_pull_of_ne middle hother ▸ List.suffix_refl _

end Store

end Sluice
