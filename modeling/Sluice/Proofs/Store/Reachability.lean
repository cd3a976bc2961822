import Mathlib.Algebra.GroupWithZero.Nat
import Sluice.Proofs.Store.Steps

/-!
# What can be reached from a value

A value reaches an iterator or a byte stream through the items of sequences, the entries of
mappings and dicts, and the elements that streams still hold (`Store.Reachable`). Taking elements
out of streams moves what they reach from the streams to whoever takes them (`Store.Drains`).
-/

namespace Sluice

/-- Something that has to be closed. -/
inductive Source
  | iterator (handle : Handle .iterator)
  | byteStream (handle : Handle .byteStream)
  deriving DecidableEq

/-- A source as a value. -/
def Source.value : Source → Value
  | iterator handle => .iterator handle
  | byteStream handle => .byteStream handle

namespace Store

/-- Whether a source has been closed. -/
def isClosed (store : Store) : Source → Bool
  | .iterator handle => store.isIteratorClosed handle
  | .byteStream handle => store.isByteStreamClosed handle

/-- Whether a source can be reached from a value. -/
inductive Reachable (store : Store) (source : Source) : Value → Prop
  | self {value : Value} : source.value = value → Reachable store source value
  | item {items : List Value} {item : Value} :
      item ∈ items → Reachable store source item → Reachable store source (.sequence items)
  | entry {entries : List (String × Value)} {entry : String × Value} :
      entry ∈ entries → Reachable store source entry.2 → Reachable store source (.mapping entries)
  | dictKey {entries : List (Value × Value)} {entry : Value × Value} :
      entry ∈ entries → Reachable store source entry.1 → Reachable store source (.dict entries)
  | dictValue {entries : List (Value × Value)} {entry : Value × Value} :
      entry ∈ entries → Reachable store source entry.2 → Reachable store source (.dict entries)
  | element {stream : Handle .stream} {element : Value} :
      element ∈ store.remaining stream → Reachable store source element →
      Reachable store source (.stream stream)

section Inversion

variable {store : Store} {source : Source}

/-- An iterator reaches itself and nothing else. -/
@[simp] theorem reachable_iterator_iff {handle : Handle .iterator} :
    store.Reachable source (.iterator handle) ↔ source = .iterator handle := by
  constructor
  · rintro ⟨hvalue⟩
    cases source <;> cases hvalue
    rfl
  · rintro rfl
    exact .self rfl

/-- A byte stream reaches itself and nothing else. -/
@[simp] theorem reachable_byteStream_iff {handle : Handle .byteStream} :
    store.Reachable source (.byteStream handle) ↔ source = .byteStream handle := by
  constructor
  · rintro ⟨hvalue⟩
    cases source <;> cases hvalue
    rfl
  · rintro rfl
    exact .self rfl

/-- Nothing can be reached through a link. -/
@[simp] theorem not_reachable_link {link : Handle .link} :
    ¬ store.Reachable source (.link link) := by
  rintro ⟨hvalue⟩
  cases source <;> cases hvalue

/-- The elements of an array cannot be reached without asking it for an iterator. -/
@[simp] theorem not_reachable_array {array : Handle .array} :
    ¬ store.Reachable source (.array array) := by
  rintro ⟨hvalue⟩
  cases source <;> cases hvalue

/-- A text reaches nothing. -/
@[simp] theorem not_reachable_text {s : String} : ¬ store.Reachable source (.text s) := by
  rintro ⟨hvalue⟩
  cases source <;> cases hvalue

/-- A sequence reaches what its items reach. -/
@[simp] theorem reachable_sequence_iff {items : List Value} :
    store.Reachable source (.sequence items) ↔ ∃ item ∈ items, store.Reachable source item := by
  constructor
  · rintro (hvalue | ⟨hmem, hitem⟩)
    · cases source <;> cases hvalue
    · exact ⟨_, hmem, hitem⟩
  · rintro ⟨item, hmem, hitem⟩
    exact .item hmem hitem

/-- A mapping reaches what its values reach. -/
@[simp] theorem reachable_mapping_iff {entries : List (String × Value)} :
    store.Reachable source (.mapping entries) ↔
      ∃ entry ∈ entries, store.Reachable source entry.2 := by
  constructor
  · rintro (hvalue | _ | ⟨hmem, hentry⟩)
    · cases source <;> cases hvalue
    · exact ⟨_, hmem, hentry⟩
  · rintro ⟨entry, hmem, hentry⟩
    exact .entry hmem hentry

/-- A dict reaches what its keys and its values reach. -/
@[simp] theorem reachable_dict_iff {entries : List (Value × Value)} :
    store.Reachable source (.dict entries) ↔
      ∃ entry ∈ entries, store.Reachable source entry.1 ∨ store.Reachable source entry.2 := by
  constructor
  · rintro (hvalue | _ | _ | ⟨hmem, hentry⟩ | ⟨hmem, hentry⟩)
    · cases source <;> cases hvalue
    · exact ⟨_, hmem, Or.inl hentry⟩
    · exact ⟨_, hmem, Or.inr hentry⟩
  · rintro ⟨entry, hmem, hentry | hentry⟩
    · exact .dictKey hmem hentry
    · exact .dictValue hmem hentry

/-- A stream reaches what its remaining elements reach. -/
@[simp] theorem reachable_stream_iff {stream : Handle .stream} :
    store.Reachable source (.stream stream) ↔
      ∃ element ∈ store.remaining stream, store.Reachable source element := by
  constructor
  · rintro (hvalue | _ | _ | _ | _ | ⟨hmem, helement⟩)
    · cases source <;> cases hvalue
    · exact ⟨_, hmem, helement⟩
  · rintro ⟨element, hmem, helement⟩
    exact .element hmem helement

end Inversion

/-- What can be reached can still be reached where streams have not lost elements. -/
theorem Reachable.mono {store after : Store} {source : Source} {value : Value}
    (hreach : store.Reachable source value)
    (h : ∀ stream, ∀ element ∈ store.remaining stream, element ∈ after.remaining stream) :
    after.Reachable source value := by
  induction hreach with
  | self hvalue => exact .self hvalue
  | item hmem _ ih => exact .item hmem ih
  | entry hmem _ ih => exact .entry hmem ih
  | dictKey hmem _ ih => exact .dictKey hmem ih
  | dictValue hmem _ ih => exact .dictValue hmem ih
  | element hmem _ ih => exact .element (h _ _ hmem) ih

/-- The elements in all streams are counted stream by stream. -/
theorem totalRemaining_eq (store : Store) :
    store.totalRemaining = (store.streams.cells.toList.map (·.remaining.length)).sum := by
  have hfold (cells : List LazyStream) (total : Nat) :
      cells.foldl (fun total cell => total + cell.remaining.length) total =
        total + (cells.map (·.remaining.length)).sum := by
    induction cells generalizing total with
    | nil => simp
    | cons cell cells ih =>
      rw [List.foldl_cons, ih, List.map_cons, List.sum_cons]
      omega
  rw [totalRemaining, ← Array.foldl_toList, hfold, Nat.zero_add]

/-- Replacing one stream changes the count of all elements by the difference between the two. -/
private theorem sum_map_set {cells : List LazyStream} {index : Nat} {cell : LazyStream}
    (h : cells[index]? = some cell) (next : LazyStream) :
    ((cells.set index next).map (·.remaining.length)).sum + cell.remaining.length =
      (cells.map (·.remaining.length)).sum + next.remaining.length := by
  induction cells generalizing index with
  | nil => simp at h
  | cons first cells ih =>
    cases index with
    | zero =>
      obtain rfl : first = cell := by simpa using h
      simp only [List.set_cons_zero, List.map_cons, List.sum_cons]
      omega
    | succ index =>
      have hrest := ih (by simpa using h : cells[index]? = some cell)
      simp only [List.set_cons_succ, List.map_cons, List.sum_cons]
      omega

/-- A pull that gives an element takes it from its stream and changes nothing else. -/
theorem pull_some {store after : Store} {stream : Handle .stream} {value : Value}
    (h : store.pull stream = (some value, after)) :
    store.remaining stream = value :: after.remaining stream ∧
      (∀ other, other ≠ stream → after.remaining other = store.remaining other) ∧
      after.totalRemaining + 1 = store.totalRemaining ∧
      (∀ source, after.isClosed source = store.isClosed source) := by
  have hafter : after = (store.pull stream).2 := by rw [h]
  have hhead : (store.remaining stream).head? = some value := by
    rw [← fst_pull, h]
  have htail : after.remaining stream = (store.remaining stream).tail := by
    rw [hafter, remaining_pull]
  obtain ⟨rest, hremaining⟩ : ∃ rest, store.remaining stream = value :: rest := by
    cases hremaining : store.remaining stream with
    | nil => simp [hremaining] at hhead
    | cons first rest =>
      rw [hremaining] at hhead
      obtain rfl : first = value := by simpa using hhead
      exact ⟨rest, rfl⟩
  refine ⟨?_, fun other hother => ?_, ?_, fun source => ?_⟩
  · rw [htail, hremaining, List.tail_cons]
  · rw [hafter, remaining_pull_of_ne _ hother]
  -- One cell of the table is replaced, and with it one summand of the total.
  · have hcell : store.streams.cells.toList[stream.index]? = some (store.streams.get stream) := by
      rw [Array.getElem?_toList]
      cases hfound : store.streams.cells[stream.index]? with
      | none => simp [remaining, Table.get, hfound, default] at hremaining
      | some cell => simp [Table.get, hfound]
    have hsum := sum_map_set hcell ⟨(store.streams.get stream).shape, rest⟩
    have hset : after.streams = store.streams.set stream
        ⟨(store.streams.get stream).shape, rest⟩ := by
      rw [hafter]
      simp only [remaining] at hremaining
      simp [pull, hremaining]
    rw [totalRemaining_eq, totalRemaining_eq, hset]
    simp only [remaining] at hremaining
    simp only [hremaining, List.length_cons] at hsum
    simp only [Table.set, Array.toList_setIfInBounds]
    omega
  · rw [hafter]
    unfold pull
    simp only
    split <;> cases source <;> rfl

/-- A stream that gives nothing has nothing left. -/
theorem pull_none {store after : Store} {stream : Handle .stream}
    (h : store.pull stream = (none, after)) : store.remaining stream = [] ∧ after = store := by
  unfold pull at h
  simp only at h
  split at h
  case h_1 hremaining => exact ⟨hremaining, (Prod.mk.inj h).2.symm⟩
  case h_2 => simp at h

/-- Streams have nothing left once no elements are left in all. -/
theorem remaining_eq_nil {store : Store} (h : store.totalRemaining = 0) (stream : Handle .stream) :
    store.remaining stream = [] := by
  rcases hpull : store.pull stream with ⟨_ | value, after⟩
  · exact (pull_none hpull).1
  · have htotal := (pull_some hpull).2.2.1
    omega

/-- What taking elements out of streams does, apart from what happens to the elements: streams lose
elements from the front, and what a value no longer reaches has been taken. -/
structure Drains (store after : Store) (taken : Source → Prop) : Prop where
  steps : Steps store after
  suffix : ∀ stream, after.remaining stream <:+ store.remaining stream
  fewer : after.totalRemaining ≤ store.totalRemaining
  keeps : ∀ source value, store.Reachable source value →
    after.Reachable source value ∨ taken source

/-- Taking nothing out of streams. -/
theorem Drains.refl (store : Store) (taken : Source → Prop) : Drains store store taken :=
  ⟨.refl, fun _ => List.suffix_refl _, Nat.le_refl _, fun _ _ h => Or.inl h⟩

/-- Draining adds nothing to what a value reaches. -/
theorem Drains.reachable {store after : Store} {taken : Source → Prop} {source : Source}
    {value : Value} (h : Drains store after taken) (hreach : after.Reachable source value) :
    store.Reachable source value :=
  hreach.mono fun stream _ hmem => (h.suffix stream).subset hmem

/-- What is taken in two stretches is taken by one or the other. -/
theorem Drains.trans {store middle after : Store} {taken next : Source → Prop}
    (h : Drains store middle taken) (hnext : Drains middle after next) :
    Drains store after fun source => taken source ∨ next source := by
  refine ⟨h.steps.trans hnext.steps, fun stream => (hnext.suffix stream).trans (h.suffix stream),
    Nat.le_trans hnext.fewer h.fewer, fun source value hreach => ?_⟩
  rcases h.keeps source value hreach with hmiddle | htaken
  · rcases hnext.keeps source value hmiddle with hafter | htaken
    · exact Or.inl hafter
    · exact Or.inr (Or.inr htaken)
  · exact Or.inr (Or.inl htaken)

/-- More may count as taken. -/
theorem Drains.mono {store after : Store} {taken other : Source → Prop}
    (h : Drains store after taken) (hle : ∀ source, taken source → other source) :
    Drains store after other :=
  ⟨h.steps, h.suffix, h.fewer, fun source value hreach =>
    (h.keeps source value hreach).imp_right (hle source)⟩

/-- An operation that leaves streams alone takes nothing. -/
theorem Drains.of_streams_eq {store after : Store} (hsteps : Steps store after)
    (h : after.streams = store.streams) : Drains store after fun _ => False := by
  have hremaining (stream : Handle .stream) : after.remaining stream = store.remaining stream := by
    rw [remaining, remaining, h]
  refine ⟨hsteps, fun stream => hremaining stream ▸ List.suffix_refl _,
    Nat.le_of_eq (by rw [totalRemaining, totalRemaining, h]), fun source value hreach => Or.inl ?_⟩
  exact hreach.mono fun stream _ hmem => hremaining stream ▸ hmem

/-- Closing an iterator drains nothing. -/
theorem drains_closeIterator (store : Store) (iterator : Handle .iterator) :
    Drains store (store.closeIterator iterator).2 fun _ => False := by
  refine .of_streams_eq (Step.closeIterator store iterator).steps ?_
  unfold closeIterator
  simp only
  split <;> rfl

/-- Closing a byte stream drains nothing. -/
theorem drains_closeByteStream (store : Store) (stream : Handle .byteStream) :
    Drains store (store.closeByteStream stream).2 fun _ => False := by
  refine .of_streams_eq (Step.closeByteStream store stream).steps ?_
  unfold closeByteStream
  simp only
  split <;> rfl

/-- A pull takes what its element reaches. -/
theorem Drains.of_pull {store after : Store} {stream : Handle .stream} {value : Value}
    (h : store.pull stream = (some value, after)) :
    Drains store after fun source => after.Reachable source value := by
  obtain ⟨hremaining, hother, htotal, _⟩ := pull_some h
  have hsteps : Steps store after := by
    have hstep := Step.pull store stream
    rw [h] at hstep
    exact hstep.steps
  refine ⟨hsteps, fun other => ?_, by omega, fun source part hreach => ?_⟩
  · by_cases heq : other = stream
    · rw [heq, hremaining]
      exact List.suffix_cons _ _
    · exact hother other heq ▸ List.suffix_refl _
  · induction hreach with
    | self hvalue => exact Or.inl (.self hvalue)
    | item hmem _ ih => exact ih.imp_left (.item hmem)
    | entry hmem _ ih => exact ih.imp_left (.entry hmem)
    | dictKey hmem _ ih => exact ih.imp_left (.dictKey hmem)
    | dictValue hmem _ ih => exact ih.imp_left (.dictValue hmem)
    | @element other element hmem _ ih =>
      rcases ih with hreach | htaken
      · by_cases heq : other = stream
        · subst heq
          rw [hremaining] at hmem
          rcases List.mem_cons.mp hmem with rfl | hrest
          · exact Or.inr hreach
          · exact Or.inl (.element hrest hreach)
        · exact Or.inl (.element (hother other heq ▸ hmem) hreach)
      · exact Or.inr htaken

end Store

end Sluice
