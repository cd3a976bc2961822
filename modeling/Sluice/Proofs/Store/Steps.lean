import Mathlib.Logic.Relation
import Mathlib.Tactic.Common
import Sluice.Store.Iterator
import Sluice.Store.ByteStream
import Sluice.Store.LazyStream
import Sluice.Context
import Sluice.Resolver

/-!
# Steps of the store

Evaluation changes the store by a fixed set of operations (`Store.Step`). What every one of them
keeps, all of evaluation keeps. Here it is what happens to iterators: they are added one by one,
each as it is asked of a collection, and the underlying close of an added one has been called once
if it is closed and never if it is open. Switches stay thrown and the clock does not go back, so a
context that stops evaluation goes on to stop it (`Steps.check_eq_ok`).
-/

namespace Sluice

/-- Moving on does not close a cursor. -/
theorem Cursor.closed_next (cursor : Cursor) : cursor.next.2.closed = cursor.closed := by
  unfold next
  split
  · rfl
  · split <;> rfl

/-- The iterator that was asked of a collection, if that is what an event tells. -/
def Event.obtained? : Event → Option (Handle .iterator)
  | iteratedArray _ iterator | iteratedMap _ iterator => some iterator
  | _ => none

namespace Store

/-- One operation on the store. -/
inductive Step : Store → Store → Prop
  | fetched (store : Store) (link : Handle .link) (path : String) :
      Step store (store.record (.fetched link path))
  | elapse (store : Store) (milliseconds : Nat) : Step store (store.elapse milliseconds)
  | cancel (store : Store) (switch : Switch) : Step store (store.cancel switch)
  | newLink (store : Store) (path : String) : Step store (store.newLink path).2
  | resolve (store : Store) (link : Handle .link) (value : Value) :
      Step store (store.resolve link value).2
  | lookUp (store : Store) (map : Handle .map) (key : String) : Step store (store.lookUp map key).2
  | iterateArray (store : Store) (array : Handle .array) : Step store (store.iterateArray array).2
  | iterateMap (store : Store) (map : Handle .map) : Step store (store.iterateMap map).2
  | advance (store : Store) (iterator : Handle .iterator) : Step store (store.advance iterator).2
  | current (store : Store) (iterator : Handle .iterator) : Step store (store.current iterator).2
  | closeIterator (store : Store) (iterator : Handle .iterator) :
      Step store (store.closeIterator iterator).2
  | readWith (store : Store) (read : ByteSource → Except String (List UInt8) × ByteSource)
      (stream : Handle .byteStream) : Step store (store.readWith read stream).2
  | closeByteStream (store : Store) (stream : Handle .byteStream) :
      Step store (store.closeByteStream stream).2
  | newStream (store : Store) (shape : LazyStream.Shape) (elements : List Value) :
      Step store (store.newStream shape elements).2
  | pull (store : Store) (stream : Handle .stream) : Step store (store.pull stream).2

/-- Any number of operations on the store. -/
abbrev Steps : Store → Store → Prop := Relation.ReflTransGen Step

/-- A step is a number of steps. -/
theorem Step.steps {store after : Store} (h : Step store after) : Steps store after := .single h

/-- The iterators that were asked of collections, newest first. -/
def obtained (store : Store) : List (Handle .iterator) := store.journal.filterMap Event.obtained?

/-- The iterators that were asked of collections on the way from one store to a later one. -/
def obtainedSince (before after : Store) : List (Handle .iterator) :=
  after.obtained.take (after.obtained.length - before.obtained.length)

/-- What a step does to the iterators: nothing, or it adds an open one that it obtains, or it goes
on with an open one, or it closes an open one. -/
inductive IteratorStep (store after : Store) : Prop
  | keep : after.iterators = store.iterators → after.obtained = store.obtained →
      IteratorStep store after
  | obtain (cell : Iterator) : cell.cursor.closed = false → cell.closes = 0 →
      after.iterators = (store.iterators.push cell).2 →
      after.obtained = (store.iterators.push cell).1 :: store.obtained → IteratorStep store after
  | advance (iterator : Handle .iterator) (cell : Iterator) :
      (store.iterators.get iterator).cursor.closed = false → cell.cursor.closed = false →
      cell.closes = (store.iterators.get iterator).closes →
      after.iterators = store.iterators.set iterator cell → after.obtained = store.obtained →
      IteratorStep store after
  | close (iterator : Handle .iterator) (cell : Iterator) :
      (store.iterators.get iterator).cursor.closed = false → cell.cursor.closed = true →
      cell.closes = (store.iterators.get iterator).closes + 1 →
      after.iterators = store.iterators.set iterator cell → after.obtained = store.obtained →
      IteratorStep store after

/-- Every step does one of these to the iterators. -/
theorem Step.iteratorStep {store after : Store} (h : Step store after) :
    IteratorStep store after := by
  cases h with
  | fetched link path => exact .keep rfl rfl
  | elapse milliseconds => exact .keep rfl rfl
  | cancel switch => exact .keep rfl rfl
  | newLink path => exact .keep rfl rfl
  | resolve link value =>
    simp only [Store.resolve]
    split <;> exact .keep rfl rfl
  | lookUp map key => exact .keep rfl rfl
  | iterateArray array => exact .obtain _ rfl rfl rfl rfl
  | iterateMap map => exact .obtain _ rfl rfl rfl rfl
  | advance iterator =>
    simp only [Store.advance]
    split
    case isTrue hclosed => exact .keep rfl rfl
    case isFalse hopen =>
      have hopen : (store.iterators.get iterator).cursor.closed = false := by simpa using hopen
      have hcell : ((store.iterators.get iterator).cursor.next.2).closed = false := by
        rw [Cursor.closed_next, hopen]
      refine .advance iterator { store.iterators.get iterator with
        cursor := (store.iterators.get iterator).cursor.next.2
        advances := (store.iterators.get iterator).advances + 1 } hopen hcell rfl ?_ ?_
      · split <;> rfl
      · split <;> rfl
  | current iterator =>
    simp only [Store.current]
    split <;> exact .keep rfl rfl
  | closeIterator iterator =>
    simp only [Store.closeIterator]
    split
    case isTrue hclosed => exact .keep rfl rfl
    case isFalse hopen => exact .close iterator _ (by simpa using hopen) rfl rfl rfl rfl
  | readWith read stream =>
    simp only [Store.readWith]
    split <;> exact .keep rfl rfl
  | closeByteStream stream =>
    simp only [Store.closeByteStream]
    split <;> exact .keep rfl rfl
  | newStream shape elements => exact .keep rfl rfl
  | pull stream =>
    simp only [Store.pull]
    split <;> exact .keep rfl rfl

/-- What a step does to the streams: nothing, or it adds one, or it pulls from one. -/
inductive StreamStep (store after : Store) : Prop
  | keep : after.streams = store.streams → StreamStep store after
  | add (shape : LazyStream.Shape) (elements : List Value) :
      after = (store.newStream shape elements).2 → StreamStep store after
  | pull (stream : Handle .stream) : after = (store.pull stream).2 → StreamStep store after

/-- Every step does one of these to the streams. -/
theorem Step.streamStep {store after : Store} (h : Step store after) : StreamStep store after := by
  cases h with
  | newStream shape elements => exact .add shape elements rfl
  | pull stream => exact .pull stream rfl
  | fetched | elapse | cancel | newLink | lookUp | iterateArray | iterateMap => exact .keep rfl
  | resolve link value =>
    refine .keep ?_
    simp only [Store.resolve]
    split <;> rfl
  | advance iterator =>
    refine .keep ?_
    simp only [Store.advance]
    split
    · rfl
    · split <;> rfl
  | current iterator =>
    refine .keep ?_
    simp only [Store.current]
    split <;> rfl
  | closeIterator iterator =>
    refine .keep ?_
    simp only [Store.closeIterator]
    split <;> rfl
  | readWith read stream =>
    refine .keep ?_
    simp only [Store.readWith]
    split <;> rfl
  | closeByteStream stream =>
    refine .keep ?_
    simp only [Store.closeByteStream]
    split <;> rfl

/-- Iterators are never removed, and those obtained on the way are those that were added. -/
theorem Steps.obtained_eq {before after : Store} (h : Steps before after) :
    before.iterators.size ≤ after.iterators.size ∧
      ∃ made : List (Handle .iterator), after.obtained = made ++ before.obtained ∧
        ∀ iterator, iterator ∈ made ↔
          before.iterators.size ≤ iterator.index ∧ iterator.index < after.iterators.size := by
  induction h with
  | refl => exact ⟨Nat.le_refl _, [], rfl, by simp⟩
  | @tail middle after _ hstep ih =>
    obtain ⟨hle, made, hmade, hmem⟩ := ih
    cases hstep.iteratorStep with
    | keep hiterators hobtained =>
      rw [hiterators, hobtained]
      exact ⟨hle, made, hmade, hmem⟩
    | advance iterator cell _ _ _ hiterators hobtained
    | close iterator cell _ _ _ hiterators hobtained =>
      rw [hiterators, hobtained, Table.size_set]
      exact ⟨hle, made, hmade, hmem⟩
    | obtain cell _ _ hiterators hobtained =>
      rw [hiterators, hobtained, Table.size_push, hmade]
      refine ⟨by omega, _ :: made, rfl, fun iterator => ?_⟩
      have hnew : iterator = (middle.iterators.push cell).1 ↔
          iterator.index = middle.iterators.size := by
        rcases iterator with ⟨index⟩
        simp [Table.push, Table.size]
      rw [List.mem_cons, hnew, hmem]
      omega

/-- The iterators that were obtained on the way are those that were added. -/
theorem mem_obtainedSince_iff {before after : Store} (h : Steps before after)
    {iterator : Handle .iterator} :
    iterator ∈ obtainedSince before after ↔
      before.iterators.size ≤ iterator.index ∧ iterator.index < after.iterators.size := by
  obtain ⟨_, made, hmade, hmem⟩ := h.obtained_eq
  simp [obtainedSince, hmade, hmem]

/-- Whether the underlying close of an iterator has been called once if it is closed, and never if
it is open. -/
def ClosedOnce (store : Store) (iterator : Handle .iterator) : Prop :=
  (store.iterators.get iterator).closes =
    if (store.iterators.get iterator).cursor.closed then 1 else 0

/-- A step closes an iterator by calling its underlying close, once. -/
theorem Step.closedOnce {store after : Store} (h : Step store after) {iterator : Handle .iterator}
    (hbefore : iterator.index < store.iterators.size → store.ClosedOnce iterator)
    (hbound : iterator.index < after.iterators.size) : after.ClosedOnce iterator := by
  unfold ClosedOnce at hbefore ⊢
  cases h.iteratorStep with
  | keep hiterators _ =>
    rw [hiterators] at hbound ⊢
    exact hbefore hbound
  | obtain cell hopen hcloses hiterators _ =>
    rw [hiterators, Table.size_push] at hbound
    rw [hiterators]
    rcases Nat.lt_or_ge iterator.index store.iterators.size with hlt | hge
    · rw [Table.get_push_of_lt hlt]
      exact hbefore hlt
    · have hnew : iterator = (store.iterators.push cell).1 := by
        rcases iterator with ⟨index⟩
        simp only [Table.size] at hbound hge
        simp only [Table.push, Handle.mk.injEq]
        omega
      rw [hnew, Table.get_push_self, hopen, hcloses]
      rfl
  | advance other cell hopen hcell hcloses hiterators _ =>
    rw [hiterators, Table.size_set] at hbound
    rw [hiterators]
    by_cases hother : iterator = other
    · subst hother
      rw [Table.get_set_self hbound, hcell, hcloses, hbefore hbound, hopen]
    · rw [Table.get_set_of_ne _ hother]
      exact hbefore hbound
  | close other cell hopen hcell hcloses hiterators _ =>
    rw [hiterators, Table.size_set] at hbound
    rw [hiterators]
    by_cases hother : iterator = other
    · subst hother
      rw [Table.get_set_self hbound, hcell, hcloses, hbefore hbound, hopen]
      rfl
    · rw [Table.get_set_of_ne _ hother]
      exact hbefore hbound

/-- The underlying close of an iterator obtained on the way has been called once if the iterator is
closed, and never if it is open. -/
theorem closedOnce_of_mem_obtainedSince {before after : Store} (h : Steps before after)
    {iterator : Handle .iterator} (hmem : iterator ∈ obtainedSince before after) :
    after.ClosedOnce iterator := by
  rw [mem_obtainedSince_iff h] at hmem
  obtain ⟨hlow, hbound⟩ := hmem
  induction h with
  | refl => omega
  | tail _ hstep ih => exact hstep.closedOnce ih hbound

/-- Making links changes links only. -/
theorem newLinks_eq (paths : List String) (store : Store) :
    ∃ links, (Draft.newLinks paths store).2 = { store with links := links } := by
  induction paths generalizing store with
  | nil => exact ⟨store.links, rfl⟩
  | cons path paths ih =>
    obtain ⟨links, hlinks⟩ := ih (store.newLink path).2
    exact ⟨links, hlinks⟩

/-- Resolving a link changes links only. -/
theorem resolve_eq (link : Handle .link) (value : Value) (store : Store) :
    ∃ links, (store.resolve link value).2 = { store with links := links } := by
  simp only [Store.resolve]
  split
  · exact ⟨store.links, rfl⟩
  · exact ⟨_, rfl⟩

/-- Resolving links changes links only. -/
theorem resolveAll_eq (resolves : List (Handle .link × Draft)) (store : Store) :
    ∃ links, Resolver.resolveAll resolves store = { store with links := links } := by
  induction resolves generalizing store with
  | nil => exact ⟨store.links, rfl⟩
  | cons resolve resolves ih =>
    obtain ⟨link, draft⟩ := resolve
    let made := draft.realize store
    obtain ⟨links, hmade⟩ : ∃ links, made.2 = { store with links := links } :=
      newLinks_eq draft.paths store
    obtain ⟨others, hresolved⟩ := resolve_eq link made.1 made.2
    obtain ⟨last, hrest⟩ := ih (made.2.resolve link made.1).2
    exact ⟨last, hrest.trans (by rw [hresolved, hmade])⟩

/-- Throwing switches changes the thrown switches and the journal only. -/
theorem cancels_eq (switches : List Switch) (store : Store) :
    switches.foldl (fun store switch => store.cancel switch) store =
      { store with
        thrown := switches.reverse ++ store.thrown
        journal := switches.reverse.map .cancelled ++ store.journal } := by
  induction switches generalizing store with
  | nil => rfl
  | cons switch switches ih =>
    rw [List.foldl_cons, ih, List.reverse_cons, List.map_append, List.append_assoc,
      List.append_assoc]
    rfl

/-- A fetch is recorded, then the switches that it throws; apart from that time passes and links
change. -/
theorem exists_fetch_eq (resolver : Resolver) (link : Handle .link) (path : String)
    (store : Store) :
    ∃ (switches : List Switch) (links : Table .link Link),
      (resolver.fetch link path store).2 =
        { store with
          links := links
          thrown := switches ++ store.thrown
          now := store.now + (resolver.script store.fetches path).takes
          journal := switches.map .cancelled ++ .fetched link path :: store.journal } := by
  have hthrown := cancels_eq (resolver.script store.fetches path).cancels
    ((store.record (.fetched link path)).elapse (resolver.script store.fetches path).takes)
  obtain ⟨links, hresolved⟩ := resolveAll_eq (resolver.script store.fetches path).resolves
    ((resolver.script store.fetches path).cancels.foldl (fun store switch => store.cancel switch)
      ((store.record (.fetched link path)).elapse (resolver.script store.fetches path).takes))
  rw [hthrown] at hresolved
  refine ⟨(resolver.script store.fetches path).cancels.reverse, ?_⟩
  simp only [Resolver.fetch]
  rw [hthrown, hresolved]
  split
  case h_1 => exact ⟨links, rfl⟩
  case h_2 draft _ =>
    obtain ⟨others, hmade⟩ := newLinks_eq draft.paths _
    exact ⟨others, hmade.trans rfl⟩

/-- Making links takes steps. -/
theorem steps_newLinks (paths : List String) (store : Store) :
    Steps store (Draft.newLinks paths store).2 := by
  induction paths generalizing store with
  | nil => exact .refl
  | cons path paths ih => exact (Step.newLink store path).steps.trans (ih _)

/-- Making a value with its links takes steps. -/
theorem steps_realize (draft : Draft) (store : Store) : Steps store (draft.realize store).2 :=
  steps_newLinks draft.paths store

/-- Resolving links takes steps. -/
theorem steps_resolveAll (resolves : List (Handle .link × Draft)) (store : Store) :
    Steps store (Resolver.resolveAll resolves store) := by
  induction resolves generalizing store with
  | nil => exact .refl
  | cons resolve resolves ih =>
    obtain ⟨link, draft⟩ := resolve
    exact ((steps_realize draft store).trans (Step.resolve _ link _).steps).trans (ih _)

/-- Throwing switches takes steps. -/
theorem steps_cancels (switches : List Switch) (store : Store) :
    Steps store (switches.foldl (fun store switch => store.cancel switch) store) := by
  induction switches generalizing store with
  | nil => exact .refl
  | cons switch switches ih => exact (Step.cancel store switch).steps.trans (ih _)

/-- A fetch takes steps, whatever the resolver does. -/
theorem steps_fetch (resolver : Resolver) (link : Handle .link) (path : String) (store : Store) :
    Steps store (resolver.fetch link path store).2 := by
  have hfetched := (Step.fetched store link path).steps
  have helapsed := hfetched.trans (Step.elapse _ (resolver.script store.fetches path).takes).steps
  have hcancels := helapsed.trans (steps_cancels (resolver.script store.fetches path).cancels _)
  have hresolves :=
    hcancels.trans (steps_resolveAll (resolver.script store.fetches path).resolves _)
  unfold Resolver.fetch
  simp only
  split
  · exact hresolves
  · exact hresolves.trans (steps_realize _ _)

/-- A step takes back no switch that is thrown, and the clock does not go back. -/
theorem Step.thrown_subset_and_now_le {store after : Store} (h : Step store after) :
    store.thrown ⊆ after.thrown ∧ store.now ≤ after.now := by
  -- Most steps touch neither the switches nor the clock.
  have hsame (other : Store) (hthrown : other.thrown = store.thrown)
      (hnow : other.now = store.now) :
      store.thrown ⊆ other.thrown ∧ store.now ≤ other.now :=
    ⟨hthrown ▸ List.Subset.refl _, Nat.le_of_eq hnow.symm⟩
  cases h with
  | elapse milliseconds => exact ⟨List.Subset.refl _, Nat.le_add_right _ _⟩
  | cancel switch => exact ⟨List.subset_cons_self _ _, Nat.le_refl _⟩
  | advance iterator =>
    simp only [Store.advance]
    split
    · exact hsame store rfl rfl
    · split
      · exact ⟨List.Subset.refl _, Nat.le_add_right _ _⟩
      · exact ⟨List.subset_cons_self _ _, Nat.le_add_right _ _⟩
  | fetched | newLink | lookUp | iterateArray | iterateMap | newStream => exact hsame _ rfl rfl
  | resolve link value =>
    simp only [Store.resolve]
    split <;> exact hsame _ rfl rfl
  | current iterator =>
    simp only [Store.current]
    split <;> exact hsame _ rfl rfl
  | closeIterator iterator =>
    simp only [Store.closeIterator]
    split <;> exact hsame _ rfl rfl
  | readWith read stream =>
    simp only [Store.readWith]
    split <;> exact hsame _ rfl rfl
  | closeByteStream stream =>
    simp only [Store.closeByteStream]
    split <;> exact hsame _ rfl rfl
  | pull stream =>
    simp only [Store.pull]
    split <;> exact hsame _ rfl rfl

/-- A context that stops evaluation does not let it go on later: if it lets it go on in the end, it
has done so all the way. -/
theorem Steps.check_eq_ok {store after : Store} (h : Steps store after) {context : Context}
    (hafter : context.check after = .ok ()) : context.check store = .ok () := by
  induction h using Relation.ReflTransGen.head_induction_on with
  | refl => exact hafter
  | @head store middle hstep _ ih =>
    obtain ⟨hthrown, hnow⟩ := hstep.thrown_subset_and_now_le
    obtain ⟨hcancelled, hexpired⟩ := Context.check_eq_ok_iff.mp ih
    refine Context.check_eq_ok_iff.mpr ⟨?_, ?_⟩
    · simp only [Context.isCancelled, Option.any_eq_false, isThrown, List.contains_eq_mem,
        decide_eq_false_iff_not] at hcancelled ⊢
      exact fun switch hswitch hmem => hcancelled switch hswitch (hthrown hmem)
    · simp only [Context.isExpired, Option.any_eq_false, decide_eq_false_iff_not] at hexpired ⊢
      exact fun deadline hdeadline hle => hexpired deadline hdeadline (Nat.le_trans hle hnow)

/-- A deadline that comes while an iterator advances. -/
example :
    let context : Context := { deadline := some 100 }
    let store : Store := { iterators :=
      ⟨#[{ cursor := .ofValues [.null], behaviour := { takes := fun _ => 150 } }]⟩ }
    context.check store = .ok () ∧
      context.check (store.advance ⟨0⟩).2 = .error .deadlineExceeded := ⟨rfl, rfl⟩

end Store

end Sluice
