import Sluice.Proofs.Store.CleanUp

/-!
# Links settle

Whatever happens to a store, a link that there is keeps its path, and it keeps its value once it has
one (`Steps.settles`). Only fetching and resolving concern links at all: every other operation of
evaluation leaves them as they are and fetches nothing (`Quiet`).
-/

namespace Sluice

/-- The link that was fetched and the path it was fetched at, if that is what an event tells. -/
def Event.asked? : Event → Option (Handle .link × String)
  | fetched link path => some (link, path)
  | _ => none

namespace Store

/-- The links that were fetched, each with the path it was fetched at, newest first. -/
def asked (store : Store) : List (Handle .link × String) := store.journal.filterMap Event.asked?

/-- Whether links are as they were and nothing has been fetched. -/
structure Quiet (store after : Store) : Prop where
  steps : Steps store after
  links_eq : after.links = store.links
  asked_eq : after.asked = store.asked

/-- Doing nothing is quiet. -/
theorem Quiet.refl (store : Store) : Quiet store store := ⟨.refl, rfl, rfl⟩

/-- What is quiet one after the other is quiet together. -/
theorem Quiet.trans {store middle after : Store} (h : Quiet store middle)
    (hnext : Quiet middle after) : Quiet store after :=
  ⟨h.steps.trans hnext.steps, hnext.links_eq.trans h.links_eq, hnext.asked_eq.trans h.asked_eq⟩

variable (store : Store)

/-- Looking up a key is quiet. -/
theorem quiet_lookUp (map : Handle .map) (key : String) : Quiet store (store.lookUp map key).2 :=
  ⟨(Step.lookUp store map key).steps, rfl, rfl⟩

/-- Iterating a collection is quiet. -/
theorem quiet_iterateArray (array : Handle .array) : Quiet store (store.iterateArray array).2 :=
  ⟨(Step.iterateArray store array).steps, rfl, rfl⟩

/-- Iterating a map is quiet. -/
theorem quiet_iterateMap (map : Handle .map) : Quiet store (store.iterateMap map).2 :=
  ⟨(Step.iterateMap store map).steps, rfl, rfl⟩

/-- Making a stream is quiet. -/
theorem quiet_newStream (shape : LazyStream.Shape) (elements : List Value) :
    Quiet store (store.newStream shape elements).2 :=
  ⟨(Step.newStream store shape elements).steps, rfl, rfl⟩

/-- Advancing an iterator is quiet, whatever switch it throws. -/
theorem quiet_advance (iterator : Handle .iterator) : Quiet store (store.advance iterator).2 := by
  refine ⟨(Step.advance store iterator).steps, ?links, ?asked⟩
  all_goals
    simp only [advance]
    split
    · rfl
    · split <;> rfl

/-- Reading an iterator is quiet. -/
theorem quiet_current (iterator : Handle .iterator) : Quiet store (store.current iterator).2 := by
  refine ⟨(Step.current store iterator).steps, ?links, ?asked⟩
  all_goals
    simp only [current]
    split <;> rfl

/-- Closing an iterator is quiet. -/
theorem quiet_closeIterator (iterator : Handle .iterator) :
    Quiet store (store.closeIterator iterator).2 := by
  refine ⟨(Step.closeIterator store iterator).steps, ?links, ?asked⟩
  all_goals
    simp only [closeIterator]
    split <;> rfl

/-- Reading bytes is quiet. -/
theorem quiet_readWith (read : ByteSource → Except String (List UInt8) × ByteSource)
    (stream : Handle .byteStream) : Quiet store (store.readWith read stream).2 := by
  refine ⟨(Step.readWith store read stream).steps, ?links, ?asked⟩
  all_goals
    simp only [readWith]
    split <;> rfl

/-- Closing a byte stream is quiet. -/
theorem quiet_closeByteStream (stream : Handle .byteStream) :
    Quiet store (store.closeByteStream stream).2 := by
  refine ⟨(Step.closeByteStream store stream).steps, ?links, ?asked⟩
  all_goals
    simp only [closeByteStream]
    split <;> rfl

/-- Pulling from a stream is quiet. -/
theorem quiet_pull (stream : Handle .stream) : Quiet store (store.pull stream).2 := by
  refine ⟨(Step.pull store stream).steps, ?links, ?asked⟩
  all_goals
    simp only [pull]
    split <;> rfl

variable {store} {middle after : Store}

/-- Cleaning up is quiet. -/
theorem Quiet.of_cleanUps (h : CleanUps store after) : Quiet store after := by
  induction h with
  | refl => exact .refl store
  | tail _ hlast ih =>
    refine ih.trans ?_
    cases hlast with
    | pull stream => exact quiet_pull _ stream
    | closeIterator iterator => exact quiet_closeIterator _ iterator
    | closeByteStream stream => exact quiet_closeByteStream _ stream

/-- What a step does to links: nothing, or it adds one, or it keeps a value for one. -/
inductive LinkStep (store after : Store) : Prop
  | keep : after.links = store.links → LinkStep store after
  | add (path : String) : after.links = (store.links.push { path := path }).2 →
      LinkStep store after
  | resolve (link : Handle .link) (value : Value) : after = (store.resolve link value).2 →
      LinkStep store after

/-- Every step does one of these to the links. -/
theorem Step.linkStep (h : Step store after) : LinkStep store after := by
  cases h with
  | resolve link value => exact .resolve link value rfl
  | newLink path => exact .add path rfl
  | fetched | elapse | cancel => exact .keep rfl
  | lookUp map key => exact .keep (quiet_lookUp store map key).links_eq
  | iterateArray array => exact .keep (quiet_iterateArray store array).links_eq
  | iterateMap map => exact .keep (quiet_iterateMap store map).links_eq
  | newStream shape elements => exact .keep (quiet_newStream store shape elements).links_eq
  | advance iterator => exact .keep (quiet_advance store iterator).links_eq
  | current iterator => exact .keep (quiet_current store iterator).links_eq
  | closeIterator iterator => exact .keep (quiet_closeIterator store iterator).links_eq
  | readWith read stream => exact .keep (quiet_readWith store read stream).links_eq
  | closeByteStream stream => exact .keep (quiet_closeByteStream store stream).links_eq
  | pull stream => exact .keep (quiet_pull store stream).links_eq

/-- What happens to links: those that there are stay, and each is as it was, unless it had no value
and has got one. -/
def Settles (store after : Store) : Prop :=
  ∀ link : Handle .link, link.index < store.links.size → link.index < after.links.size ∧
    (after.links.get link = store.links.get link ∨
      store.linkTarget? link = none ∧
        ∃ value, after.links.get link = { store.links.get link with target := some value })

/-- Where links are the same, nothing has happened to them. -/
theorem Settles.of_links_eq (h : after.links = store.links) : Settles store after := by
  intro link hbound
  rw [h]
  exact ⟨hbound, .inl rfl⟩

/-- Nothing happens to links between a store and itself. -/
theorem Settles.refl (store : Store) : Settles store store := .of_links_eq rfl

/-- A link that has got a value on the way gets no other one. -/
theorem Settles.trans (h : Settles store middle) (hnext : Settles middle after) :
    Settles store after := by
  intro link hbound
  obtain ⟨hmiddle, hfirst⟩ := h link hbound
  obtain ⟨hafter, hsecond⟩ := hnext link hmiddle
  refine ⟨hafter, ?_⟩
  rcases hfirst with hsame | ⟨hopen, value, hvalue⟩
  · rw [linkTarget?, hsame] at hsecond
    exact hsecond
  · rcases hsecond with hsame | ⟨hnone, _⟩
    · exact .inr ⟨hopen, value, hsame.trans hvalue⟩
    · rw [linkTarget?, hvalue] at hnone
      cases hnone

/-- A link that has a value keeps it. -/
theorem Settles.linkTarget?_eq (h : Settles store after) {link : Handle .link}
    (hbound : link.index < store.links.size) {value : Value}
    (hvalue : store.linkTarget? link = some value) : after.linkTarget? link = some value := by
  rcases (h link hbound).2 with hsame | ⟨hnone, _⟩
  · rw [linkTarget?, hsame]
    exact hvalue
  · rw [hvalue] at hnone
    cases hnone

/-- A link keeps its path. -/
theorem Settles.linkPath_eq (h : Settles store after) {link : Handle .link}
    (hbound : link.index < store.links.size) : after.linkPath link = store.linkPath link := by
  rcases (h link hbound).2 with hsame | ⟨_, value, hvalue⟩
  · rw [linkPath, hsame, linkPath]
  · rw [linkPath, hvalue, linkPath]

/-- A link that does not exist reads as one that has a value. -/
theorem lt_size_of_linkTarget?_eq_none {link : Handle .link} (h : store.linkTarget? link = none) :
    link.index < store.links.size := by
  by_contra hout
  rw [linkTarget?, Table.get_of_size_le (Nat.le_of_not_lt hout)] at h
  cases h

/-- Keeping a value for a link changes this link at most, and only if it had none. -/
theorem settles_resolve (store : Store) (link : Handle .link) (value : Value) :
    Settles store (store.resolve link value).2 := by
  intro other hbound
  simp only [resolve]
  split
  case h_1 => exact ⟨hbound, .inl rfl⟩
  case h_2 htarget =>
    refine ⟨by rwa [Table.size_set], ?_⟩
    by_cases heq : other = link
    · subst heq
      exact .inr ⟨htarget, value, Table.get_set_self hbound _⟩
    · exact .inl (Table.get_set_of_ne _ heq _)

/-- A step gives a value to a link that had none, or leaves it as it is. -/
theorem Step.settles (h : Step store after) : Settles store after := by
  cases h.linkStep with
  | keep hlinks => exact .of_links_eq hlinks
  | add path hlinks =>
    intro link hbound
    rw [hlinks, Table.size_push, Table.get_push_of_lt hbound]
    exact ⟨Nat.lt_succ_of_lt hbound, .inl rfl⟩
  | resolve link value hafter => exact hafter ▸ settles_resolve store link value

/-- On the way from one store to a later one the state of a link changes at most once. -/
theorem Steps.settles (h : Steps store after) : Settles store after := by
  induction h with
  | refl => exact .refl store
  | tail _ hlast ih => exact ih.trans hlast.settles

end Store

end Sluice
