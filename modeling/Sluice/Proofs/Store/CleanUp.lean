import Sluice.Proofs.Store.Flattening

/-!
# Cleaning up

Releasing and flattening do nothing to the store but pull elements out of streams and close
iterators and byte streams (`cleanUps_releaseAll`, `cleanUps_flatten`). Of these only the closes are
asked of the outside, so all that cleaning up adds to the journal are closes
(`CleanUps.exists_journal_eq`).
-/

namespace Sluice

/-- Whether an event tells that something was closed. -/
inductive Event.IsClose : Event → Prop
  | iterator (iterator : Handle .iterator) : IsClose (.closedIterator iterator)
  | byteStream (stream : Handle .byteStream) : IsClose (.closedByteStream stream)

namespace Store

/-- One operation of cleaning up. -/
inductive CleanUp : Store → Store → Prop
  | pull (store : Store) (stream : Handle .stream) : CleanUp store (store.pull stream).2
  | closeIterator (store : Store) (iterator : Handle .iterator) :
      CleanUp store (store.closeIterator iterator).2
  | closeByteStream (store : Store) (stream : Handle .byteStream) :
      CleanUp store (store.closeByteStream stream).2

/-- Any number of operations of cleaning up. -/
abbrev CleanUps : Store → Store → Prop := Relation.ReflTransGen CleanUp

/-- One operation of cleaning up throws no switch and records at most a close. -/
theorem CleanUp.exists_journal_eq {store after : Store} (h : CleanUp store after) :
    after.thrown = store.thrown ∧ ∃ closes : List Event, after.journal = closes ++ store.journal ∧
      ∀ event ∈ closes, event.IsClose := by
  cases h with
  | pull stream =>
    simp only [Store.pull]
    split <;> exact ⟨rfl, [], rfl, by simp⟩
  | closeIterator iterator =>
    simp only [Store.closeIterator]
    split
    · exact ⟨rfl, [], rfl, by simp⟩
    · exact ⟨rfl, [.closedIterator iterator], rfl, by simp [Event.IsClose.iterator]⟩
  | closeByteStream stream =>
    simp only [Store.closeByteStream]
    split
    · exact ⟨rfl, [], rfl, by simp⟩
    · exact ⟨rfl, [.closedByteStream stream], rfl, by simp [Event.IsClose.byteStream]⟩

/-- Cleaning up throws no switch and records closes only. -/
theorem CleanUps.exists_journal_eq {store after : Store} (h : CleanUps store after) :
    after.thrown = store.thrown ∧ ∃ closes : List Event, after.journal = closes ++ store.journal ∧
      ∀ event ∈ closes, event.IsClose := by
  induction h with
  | refl => exact ⟨rfl, [], rfl, by simp⟩
  | tail _ hlast ih =>
    obtain ⟨hthrown, closes, hjournal, hcloses⟩ := ih
    obtain ⟨hlastThrown, more, hlastJournal, hmore⟩ := hlast.exists_journal_eq
    refine ⟨hlastThrown.trans hthrown, more ++ closes, ?_, fun event hmem => ?_⟩
    · rw [hlastJournal, hjournal, List.append_assoc]
    · exact (List.mem_append.mp hmem).elim (hmore event) (hcloses event)

/-- Closing what a value stands for is cleaning up. -/
theorem cleanUps_closeHandle (value : Value) (store : Store) :
    CleanUps store (closeHandle value store) := by
  cases value with
  | iterator iterator => exact .single (.closeIterator store iterator)
  | byteStream stream => exact .single (.closeByteStream store stream)
  | _ => exact .refl

section Release

variable {ofStream : Handle .stream → Store → Store}

mutual

/-- Releasing a value is cleaning up if releasing the streams in it is. -/
theorem cleanUps_releaseWith (h : ∀ stream store, CleanUps store (ofStream stream store))
    (value : Value) (store : Store) : CleanUps store (releaseWith ofStream value store) := by
  match value with
  | .stream stream => exact h stream store
  | .sequence items => exact cleanUps_releaseItemsWith h items store
  | .mapping entries => exact cleanUps_releaseMappingWith h entries store
  | .dict entries => exact cleanUps_releaseDictWith h entries store
  | .iterator iterator => exact cleanUps_closeHandle (.iterator iterator) store
  | .byteStream stream => exact cleanUps_closeHandle (.byteStream stream) store
  | .null | .bool _ | .int _ | .float _ | .byte _ | .bytes _ | .text _ | .link _ | .map _
  | .array _ => exact .refl
termination_by structural value

/-- Releasing items is cleaning up if releasing the streams in them is. -/
theorem cleanUps_releaseItemsWith (h : ∀ stream store, CleanUps store (ofStream stream store))
    (items : List Value) (store : Store) :
    CleanUps store (releaseItemsWith ofStream items store) := by
  match items with
  | [] => exact .refl
  | item :: rest =>
    exact (cleanUps_releaseWith h item store).trans (cleanUps_releaseItemsWith h rest _)
termination_by structural items

/-- Releasing the entries of a mapping is cleaning up if releasing the streams in them is. -/
theorem cleanUps_releaseMappingWith (h : ∀ stream store, CleanUps store (ofStream stream store))
    (entries : List (String × Value)) (store : Store) :
    CleanUps store (releaseMappingWith ofStream entries store) := by
  match entries with
  | [] => exact .refl
  | (_, value) :: rest =>
    exact (cleanUps_releaseWith h value store).trans (cleanUps_releaseMappingWith h rest _)
termination_by structural entries

/-- Releasing the entries of a dict is cleaning up if releasing the streams in them is. -/
theorem cleanUps_releaseDictWith (h : ∀ stream store, CleanUps store (ofStream stream store))
    (entries : List (Value × Value)) (store : Store) :
    CleanUps store (releaseDictWith ofStream entries store) := by
  match entries with
  | [] => exact .refl
  | (key, value) :: rest =>
    have hkey := cleanUps_releaseWith h key store
    have hvalue := cleanUps_releaseWith h value (releaseWith ofStream key store)
    exact (hkey.trans hvalue).trans (cleanUps_releaseDictWith h rest _)
termination_by structural entries

end

end Release

/-- Draining a stream is cleaning up if what is done to its elements is. -/
theorem cleanUps_drain {f : Value → Store → Store}
    (h : ∀ value store, CleanUps store (f value store)) (stream : Handle .stream) (limit : Nat)
    (store : Store) :
    CleanUps store (store.drain stream f limit) := by
  induction limit generalizing store with
  | zero => exact .refl
  | succ limit ih =>
    have hpull : CleanUps store (store.pull stream).2 := .single (.pull store stream)
    unfold drain
    rcases heq : store.pull stream with ⟨_ | value, middle⟩ <;> rw [heq] at hpull
    · exact hpull
    · exact (hpull.trans (h value middle)).trans (ih _)

/-- Releasing a stream is cleaning up. -/
theorem cleanUps_releaseStream (depth : Nat) (stream : Handle .stream) (store : Store) :
    CleanUps store (releaseStream depth stream store) := by
  induction depth generalizing stream store with
  | zero => exact .refl
  | succ depth ih => exact cleanUps_drain (cleanUps_releaseWith ih) stream _ store

/-- Releasing a value is cleaning up. -/
theorem cleanUps_release (value : Value) (store : Store) : CleanUps store (release value store) :=
  cleanUps_releaseWith (cleanUps_releaseStream _) value store

/-- Releasing several values is cleaning up. -/
theorem cleanUps_releaseAll (values : List Value) (store : Store) :
    CleanUps store (releaseAll values store) := by
  induction values generalizing store with
  | nil => exact .refl
  | cons value values ih => exact (cleanUps_release value store).trans (ih _)

/-- One operation of cleaning up takes elements out of streams at most. -/
theorem CleanUp.drains {store after : Store} (h : CleanUp store after) :
    Drains store after fun _ => True := by
  cases h with
  | pull stream =>
    rcases hpull : store.pull stream with ⟨_ | value, middle⟩
    · obtain ⟨_, rfl⟩ := pull_none hpull
      exact .refl _ _
    · exact (Drains.of_pull hpull).mono fun _ _ => trivial
  | closeIterator iterator => exact (drains_closeIterator store iterator).mono fun _ _ => trivial
  | closeByteStream stream => exact (drains_closeByteStream store stream).mono fun _ _ => trivial

/-- Cleaning up takes elements out of streams. -/
theorem CleanUps.drains {store after : Store} (h : CleanUps store after) :
    Drains store after fun _ => True := by
  induction h with
  | refl => exact .refl _ _
  | tail _ hlast ih => exact (ih.trans hlast.drains).mono fun _ _ => trivial

/-- All that flattening does is cleaning up. -/
theorem flattening_cleanUps : Flattening fun store after _ _ => CleanUps store after where
  suffix h := h.drains.suffix
  fewer h := h.drains.fewer
  nil _ := .refl
  atom _ _ _ := .refl
  append := .trans
  sequence h := h
  mapping h := h
  entry _ h := h
  dict h := h
  stream h := h
  exhausted _ := .refl
  pulled {store _ _ _ stream _ _ _} hpull hvalue hrest := by
    have hfirst := CleanUp.pull store stream
    rw [hpull] at hfirst
    exact (Relation.ReflTransGen.head hfirst hvalue).trans hrest

/-- Flattening a value is cleaning up. -/
theorem cleanUps_flatten (value : Value) (store : Store) :
    CleanUps store ((flatten value).run store).2 :=
  flattening_cleanUps.flatten value store

end Store

end Sluice
