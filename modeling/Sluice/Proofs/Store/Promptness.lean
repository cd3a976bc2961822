import Sluice.Proofs.Store.CleanUp

/-!
# What follows the throwing of a switch

A switch is thrown in the middle of a fetch or of an advance. What prompt operations record after
that is the rest of the fetch, or one reading of the element just advanced to, and then closes only
(`Subsides`, `Prompt`). Operations that are prompt one after the other are prompt together
(`Prompt.trans`), since those that come second see that the switch is thrown.
-/

namespace Sluice

/-- What is recorded after a switch has been thrown, newest first, given what was recorded before:
further switches that are thrown by the same fetch, or one reading of the element that was just
advanced to, and then closes. -/
inductive Subsides (earlier : List Event) : List Event → Prop
  | fetch {switches : List Switch} : Subsides earlier (switches.map .cancelled)
  | scan {iterator : Handle .iterator} {before : List Event} :
      earlier = .advanced iterator :: before → Subsides earlier [.scanned iterator]
  | close {event : Event} {later : List Event} : event.IsClose → Subsides earlier later →
      Subsides earlier (event :: later)

/-- Closes may follow what subsides. -/
theorem Subsides.append {earlier later closes : List Event} (h : Subsides earlier later)
    (hcloses : ∀ event ∈ closes, event.IsClose) : Subsides earlier (closes ++ later) := by
  induction closes with
  | nil => exact h
  | cons event closes ih =>
    have hrest := ih fun other hmem => hcloses other (List.mem_cons_of_mem _ hmem)
    exact .close (hcloses event List.mem_cons_self) hrest

/-- Closes alone subside. -/
theorem Subsides.of_closes {earlier closes : List Event}
    (hcloses : ∀ event ∈ closes, event.IsClose) : Subsides earlier closes := by
  have hnone : Subsides earlier (([] : List Switch).map .cancelled) := .fetch
  simpa using hnone.append hcloses

namespace Store

/-- What prompt operations do to a store: they add to the journal; they throw the switch exactly if
they record it; after they have recorded it, and if it was thrown before, what they record
subsides. -/
structure PromptBy (switch : Switch) (store after : Store) (new : List Event) : Prop where
  journal_eq : after.journal = new ++ store.journal
  thrown : after.isThrown switch = true ↔ store.isThrown switch = true ∨ .cancelled switch ∈ new
  closes : store.isThrown switch = true → ∀ event ∈ new, event.IsClose
  subsides : ∀ later earlier, new = later ++ .cancelled switch :: earlier →
    Subsides (earlier ++ store.journal) later

/-- Whether what happens between two stores is prompt. -/
def Prompt (switch : Switch) (store after : Store) : Prop := ∃ new, PromptBy switch store after new

section Prompt

variable {switch : Switch} {store middle after : Store}

/-- Where the switch is not thrown at all, anything may be recorded. -/
theorem Prompt.of_not_mem (new : List Event) (hstore : store.isThrown switch = false)
    (hthrown : after.thrown = store.thrown) (hjournal : after.journal = new ++ store.journal)
    (hnew : .cancelled switch ∉ new) : Prompt switch store after := by
  refine ⟨new, hjournal, ?_, ?_, ?_⟩
  · simp [isThrown, hthrown, hnew]
  · simp [hstore]
  · rintro later earlier rfl
    exact absurd (by simp) hnew

/-- Cleaning up is always prompt. -/
theorem Prompt.of_cleanUps (h : CleanUps store after) : Prompt switch store after := by
  obtain ⟨hthrown, closes, hjournal, hcloses⟩ := h.exists_journal_eq
  have hnew : Event.cancelled switch ∉ closes := fun hmem => by cases hcloses _ hmem
  refine ⟨closes, hjournal, ?_, fun _ => hcloses, ?_⟩
  · simp [isThrown, hthrown, hnew]
  · rintro later earlier rfl
    exact absurd (by simp) hnew

/-- Doing nothing is prompt. -/
theorem Prompt.refl (switch : Switch) (store : Store) : Prompt switch store store :=
  .of_cleanUps .refl

/-- An operation that records nothing and throws nothing is prompt. -/
theorem Prompt.of_eq (hthrown : after.thrown = store.thrown)
    (hjournal : after.journal = store.journal) : Prompt switch store after := by
  refine ⟨[], hjournal, ?_, nofun, by simp⟩
  simp [isThrown, hthrown]

/-- Operations that are prompt one after the other are prompt together. -/
theorem Prompt.trans (h : Prompt switch store middle) (hnext : Prompt switch middle after) :
    Prompt switch store after := by
  obtain ⟨new, hjournal, hthrown, hcloses, hsubsides⟩ := h
  obtain ⟨more, hnextJournal, hnextThrown, hnextCloses, hnextSubsides⟩ := hnext
  refine ⟨more ++ new, ?_, ?_, ?_, ?_⟩
  · rw [hnextJournal, hjournal, List.append_assoc]
  · rw [hnextThrown, hthrown, List.mem_append]
    tauto
  · intro hstore event hmem
    exact (List.mem_append.mp hmem).elim (hnextCloses (hthrown.mpr (.inl hstore)) event)
      (hcloses hstore event)
  · intro later earlier heq
    rcases List.append_eq_append_iff.mp heq with ⟨rest, hlater, hnew⟩ | ⟨rest, hmore, hrest⟩
    · -- The switch was thrown in the first part, so the second part only closes.
      have hmiddle := hthrown.mpr (.inr (by rw [hnew]; simp))
      rw [hlater]
      exact (hsubsides rest earlier hnew).append (hnextCloses hmiddle)
    · cases rest with
      | nil =>
        have hmiddle := hthrown.mpr (.inr (by rw [← List.nil_append new, ← hrest]; simp))
        rw [hmore] at hnextCloses
        rw [List.append_nil] at hnextCloses
        exact .of_closes (hnextCloses hmiddle)
      | cons event rest =>
        obtain ⟨rfl, rfl⟩ := List.cons.inj hrest
        have hlater := hnextSubsides later rest hmore
        rwa [hjournal, ← List.append_assoc] at hlater

/-- A call may throw switches right after it has been recorded. -/
theorem Prompt.of_switches {event : Event} {switches : List Switch}
    (hstore : store.isThrown switch = false) (hevent : event ≠ .cancelled switch)
    (hthrown : after.thrown = switches ++ store.thrown)
    (hjournal : after.journal = switches.map .cancelled ++ event :: store.journal) :
    Prompt switch store after := by
  refine ⟨switches.map .cancelled ++ [event], by simpa using hjournal, ?_, ?_, ?_⟩
  · simp [isThrown, hthrown, or_comm, hevent.symm]
  · simp [hstore]
  · intro later earlier heq
    rcases List.append_eq_append_iff.mp heq with ⟨rest, _, hrest⟩ | ⟨rest, hswitches, _⟩
    · cases rest with
      | nil => exact absurd (List.cons.inj hrest).1 hevent
      | cons => simp at hrest
    · obtain ⟨first, _, _, hfirst, _⟩ := List.map_eq_append_iff.mp hswitches
      rw [← hfirst]
      exact .fetch

/-- Looking up a key is prompt while the switch is not thrown. -/
theorem prompt_lookUp (hstore : store.isThrown switch = false) (map : Handle .map) (key : String) :
    Prompt switch store (store.lookUp map key).2 :=
  .of_not_mem [.lookedUp map key] hstore rfl rfl (by simp)

/-- Iterating a collection is prompt while the switch is not thrown. -/
theorem prompt_iterateArray (hstore : store.isThrown switch = false) (array : Handle .array) :
    Prompt switch store (store.iterateArray array).2 :=
  .of_not_mem [.iteratedArray array (store.iterateArray array).1] hstore rfl rfl (by simp)

/-- Iterating a map is prompt while the switch is not thrown. -/
theorem prompt_iterateMap (hstore : store.isThrown switch = false) (map : Handle .map) :
    Prompt switch store (store.iterateMap map).2 :=
  .of_not_mem [.iteratedMap map (store.iterateMap map).1] hstore rfl rfl (by simp)

/-- Reading bytes is prompt while the switch is not thrown. -/
theorem prompt_readWith (hstore : store.isThrown switch = false)
    (read : ByteSource → Except String (List UInt8) × ByteSource) (stream : Handle .byteStream) :
    Prompt switch store (store.readWith read stream).2 := by
  simp only [readWith]
  split
  · exact .refl switch store
  · exact .of_not_mem [.read stream] hstore rfl rfl (by simp)

/-- An advance that reaches an open iterator is recorded, then the switch that it throws, if it
throws one. -/
theorem advance_records (iterator : Handle .iterator) (store : Store) :
    (store.advance iterator).2 = store ∧ store.isIteratorClosed iterator = true ∨
      ∃ thrown : Option Switch,
        (store.advance iterator).2.thrown = thrown.toList ++ store.thrown ∧
          (store.advance iterator).2.journal =
            thrown.toList.map .cancelled ++ .advanced iterator :: store.journal := by
  simp only [advance]
  split
  case isTrue hclosed => exact .inl ⟨rfl, hclosed⟩
  case isFalse =>
    right
    cases (store.iterators.get iterator).behaviour.cancels
        ((store.iterators.get iterator).advances + 1) with
    | none => exact ⟨none, rfl, rfl⟩
    | some switch => exact ⟨some switch, rfl, rfl⟩

/-- Reading an iterator is recorded, or changes nothing. -/
theorem current_records (iterator : Handle .iterator) (store : Store) :
    (store.current iterator).2 = store ∨
      (store.current iterator).2 = store.record (.scanned iterator) := by
  simp only [current]
  split
  · exact .inl rfl
  · exact .inr rfl

/-- Reading a closed iterator changes nothing. -/
theorem current_of_isIteratorClosed {iterator : Handle .iterator} {store : Store}
    (h : store.isIteratorClosed iterator = true) : (store.current iterator).2 = store := by
  simp only [current]
  exact congrArg Prod.snd (if_pos h)

/-- Advancing is prompt while the switch is not thrown, and may throw it. -/
theorem prompt_advance (hstore : store.isThrown switch = false) (iterator : Handle .iterator) :
    Prompt switch store (store.advance iterator).2 := by
  rcases advance_records iterator store with ⟨heq, _⟩ | ⟨thrown, hthrown, hjournal⟩
  · rw [heq]
    exact .refl switch store
  · have hevent : Event.advanced iterator ≠ .cancelled switch := nofun
    exact .of_switches hstore hevent hthrown hjournal

/-- An advance may throw the switch, and even so the element that it comes to may be read. -/
theorem prompt_current_advance (hstore : store.isThrown switch = false)
    (iterator : Handle .iterator) :
    Prompt switch store ((store.advance iterator).2.current iterator).2 := by
  rcases advance_records iterator store with ⟨heq, hclosed⟩ | ⟨thrown, hthrown, hjournal⟩
  · rw [heq, current_of_isIteratorClosed hclosed]
    exact .refl switch store
  · rcases current_records iterator (store.advance iterator).2 with heq | heq
    · rw [heq]
      exact prompt_advance hstore iterator
    · rw [heq]
      cases thrown with
      | none =>
        refine .of_not_mem [.scanned iterator, .advanced iterator] hstore hthrown ?_ (by simp)
        exact congrArg (Event.scanned iterator :: ·) hjournal
      | some other =>
        have hrecord : (Event.scanned iterator :: (store.advance iterator).2.journal) =
            [.scanned iterator, .cancelled other, .advanced iterator] ++ store.journal :=
          congrArg (Event.scanned iterator :: ·) hjournal
        refine ⟨_, hrecord, ?_, ?_, ?_⟩
        · have hmem : Event.cancelled switch ∈
              [.scanned iterator, .cancelled other, .advanced iterator] ↔ switch = other := by
            simp
          rw [hmem]
          simp [isThrown, record, hthrown, or_comm]
        · simp [hstore]
        · intro later earlier hsplit
          rcases later with _ | ⟨first, _ | ⟨second, _ | ⟨third, later⟩⟩⟩ <;> simp at hsplit
          obtain ⟨rfl, -, rfl⟩ := hsplit
          exact .scan rfl

/-- Fetching is prompt while the switch is not thrown, and may throw it. -/
theorem prompt_fetch (hstore : store.isThrown switch = false) (resolver : Resolver)
    (link : Handle .link) (path : String) :
    Prompt switch store (resolver.fetch link path store).2 := by
  obtain ⟨switches, links, hfetch⟩ := exists_fetch_eq resolver link path store
  have hevent : Event.fetched link path ≠ .cancelled switch := nofun
  rw [hfetch]
  exact .of_switches hstore hevent rfl rfl

end Prompt

end Store

end Sluice
