import Sluice.Proofs.Eval.Links
import Sluice.Proofs.Store.Scope

/-!
# Actions that come to an end

An action on a scoped store whose links are resolved ends with an error or with a result, and what
it leaves is scoped (`Ends`, `Made`). Here this is shown for every action on one input, up to the
selectors, and for applying an action to each element of a stream.
-/

namespace Sluice

open Store

variable {α β : Type}

/-- Whether an action has an outcome, and a result has a property. -/
def Ends (action : Action α) (store : Store) (post : α → Store → Prop) : Prop :=
  ∃ result after, action.run store = some (result, after) ∧ ∀ a, result = .ok a → post a after

/-- Whether a result refers only to streams that exist, in a store that has grown. -/
structure Made (store : Store) (value : Value) (after : Store) : Prop
    extends Grows store after where
  value_le : value.streamBound ≤ after.streams.size

/-- What is made in a store that has grown is made in the store before. -/
theorem Made.after {store middle after : Store} {value : Value} (h : Grows store middle)
    (hmade : Made middle value after) : Made store value after :=
  ⟨h.trans hmade.toGrows, hmade.value_le⟩

/-- Links stay resolved in a store that grows. -/
theorem Store.Grows.resolved {store after : Store} (h : Grows store after)
    (hresolved : store.links.Resolved) : after.links.Resolved := h.links_eq ▸ hresolved

/-- A value refers to streams that exist also in a store that has grown. -/
theorem Store.Grows.value_le {store after : Store} {value : Value} (h : Grows store after)
    (hvalue : value.streamBound ≤ store.streams.size) : value.streamBound ≤ after.streams.size :=
  Nat.le_trans hvalue h.size_le

namespace Ends

variable {store : Store} {P : α → Store → Prop} {Q : β → Store → Prop}

/-- Doing nothing ends. -/
theorem pure {a : α} (h : P a store) : Ends (Pure.pure a) store P :=
  ⟨_, _, rfl, by rintro _ ⟨⟩; exact h⟩

/-- Failing at once ends. -/
theorem throw {error : EvalError} : Ends (MonadExcept.throw error) store P :=
  ⟨_, _, rfl, by rintro _ ⟨⟩⟩

/-- A result that is known ends. -/
theorem ofExcept {result : Except EvalError α} (h : ∀ a, result = .ok a → P a store) :
    Ends (MonadExcept.ofExcept result) store P :=
  ⟨_, _, Computation.run_ofExcept result store, h⟩

/-- What holds of the result may be weakened. -/
theorem mono {R : α → Store → Prop} {action : Action α} (h : Ends action store P)
    (hle : ∀ a after, P a after → R a after) : Ends action store R := by
  obtain ⟨result, after, hrun, hpost⟩ := h
  exact ⟨result, after, hrun, fun a ha => hle a after (hpost a ha)⟩

/-- Actions one after the other end if each does, the second on what the first leaves. -/
theorem bind {action : Action α} {f : α → Action β} (h : Ends action store P)
    (hf : ∀ a middle, P a middle → Ends (f a) middle Q) : Ends (action >>= f) store Q := by
  obtain ⟨result, middle, hrun, hpost⟩ := h
  unfold Ends
  rw [Computation.run_bind, hrun]
  cases result with
  | error error => exact ⟨_, _, rfl, by rintro _ ⟨⟩⟩
  | ok a => exact hf a middle (hpost a rfl)

/-- Changing the result does not matter to the end. -/
theorem map {action : Action α} (h : Ends action store P) {f : α → β}
    (hf : ∀ a after, P a after → Q (f a) after) : Ends (f <$> action) store Q :=
  bind h fun a middle ha => pure (hf a middle ha)

/-- An operation on the store ends. -/
theorem perform {operation : Store → α × Store}
    (h : P (operation store).1 (operation store).2) : Ends (Action.perform operation) store P :=
  ⟨_, _, rfl, by rintro _ ⟨⟩; exact h⟩

/-- An operation that may fail ends. -/
theorem attempt {ε : Type} {toError : ε → EvalError} {operation : Store → Except ε α × Store}
    (h : ∀ a, (operation store).1 = .ok a → P a (operation store).2) :
    Ends (Action.attempt toError operation) store P := by
  refine ⟨_, _, Action.run_attempt toError operation store, fun a ha => ?_⟩
  cases hresult : (operation store).1 with
  | error error => simp [hresult, Except.mapError] at ha
  | ok b =>
    obtain rfl : b = a := by simpa [hresult, Except.mapError] using ha
    exact h _ hresult

/-- An action ends also if it releases values on a failure. -/
theorem orRelease {action : Action α} (h : Ends action store P) (values : List Value) :
    Ends (action.orRelease values) store P := by
  obtain ⟨result, after, hrun, hpost⟩ := h
  simp only [Ends, Action.orRelease, Action.onError, ExceptT.run_mk, hrun]
  cases result with
  | error error => exact ⟨_, _, rfl, by rintro _ ⟨⟩⟩
  | ok a => exact ⟨_, _, rfl, hpost⟩

/-- An action ends also with a close at the end. -/
theorem thenClose {action : Action α} {close : Store → Except EvalError Unit × Store}
    {R : α → Store → Prop} (h : Ends action store P)
    (hclose : ∀ a after, P a after → R a (close after).2) :
    Ends (action.thenClose close) store R := by
  obtain ⟨result, after, hrun, hpost⟩ := h
  simp only [Ends, Action.thenClose, ExceptT.run_mk, hrun]
  refine ⟨_, _, rfl, fun a ha => ?_⟩
  cases result with
  | error error => cases ha
  | ok b =>
    unfold Action.outcomeOfUse at ha
    split at ha
    · cases ha
    · cases ha
      exact hclose _ after (hpost _ rfl)

end Ends

/-- A result that was changed comes from one that was not. -/
theorem exists_of_map_eq_ok {ε : Type} {result : Except ε α} {f : α → β} {b : β}
    (h : result.map f = .ok b) : ∃ a, f a = b := by
  cases result with
  | error error => cases h
  | ok a => exact ⟨a, Except.ok.inj h⟩

/-- What is selected by its position is one of the items. -/
theorem mem_of_select {position : Int64} {items : List α} {item : α}
    (h : select position items = .ok item) : item ∈ items := by
  unfold select at h
  split at h
  · cases h
  · split at h
    case h_1 hfound =>
      cases h
      exact List.mem_of_getElem? hfound
    case h_2 => cases h

/-- What lies in a slice is one of the items. -/
theorem mem_of_mem_slice {range : Filter.Range} {items : List α} {item : α}
    (h : item ∈ slice range items) : item ∈ items := List.mem_of_mem_drop (List.mem_of_mem_take h)

namespace Evaluator

variable {evaluator : Evaluator} {store : Store}

/-- Asking the context ends and changes nothing. -/
theorem ends_check : Ends evaluator.check store fun _ after => after = store :=
  .attempt fun _ _ => rfl

/-- What a value leads to refers to no other streams than the store. -/
theorem streamBound_follow? (hscope : store.Scoped) {count : Nat} {value target : Value}
    (hvalue : value.streamBound ≤ store.streams.size)
    (h : store.links.follow? count value = some target) :
    target.streamBound ≤ store.streams.size := by
  induction count generalizing value with
  | zero =>
    cases value with
    | link link => cases h
    | _ =>
      cases h
      exact hvalue
  | succ count ih =>
    cases value with
    | link link =>
      obtain ⟨next, hnext, hfollow⟩ := Option.bind_eq_some_iff.mp h
      exact ih (hscope.target link next hnext) hfollow
    | _ =>
      cases h
      exact hvalue

/-- Resolving a value ends, and where it succeeds it gives what the links lead to. -/
theorem ends_resolve (hresolved : store.links.Resolved) (value : Value) :
    Ends (evaluator.resolve value) store fun target after =>
      after = store ∧ store.links.leadsTo? value = some target := by
  cases htarget : store.links.leadsTo? value with
  | none =>
    obtain ⟨path, hrun⟩ := run_resolve_of_none hresolved htarget
    exact ⟨_, _, hrun, by rintro _ ⟨⟩⟩
  | some target =>
    refine ⟨_, _, run_resolve_of_some htarget, ?_⟩
    rintro _ ⟨⟩
    exact ⟨rfl, rfl⟩

/-- Passing over an input that is not supported ends. -/
theorem ends_unsupported (hscope : store.Scoped) (operation : Operation) (input : Value) :
    Ends (evaluator.unsupported operation input) store (Made store) := by
  unfold unsupported
  split
  · exact .pure ⟨.refl hscope, Nat.zero_le _⟩
  · exact .throw

/-- Rejecting an input ends with an error. -/
theorem ends_reject {post : Value → Store → Prop} (operation : Operation) (input : Value) :
    Ends (reject operation input) store post :=
  .bind (.perform (P := fun _ _ => True) trivial) fun _ _ _ => .throw

section Sources

variable (iterator : Handle .iterator)

/-- Advancing an iterator ends. -/
theorem ends_advance (hscope : store.Scoped) :
    Ends (advance iterator) store fun _ after => Grows store after :=
  .perform (hscope.grows_advance iterator)

/-- Reading an iterator ends, with a value that refers to streams that exist. -/
theorem ends_current (hscope : store.Scoped) : Ends (current iterator) store (Made store) :=
  .attempt fun _ hvalue => ⟨hscope.grows_current iterator,
    (hscope.grows_current iterator).value_le (hscope.streamBound_current hvalue)⟩

/-- An action ends also with an iterator closed at the end. -/
theorem ends_closingIterator {body : Action α} {post : α → Store → Prop}
    (h : Ends body store post)
    (hclose : ∀ a after, post a after → post a (after.closeIterator iterator).2) :
    Ends (closingIterator iterator body) store post := h.thenClose hclose

/-- Closing an iterator does not matter to what is made. -/
theorem Made.closeIterator {after : Store} {value : Value} (h : Made store value after) :
    Made store value (after.closeIterator iterator).2 :=
  have hgrows := h.scope.grows_closeIterator iterator
  ⟨h.toGrows.trans hgrows, hgrows.value_le h.value_le⟩

/-- Seeking a position ends, by induction on the advances that are left. -/
theorem ends_seek (position : Int64) (limit skip seen : Nat) (hscope : store.Scoped) :
    Ends (evaluator.seek iterator position limit skip seen) store (Made store) := by
  induction limit generalizing skip seen store with
  | zero => exact .throw
  | succ limit ih =>
    unfold seek
    refine .bind (ends_advance iterator hscope) fun more middle hgrows => ?_
    split
    · split
      · exact (ends_current iterator hgrows.scope).mono fun _ _ => .after hgrows
      · refine .bind ends_check fun _ middle heq => ?_
        rw [heq]
        exact (ih _ _ hgrows.scope).mono fun _ _ => .after hgrows
    · exact .throw

/-- Reading the element at a position ends. -/
theorem ends_nth (position : Int64) (hscope : store.Scoped) :
    Ends (evaluator.nth iterator position) store (Made store) := by
  refine ends_closingIterator iterator ?_ fun _ _ => Made.closeIterator iterator
  refine .bind (.ofExcept (P := fun _ after => after = store) fun _ _ => rfl)
    fun target middle heq => ?_
  rw [heq]
  refine .bind (.perform (P := fun _ after => after = store) rfl) fun limit middle heq => ?_
  rw [heq]
  exact ends_seek iterator position limit target 0 hscope

/-- The values of a window exist, and the store has grown. -/
theorem ends_window (start : Nat) (stop : Option Nat) (limit position : Nat)
    (collected : List Value) (hscope : store.Scoped)
    (hcollected : ∀ value ∈ collected, value.streamBound ≤ store.streams.size) :
    Ends (evaluator.window iterator start stop limit position collected) store
      fun values after => Made store (.sequence values) after := by
  induction limit generalizing position collected store with
  | zero => exact .pure ⟨.refl hscope, by simpa using hcollected⟩
  | succ limit ih =>
    unfold window
    split
    · refine .bind (ends_advance iterator hscope) fun more middle hgrows => ?_
      split
      -- What is left to do is the same whether the value is collected or not.
      · have hrest {values : List Value} {after : Store} (hafter : Grows store after)
            (hvalues : ∀ value ∈ values, value.streamBound ≤ after.streams.size) :
            Ends (evaluator.check >>= fun _ =>
              evaluator.window iterator start stop limit (position + 1) values) after
              fun values => Made store (.sequence values) := by
          refine .bind ends_check fun _ same heq => ?_
          rw [heq]
          exact (ih _ _ hafter.scope hvalues).mono fun _ _ => .after hafter
        split
        · refine .bind (.map (Q := fun values after => ∃ value, values = value :: collected ∧
            Made middle value after) (ends_current iterator hgrows.scope)
            fun value after hmade => ⟨value, rfl, hmade⟩) fun values after hvalues => ?_
          obtain ⟨value, rfl, hmade⟩ := hvalues
          have hafter := hgrows.trans hmade.toGrows
          refine hrest hafter fun other hother => ?_
          rcases List.mem_cons.mp hother with rfl | hmem
          · exact hmade.value_le
          · exact hafter.value_le (hcollected other hmem)
        · refine .bind (.pure (P := fun values after => values = collected ∧ after = middle)
            ⟨rfl, rfl⟩) fun values after hvalues => ?_
          obtain ⟨rfl, rfl⟩ := hvalues
          exact hrest hgrows fun value hmem => hgrows.value_le (hcollected value hmem)
      · exact .pure ⟨hgrows, by
          simpa using fun (value : Value) hmem => hgrows.value_le (hcollected value hmem)⟩
    · exact .pure ⟨.refl hscope, by simpa using hcollected⟩

/-- Collecting a range ends. -/
theorem ends_collectRange (range : Filter.Range) (hscope : store.Scoped) :
    Ends (evaluator.collectRange iterator range) store (Made store) := by
  refine ends_closingIterator iterator ?_ fun _ _ => Made.closeIterator iterator
  refine .bind (.ofExcept (P := fun _ after => after = store) fun _ _ => rfl)
    fun bounds middle heq => ?_
  rw [heq]
  refine .bind (.perform (P := fun _ after => after = store) rfl) fun limit middle heq => ?_
  rw [heq]
  refine .bind (ends_window iterator bounds.1 bounds.2 limit 0 [] hscope (by simp))
    fun values after hmade => .pure hmade

/-- Counting on ends, by induction on the advances that are left. -/
theorem ends_countFrom (limit count : Nat) (hscope : store.Scoped) :
    Ends (evaluator.countFrom iterator limit count) store fun _ after => Grows store after := by
  induction limit generalizing count store with
  | zero => exact .pure (.refl hscope)
  | succ limit ih =>
    unfold countFrom
    refine .bind (ends_advance iterator hscope) fun more middle hgrows => ?_
    split
    · refine .bind ends_check fun _ middle heq => ?_
      rw [heq]
      exact (ih _ hgrows.scope).mono fun _ _ => hgrows.trans
    · exact .pure hgrows

/-- Counting the elements ends. -/
theorem ends_count (hscope : store.Scoped) :
    Ends (evaluator.count iterator) store fun _ after => Grows store after := by
  refine ends_closingIterator iterator ?_ fun _ _ h =>
    h.trans (h.scope.grows_closeIterator iterator)
  refine .bind (.perform (P := fun _ after => after = store) rfl) fun limit middle heq => ?_
  rw [heq]
  exact ends_countFrom iterator limit 0 hscope

/-- Reading a range of bytes ends. -/
theorem ends_readRange (stream : Handle .byteStream) (range : Filter.Range)
    (hscope : store.Scoped) : Ends (readRange stream range) store (Made store) := by
  refine .thenClose (P := Made store) ?_ fun value after hmade =>
    have hgrows := hmade.scope.grows_closeByteStream stream
    ⟨hmade.toGrows.trans hgrows, hgrows.value_le hmade.value_le⟩
  refine .bind (.ofExcept (P := fun _ after => after = store) fun _ _ => rfl)
    fun bounds middle heq => ?_
  rw [heq]
  refine .bind (.attempt (P := fun _ after => Grows store after) fun _ _ =>
    hscope.grows_readWith _ stream) fun skipped middle hgrows => ?_
  split
  · exact .pure ⟨hgrows, Nat.zero_le _⟩
  · refine .bind (.attempt (P := fun _ after => Grows store after) fun _ _ => hgrows.trans ?_)
      fun content after hafter => .pure ⟨hafter, Nat.zero_le _⟩
    cases bounds.2 with
    | none | some stop => exact hgrows.scope.grows_readWith _ stream

end Sources

section Selectors

variable {input : Value} (hresolved : store.links.Resolved) (hscope : store.Scoped)
  (hinput : input.streamBound ≤ store.streams.size)

include hresolved hscope hinput

/-- Selecting an index ends. -/
theorem ends_selectIndex (position : Int64) :
    Ends (evaluator.selectIndex position input) store (Made store) := by
  refine .bind (ends_resolve hresolved input) fun target middle htarget => ?_
  obtain ⟨heq, htarget⟩ := htarget
  have hle := streamBound_follow? hscope hinput htarget
  rw [heq]
  split
  · exact ends_nth _ position hscope
  · refine .bind (.perform (P := fun _ => Grows store) (hscope.grows_iterateArray _))
      fun iterator after hgrows => ?_
    exact (ends_nth iterator position hgrows.scope).mono fun _ _ => .after hgrows
  · refine .ofExcept fun value hvalue => ⟨.refl hscope, ?_⟩
    rw [Value.streamBound_sequence_le] at hle
    exact hle value (mem_of_select hvalue)
  · refine .ofExcept fun value hvalue => ⟨.refl hscope, ?_⟩
    obtain ⟨c, rfl⟩ := exists_of_map_eq_ok hvalue
    exact Nat.zero_le _
  · refine .ofExcept fun value hvalue => ⟨.refl hscope, ?_⟩
    obtain ⟨b, rfl⟩ := exists_of_map_eq_ok hvalue
    exact Nat.zero_le _
  · exact ends_reject _ _
  · exact ends_unsupported hscope _ _

/-- Selecting a range ends. -/
theorem ends_selectRange (range : Filter.Range) :
    Ends (evaluator.selectRange range input) store (Made store) := by
  unfold selectRange
  split
  · exact .pure ⟨.refl hscope, hinput⟩
  · refine .bind (ends_resolve hresolved input) fun target middle htarget => ?_
    obtain ⟨heq, htarget⟩ := htarget
    have hle := streamBound_follow? hscope hinput htarget
    rw [heq]
    split
    · exact ends_collectRange _ range hscope
    · refine .bind (.perform (P := fun _ => Grows store) (hscope.grows_iterateArray _))
        fun iterator after hgrows => ?_
      exact (ends_collectRange iterator range hgrows.scope).mono fun _ _ => .after hgrows
    · exact ends_readRange _ range hscope
    · refine .pure ⟨.refl hscope, ?_⟩
      rw [Value.streamBound_sequence_le] at hle ⊢
      exact fun item hmem => hle item (mem_of_mem_slice hmem)
    · exact .pure ⟨.refl hscope, Nat.zero_le _⟩
    · exact .pure ⟨.refl hscope, Nat.zero_le _⟩
    · exact ends_unsupported hscope _ _

omit hinput in
/-- Taking the length ends. -/
theorem ends_length : Ends (evaluator.length input) store (Made store) := by
  have hcount {middle : Store} (hgrows : Grows store middle) (iterator : Handle .iterator) :
      Ends (.ofCount <$> evaluator.count iterator) middle (Made store) :=
    .map (ends_count iterator hgrows.scope) fun _ _ hafter =>
      ⟨hgrows.trans hafter, Nat.zero_le _⟩
  refine .bind (ends_resolve hresolved input) fun target middle htarget => ?_
  obtain ⟨heq, htarget⟩ := htarget
  rw [heq]
  split
  · exact .pure ⟨.refl hscope, Nat.zero_le _⟩
  · exact .pure ⟨.refl hscope, Nat.zero_le _⟩
  · exact .pure ⟨.refl hscope, Nat.zero_le _⟩
  · exact .pure ⟨.refl hscope, Nat.zero_le _⟩
  · exact .pure ⟨.refl hscope, Nat.zero_le _⟩
  · exact hcount (.refl hscope) _
  · exact .bind (.perform (P := fun _ => Grows store) (hscope.grows_iterateArray _))
      fun iterator _ hgrows => hcount hgrows iterator
  · exact .bind (.perform (P := fun _ => Grows store) (hscope.grows_iterateMap _))
      fun iterator _ hgrows => hcount hgrows iterator
  · exact ends_reject _ _
  · exact ends_unsupported hscope _ _

omit hresolved hinput in
/-- Making a stream of values that refer to streams that exist ends. -/
theorem ends_newStream (shape : LazyStream.Shape) {elements : List Value}
    (helements : ∀ element ∈ elements, element.streamBound ≤ store.streams.size) :
    Ends (newStream shape elements) store (Made store) := by
  refine .bind (.perform (P := fun stream after => Grows store after ∧
    stream.index < after.streams.size) (hscope.grows_newStream shape helements))
    fun stream after hstream => ?_
  exact .pure ⟨hstream.1, Value.streamBound_stream_le.mpr hstream.2⟩

/-- Iteration ends. -/
theorem ends_iterateAll : Ends (evaluator.iterateAll input) store (Made store) := by
  unfold iterateAll
  split
  · exact ends_newStream hscope _ (by simpa using hinput)
  · refine .bind (ends_resolve hresolved _) fun target middle htarget => ?_
    obtain ⟨heq, htarget⟩ := htarget
    have hle := streamBound_follow? hscope hinput htarget
    rw [heq]
    split
    · exact .pure ⟨.refl hscope, Nat.zero_le _⟩
    · exact .bind (.perform (P := fun _ => Grows store) (hscope.grows_iterateArray _))
        fun iterator _ hgrows => .pure ⟨hgrows, Nat.zero_le _⟩
    · exact ends_newStream hscope _ (Value.streamBound_sequence_le.mp hle)
    · exact ends_newStream hscope _ (by simpa using hle)

omit hresolved in
/-- Selecting an entry ends, and makes no stream. -/
theorem ends_selectEntry (name : String) :
    Ends (evaluator.selectEntry name input) store fun value after =>
      Made store value after ∧ after.streams = store.streams := by
  unfold selectEntry
  split
  · exact .attempt fun _ hvalue => ⟨⟨hscope.grows_lookUp _ name,
      (hscope.grows_lookUp _ name).value_le (hscope.streamBound_lookUp hvalue)⟩, rfl⟩
  case h_2 entries =>
    refine .pure ⟨⟨.refl hscope, ?_⟩, rfl⟩
    rw [Value.streamBound_mapping_le] at hinput
    cases hlookup : entries.lookup name with
    | none => exact Nat.zero_le _
    | some value =>
      obtain ⟨before, rest, rfl, _⟩ := List.lookup_eq_some_iff.mp hlookup
      exact hinput (name, value) (by simp)
  case h_3 entries =>
    refine .pure ⟨⟨.refl hscope, ?_⟩, rfl⟩
    rw [Value.streamBound_dict_le] at hinput
    rcases entryUnder_eq_null_or_mem name entries with hnull | ⟨entry, hmem, heq⟩
    · rw [hnull]
      exact Nat.zero_le _
    · rw [heq]
      exact (hinput entry hmem).2
  · exact ends_reject _ _
  · exact ends_reject _ _
  · exact ends_reject _ _
  · unfold unsupported
    split
    · exact .pure ⟨⟨.refl hscope, Nat.zero_le _⟩, rfl⟩
    · exact .throw

end Selectors

end Evaluator

end Sluice
