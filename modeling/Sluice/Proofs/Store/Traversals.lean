import Sluice.Proofs.Store.Histories
import Sluice.Proofs.Store.Sparing

/-!
# Traversing iterators

Whatever is called on the handles of an iterator over values in memory, each call gets the answer
that the number of moves before it asks for (`Iterator.Call.answer`): moving on succeeds once for
each value, reading and the key are about the value that the last move has reached, and after the
first close there is nothing to move to and nothing to read.

Whatever iterator is behind the handles, what reaches it are the calls up to the first close
(`guarded_iterator`). Both together are the protocol of iterators (`traversal_protocol`).
-/

namespace Sluice

namespace Iterator

/-- What the holders of an iterator can call. A value is read into a place that holds one
already. -/
inductive Call
  | next
  | scan (place : Value)
  | key
  | close

/-- What a call gives back. Reading also leaves a value in the place. -/
inductive Answer
  | moved (more : Bool)
  | scanned (result : Except ValueError Unit) (place : Value)
  | key (position : Value)
  | closed (result : Except ValueError Unit)

namespace Call

/-- Whether a call asks to move on. -/
def isNext : Call → Bool
  | next => true
  | scan _ | key | close => false

/-- Whether a call is the closing one. -/
def isClose : Call → Bool
  | close => true
  | next | scan _ | key => false

/-- What reaches an open iterator by a call. Asking for the key is not recorded. -/
def event? (iterator : Handle .iterator) : Call → Option Event
  | next => some (.advanced iterator)
  | scan _ => some (.scanned iterator)
  | key => none
  | close => some (.closedIterator iterator)

end Call

/-- How often the calls have asked to move on before the first close. -/
def moves (calls : List Call) : Nat := (Store.untilClosed Call.isClose calls).countP Call.isNext

/-- Where so many moves lead to, as a position and the value there. Before the first move and past
the last value it is nowhere. -/
def standing (values : List Value) : Nat → Option (Nat × Value)
  | 0 => none
  | moves + 1 => values[moves]?.map fun value => (moves, value)

/-- The answer of a call after others on an iterator over values in memory. -/
def Call.answer (values : List Value) (past : List Call) : Call → Answer
  | next => .moved (!past.any isClose && moves past < values.length)
  | scan place =>
    if past.any isClose then .scanned (.error .iteratorClosed) place
    else
      match standing values (moves past) with
      | none => .scanned (.error .notPositioned) place
      | some (_, value) => .scanned (.ok ()) value
  | key => .key ((standing values (moves past)).elim .null fun place => .ofCount place.1)
  | close => .closed (.ok ())

/-- A further call counts as a move if it asks to move on and no close came before it. -/
theorem moves_concat (calls : List Call) (call : Call) :
    moves (calls ++ [call]) =
      moves calls + if !calls.any Call.isClose && call.isNext then 1 else 0 := by
  rw [moves, moves, Store.untilClosed_concat]
  cases calls.any Call.isClose <;> simp [List.countP_cons]

end Iterator

namespace Cursor

open Iterator

/-- The cursor over values after calls. -/
def after (values : List Value) (calls : List Call) : Cursor where
  rest := values.drop (moves calls)
  current := standing values (moves calls)
  reached := min (moves calls) values.length
  closed := calls.any Call.isClose

variable {values : List Value} {calls : List Call}

/-- Behind a close the cursor stays where it is. -/
theorem after_concat_of_closed (h : calls.any Call.isClose = true) (call : Call) :
    after values (calls ++ [call]) = after values calls := by
  simp [after, moves_concat, h]

/-- A call that asks neither to move on nor to close leaves the cursor where it is. -/
theorem after_concat_of_not_isNext {call : Call} (hnext : call.isNext = false)
    (hclose : call.isClose = false) : after values (calls ++ [call]) = after values calls := by
  simp [after, moves_concat, hnext, hclose]

/-- A close closes the cursor where it stands. -/
theorem after_concat_close : after values (calls ++ [.close]) = (after values calls).close := by
  simp [after, close, moves_concat, Call.isNext, Call.isClose]

/-- Moving on before a close succeeds while there are values that have not been moved to. -/
theorem next_after (h : calls.any Call.isClose = false) :
    (after values calls).next =
      (decide (moves calls < values.length), after values (calls ++ [Call.next])) := by
  have hmoves : moves (calls ++ [Call.next]) = moves calls + 1 := by
    simp [moves_concat, h, Call.isNext]
  have hclosed : (calls ++ [Call.next]).any Call.isClose = false := by
    simp [h, Call.isClose]
  rw [next, after, after, hmoves, hclosed, h, if_neg (by simp)]
  rcases Nat.lt_or_ge (moves calls) values.length with hlt | hge
  · have hreached : min (moves calls) values.length = moves calls := by omega
    have hnext : min (moves calls + 1) values.length = moves calls + 1 := by omega
    rw [List.drop_eq_getElem_cons hlt, hreached, hnext, standing, List.getElem?_eq_getElem hlt,
      decide_eq_true hlt]
    rfl
  · have hreached : min (moves calls) values.length = values.length := by omega
    have hnext : min (moves calls + 1) values.length = values.length := by omega
    have hdrop : values.drop (moves calls + 1) = [] := List.drop_of_length_le (by omega)
    rw [List.drop_of_length_le hge, hdrop, hreached, hnext, standing, List.getElem?_eq_none hge,
      decide_eq_false (by omega)]
    rfl

end Cursor

namespace Store

open Iterator

/-- A call on an iterator. -/
def callIterator (iterator : Handle .iterator) : Call → Store → Answer × Store
  | .next, store =>
    let (more, store) := store.advance iterator
    (.moved more, store)
  | .scan place, store =>
    let ((result, place), store) := store.scanInto iterator place
    (.scanned result place, store)
  | .key, store => (.key (store.iteratorKey iterator), store)
  | .close, store =>
    let (result, store) := store.closeIterator iterator
    (.closed result, store)

section Reaching

variable {iterator : Handle .iterator} {store : Store}

/-- A closed iterator does not advance. -/
theorem advance_of_closed (h : store.isIteratorClosed iterator = true) :
    store.advance iterator = (false, store) := if_pos h

/-- Reading a closed iterator fails and leaves the place as it is. -/
theorem scanInto_of_closed (h : store.isIteratorClosed iterator = true) (place : Value) :
    store.scanInto iterator place = ((.error .iteratorClosed, place), store) := by
  have hcurrent : store.current iterator = (.error .iteratorClosed, store) := if_pos h
  rw [scanInto, hcurrent]

/-- Closing a closed iterator does nothing. -/
theorem closeIterator_of_closed (h : store.isIteratorClosed iterator = true) :
    store.closeIterator iterator = (.ok (), store) := if_pos h

/-- Advancing moves the cursor of an open iterator. -/
theorem advance_of_open (h : store.isIteratorClosed iterator = false) :
    (store.advance iterator).1 = (store.iterators.get iterator).cursor.next.1 ∧
    (store.advance iterator).2.iterators =
      store.iterators.set iterator { store.iterators.get iterator with
        cursor := (store.iterators.get iterator).cursor.next.2
        advances := (store.iterators.get iterator).advances + 1 } := by
  rw [isIteratorClosed] at h
  rw [advance, if_neg (by simp [h])]
  refine ⟨rfl, ?_⟩
  cases (store.iterators.get iterator).behaviour.cancels
    ((store.iterators.get iterator).advances + 1) <;> rfl

/-- Besides the advance only the throwing of a switch may be recorded, which reaches no source. -/
theorem reached_advance_of_open (h : store.isIteratorClosed iterator = false) :
    (store.advance iterator).2.reached (.iterator iterator) =
      store.reached (.iterator iterator) ++ [.advanced iterator] := by
  have hjournal : (store.advance iterator).2.journal = [.advanced iterator] ++ store.journal ∨
      ∃ switch, (store.advance iterator).2.journal =
        [.cancelled switch, .advanced iterator] ++ store.journal := by
    rw [isIteratorClosed] at h
    rw [advance, if_neg (by simp [h])]
    cases (store.iterators.get iterator).behaviour.cancels
        ((store.iterators.get iterator).advances + 1) with
    | none => exact .inl rfl
    | some switch => exact .inr ⟨switch, rfl⟩
  rcases hjournal with hjournal | ⟨switch, hjournal⟩
  · rw [reached_of_journal_eq hjournal]
    simp [Event.source?]
  · rw [reached_of_journal_eq hjournal]
    simp [Event.source?]

/-- Reading leaves the store of an open iterator as it is, but for the record of it. -/
theorem snd_scanInto_of_open (h : store.isIteratorClosed iterator = false) (place : Value) :
    (store.scanInto iterator place).2 = store.record (.scanned iterator) := by
  have hcurrent : (store.current iterator).2 = store.record (.scanned iterator) := by
    rw [isIteratorClosed] at h
    rw [current, if_neg (by simp [h])]
  rw [scanInto, ← hcurrent]
  cases store.current iterator with
  | mk result after => cases result <;> rfl

/-- Closing an open iterator is recorded and calls its underlying close. -/
theorem closeIterator_of_open (h : store.isIteratorClosed iterator = false) :
    store.closeIterator iterator =
      ((store.iterators.get iterator).behaviour.closeFault.elim (.ok ()) .error,
        { store.record (.closedIterator iterator) with
          iterators := store.iterators.set iterator { store.iterators.get iterator with
            cursor := (store.iterators.get iterator).cursor.close
            closes := (store.iterators.get iterator).closes + 1 } }) := by
  rw [isIteratorClosed] at h
  rw [closeIterator, if_neg (by simp [h])]
  cases (store.iterators.get iterator).behaviour.closeFault <;> rfl

/-- No call changes anything about a closed iterator. -/
theorem snd_callIterator_of_closed (h : store.isIteratorClosed iterator = true) (call : Call) :
    (callIterator iterator call store).2 = store := by
  cases call with
  | next => rw [callIterator, advance_of_closed h]
  | scan place => rw [callIterator, scanInto_of_closed h]
  | key => rfl
  | close => rw [callIterator, closeIterator_of_closed h]

/-- A call reaches an open iterator once, if it is not for the key. -/
theorem reached_callIterator_of_open (h : store.isIteratorClosed iterator = false) (call : Call) :
    (callIterator iterator call store).2.reached (.iterator iterator) =
      store.reached (.iterator iterator) ++ (call.event? iterator).toList := by
  have hrecord (event : Event) : (store.record event).journal = [event] ++ store.journal := rfl
  cases call with
  | next => exact reached_advance_of_open h
  | scan place =>
    rw [callIterator, snd_scanInto_of_open h, reached_of_journal_eq (hrecord _)]
    simp [Event.source?, Call.event?]
  | key => simp [callIterator, Call.event?]
  | close =>
    have hjournal : (callIterator iterator .close store).2.journal =
        [.closedIterator iterator] ++ store.journal := by
      rw [callIterator, closeIterator_of_open h]
      rfl
    rw [reached_of_journal_eq hjournal]
    simp [Event.source?, Call.event?]

/-- A call closes an open iterator, and calls its underlying close, if it is for that. -/
theorem closes_callIterator_of_open (h : store.isClosed (.iterator iterator) = false)
    (call : Call) :
    (callIterator iterator call store).2.isClosed (.iterator iterator) = call.isClose ∧
    (callIterator iterator call store).2.closes (.iterator iterator) =
      store.closes (.iterator iterator) + if call.isClose then 1 else 0 := by
  cases call with
  | next =>
    have halike := closesAlike_advance iterator store
    exact ⟨halike.isClosed_eq.trans h, halike.closes_eq⟩
  | scan place =>
    rw [callIterator, snd_scanInto_of_open h]
    exact ⟨h, rfl⟩
  | key => exact ⟨h, rfl⟩
  | close =>
    obtain ⟨_, hclosed, hcloses⟩ := closeSource_spec (.iterator iterator) store
    refine ⟨hclosed, hcloses.trans ?_⟩
    rw [closesInAll, h]
    rfl

/-- The handle of an iterator guards it, whatever iterator it is. -/
theorem guarded_iterator (iterator : Handle .iterator) :
    Guarded (.iterator iterator) Call.isClose (Call.event? iterator) (callIterator iterator) where
  of_closed call store h := by
    rw [snd_callIterator_of_closed h]
    exact ⟨rfl, rfl, rfl⟩
  reached_eq call _ h := reached_callIterator_of_open h call
  isClosed_eq call _ h := (closes_callIterator_of_open h call).1
  closes_eq call _ h := (closes_callIterator_of_open h call).2

end Reaching

/-- Whether an iterator is one over values in memory after calls. -/
structure Traversed (iterator : Handle .iterator) (values : List Value) (calls : List Call)
    (store : Store) : Prop where
  cursor_eq : (store.iterators.get iterator).cursor = Cursor.after values calls
  behaviour_eq : (store.iterators.get iterator).behaviour = {}

section Traversed

variable {iterator : Handle .iterator} {values : List Value} {calls : List Call} {store : Store}

/-- An iterator is closed if there was a close among the calls. -/
theorem Traversed.isIteratorClosed_eq (h : Traversed iterator values calls store) :
    store.isIteratorClosed iterator = calls.any Call.isClose := by
  rw [isIteratorClosed, h.cursor_eq]
  rfl

/-- Reading gives the value of the cursor, or its error and what was in the place. -/
theorem Traversed.fst_scanInto (h : Traversed iterator values calls store) (place : Value) :
    (store.scanInto iterator place).1 =
      match (Cursor.after values calls).scan with
      | .ok value => (.ok (), value)
      | .error error => (.error error, place) := by
  have hcurrent : (store.current iterator).1 = (Cursor.after values calls).scan := by
    rw [current, h.cursor_eq, h.behaviour_eq, Cursor.scan]
    cases (Cursor.after values calls).closed with
    | true => rfl
    | false => cases (Cursor.after values calls).current <;> rfl
  rw [scanInto, ← hcurrent]
  rcases store.current iterator with ⟨_ | _, _⟩ <;> rfl

/-- A call after others gets its answer. -/
theorem Traversed.fst_callIterator (h : Traversed iterator values calls store) (call : Call) :
    (callIterator iterator call store).1 = call.answer values calls := by
  have hclosed := h.isIteratorClosed_eq
  cases call with
  | next =>
    change Answer.moved (store.advance iterator).1 = _
    cases hcalls : calls.any Call.isClose with
    | true =>
      rw [advance_of_closed (hclosed.trans hcalls), Call.answer, hcalls]
      rfl
    | false =>
      rw [(advance_of_open (hclosed.trans hcalls)).1, h.cursor_eq, Cursor.next_after hcalls,
        Call.answer, hcalls]
      rfl
  | scan place =>
    change Answer.scanned (store.scanInto iterator place).1.1
      (store.scanInto iterator place).1.2 = _
    rw [h.fst_scanInto, Call.answer, Cursor.scan, Cursor.after]
    cases calls.any Call.isClose with
    | true => rfl
    | false => cases standing values (moves calls) <;> rfl
  | key =>
    change Answer.key (store.iterators.get iterator).cursor.key = _
    rw [h.cursor_eq, Call.answer, Cursor.key, Cursor.after]
    cases standing values (moves calls) <;> rfl
  | close =>
    change Answer.closed (store.closeIterator iterator).1 = _
    cases hcalls : calls.any Call.isClose with
    | true => rw [closeIterator_of_closed (hclosed.trans hcalls), Call.answer]
    | false =>
      rw [closeIterator_of_open (hclosed.trans hcalls), h.behaviour_eq, Call.answer]
      rfl

/-- A call is one of those after it. -/
theorem Traversed.concat (h : Traversed iterator values calls store) (call : Call) :
    Traversed iterator values (calls ++ [call]) (callIterator iterator call store).2 := by
  have hclosed := h.isIteratorClosed_eq
  -- After a close no call changes anything, so only an open iterator goes by the calls.
  cases hcalls : calls.any Call.isClose with
  | true =>
    rw [snd_callIterator_of_closed (hclosed.trans hcalls)]
    exact ⟨h.cursor_eq.trans (Cursor.after_concat_of_closed hcalls call).symm, h.behaviour_eq⟩
  | false =>
    rw [hcalls] at hclosed
    have hhas : store.Has (.iterator iterator) := has_of_isClosed_eq_false hclosed
    have hset (cell : Iterator) : (store.iterators.set iterator cell).get iterator = cell :=
      Table.get_set_self hhas cell
    cases call with
    | next =>
      have hcell := (advance_of_open hclosed).2
      rw [h.cursor_eq, Cursor.next_after hcalls] at hcell
      refine ⟨?_, ?_⟩
      · rw [callIterator, hcell, hset]
      · rw [callIterator, hcell, hset]
        exact h.behaviour_eq
    | scan place =>
      rw [callIterator, snd_scanInto_of_open hclosed]
      exact ⟨h.cursor_eq.trans (Cursor.after_concat_of_not_isNext rfl rfl).symm, h.behaviour_eq⟩
    | key =>
      exact ⟨h.cursor_eq.trans (Cursor.after_concat_of_not_isNext rfl rfl).symm, h.behaviour_eq⟩
    | close =>
      rw [callIterator, closeIterator_of_open hclosed]
      refine ⟨?_, ?_⟩
      · rw [hset, h.cursor_eq, Cursor.after_concat_close]
      · rw [hset]
        exact h.behaviour_eq

/-- After any history an iterator over values in memory stands where the calls have led it. -/
theorem traversed_of_history {opened : Store} {events : List (Call × Answer)}
    (hcell : opened.iterators.get iterator = { cursor := .ofValues values })
    (h : History (Untouched (.iterator iterator)) (callIterator iterator) opened events store) :
    Traversed iterator values (events.map Prod.fst) store := by
  refine h.invariant (P := fun past store =>
    Traversed iterator values (past.map Prod.fst) store) ?_ ?_ ?_
  · exact ⟨by rw [hcell]; rfl, by rw [hcell]⟩
  · rintro past store after hafter ⟨hcursor, hbehaviour⟩
    have hsame : after.iterators.get iterator = store.iterators.get iterator := hafter.sameCell
    exact ⟨by rw [hsame, hcursor], by rw [hsame, hbehaviour]⟩
  · intro past store call hpast
    rw [List.map_append]
    exact hpast.concat call

end Traversed

/-- The protocol of iterators. Whatever is called on a new iterator over values in memory, every
call gets its answer. Whatever is called on any iterator that is open at the start, and whatever the
iterator behind the handles turns into between the calls, it is reached by the calls up to the first
close only, and its underlying close is called once if there is a close and never if there is
none. -/
theorem traversal_protocol (iterator : Handle .iterator) :
    (∀ (start opened final : Store) (values : List Value) (events : List (Call × Answer)),
      start.newIterator values {} = (iterator, opened) →
      History (Untouched (.iterator iterator)) (callIterator iterator) opened events final →
      ∀ past call answer later, events = past ++ (call, answer) :: later →
        answer = call.answer values (past.map Prod.fst)) ∧
    (∀ (start final : Store) (events : List (Call × Answer)),
      start.isClosed (.iterator iterator) = false →
      History (Unreached (.iterator iterator)) (callIterator iterator) start events final →
      final.closes (.iterator iterator) = start.closes (.iterator iterator) +
        (if (events.map Prod.fst).any Call.isClose then 1 else 0) ∧
      final.reached (.iterator iterator) = start.reached (.iterator iterator) ++
        (untilClosed Call.isClose (events.map Prod.fst)).filterMap (Call.event? iterator)) := by
  refine ⟨?_, ?_⟩
  · intro start opened final values events hnew h past call answer later hsplit
    have hcell : opened.iterators.get iterator = { cursor := .ofValues values } := by
      cases hnew
      exact Table.get_push_self _ _
    obtain ⟨store, hpast, hanswer⟩ := h.exists_before hsplit
    rw [← hanswer]
    exact (traversed_of_history hcell hpast).fst_callIterator call
  · intro start final events hopen h
    obtain ⟨_, hcloses, hreached⟩ := (guarded_iterator iterator).after_history hopen h
    exact ⟨hcloses, hreached⟩

/-- Two values that are traversed past the end and closed. Then an iterator that fails to close and
turns into another one after its only value has been reached. -/
theorem traversal_protocol_of_two :
    let past : List (Call × Answer) :=
      [(.scan .null, .scanned (.error .notPositioned) .null), (.next, .moved true),
        (.scan .null, .scanned (.ok ()) (.text "a")), (.key, .key (.int 0)), (.next, .moved true),
        (.scan .null, .scanned (.ok ()) (.text "b")), (.key, .key (.int 1)), (.next, .moved false),
        (.key, .key .null), (.close, .closed (.ok ()))]
    (∃ opened final : Store, Store.newIterator [.text "a", .text "b"] {} {} = (⟨0⟩, opened) ∧
      History (Untouched (.iterator ⟨0⟩)) (callIterator ⟨0⟩) opened
        (past ++ [(.scan .null, .scanned (.error .iteratorClosed) .null)]) final ∧
      Answer.scanned (.error .iteratorClosed) .null =
        (Call.scan .null).answer [.text "a", .text "b"] (past.map Prod.fst)) ∧
    (∃ (start final : Store) (events : List (Call × Answer)),
      start.isClosed (.iterator ⟨0⟩) = false ∧
      events.map Prod.fst = [.next, .next, .close, .next, .close] ∧
      History (Unreached (.iterator ⟨0⟩)) (callIterator ⟨0⟩) start events final ∧
      final.closes (.iterator ⟨0⟩) = 1 ∧
      final.reached (.iterator ⟨0⟩) = [.advanced ⟨0⟩, .advanced ⟨0⟩, .closedIterator ⟨0⟩]) := by
  intro past
  refine ⟨?_, ?_⟩
  · let opened := (Store.newIterator [.text "a", .text "b"] {} {}).2
    have hnew : Store.newIterator [.text "a", .text "b"] {} {} = (⟨0⟩, opened) := rfl
    have hcalled {past : List (Call × Answer)} {store : Store}
        (h : History (Untouched (.iterator ⟨0⟩)) (callIterator ⟨0⟩) opened past store)
        (call : Call) : History (Untouched (.iterator ⟨0⟩)) (callIterator ⟨0⟩) opened
          (past ++ [(call, call.answer [.text "a", .text "b"] (past.map Prod.fst))])
          (callIterator ⟨0⟩ call store).2 :=
      h.called_of_eq ((traversed_of_history rfl h).fst_callIterator call)
    have hfirst := hcalled (hcalled (hcalled (hcalled .start (.scan .null)) .next)
      (.scan .null)) .key
    have hsecond := hcalled (hcalled (hcalled hfirst .next) (.scan .null)) .key
    have hpast := hcalled (hcalled (hcalled hsecond .next) .key) .close
    have hhistory := hcalled hpast (.scan .null)
    exact ⟨opened, _, hnew, hhistory,
      (traversal_protocol ⟨0⟩).1 _ _ _ _ _ hnew hhistory past _ _ [] rfl⟩
  · let start := (Store.newIterator [.null] { closeFault := some .notPositioned } {}).2
    let moved := (callIterator ⟨0⟩ .next start).2
    let other : Iterator :=
      { cursor := .ofValues [.null], behaviour := { closeFault := some .notPositioned } }
    let turned : Store := { moved with iterators := moved.iterators.set ⟨0⟩ other }
    have hturned : Unreached (.iterator ⟨0⟩) moved turned := ⟨rfl, rfl, rfl⟩
    have hfirst := (History.called Call.next .start).between hturned
    have hclosed := (hfirst.called Call.next).called Call.close
    have hhistory := (hclosed.called Call.next).called Call.close
    obtain ⟨hcloses, hreached⟩ := (traversal_protocol ⟨0⟩).2 _ _ _ rfl hhistory
    exact ⟨start, _, _, rfl, rfl, hhistory, hcloses, hreached⟩

end Store

end Sluice
