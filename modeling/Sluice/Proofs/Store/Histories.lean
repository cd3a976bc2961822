import Mathlib.Tactic.Common
import Sluice.Proofs.Store.Closing

/-!
# Histories of calls

All holders of a handle may call what it stands for, one after the other, and between their calls
other things may happen to the store (`History`). A property that every call and everything else
keeps, a whole history keeps (`History.invariant`).

A source is guarded if calls reach it only while it is open and closing it is one of them
(`Guarded`). After any history what has reached a guarded source are the calls up to the first
close, so its underlying close has been called once if there is a close among the calls, and never
if there is none (`Guarded.after_history`).
-/

namespace Sluice

/-- The source that an event has reached. -/
def Event.source? : Event → Option Source
  | advanced iterator | scanned iterator | closedIterator iterator => some (.iterator iterator)
  | read stream | closedByteStream stream => some (.byteStream stream)
  | _ => none

namespace Store

section Histories

variable {κ α : Type} {apart : Store → Store → Prop} {call : κ → Store → α × Store}
  {start final : Store} {events : List (κ × α)}

/-- Calls one after the other, each with its answer, and the store that they lead to. Before,
between and after them whatever `apart` allows may happen to the store. -/
inductive History (apart : Store → Store → Prop) (call : κ → Store → α × Store) (start : Store) :
    List (κ × α) → Store → Prop
  | start : History apart call start [] start
  | between {events : List (κ × α)} {store after : Store} :
      History apart call start events store → apart store after →
      History apart call start events after
  | called {events : List (κ × α)} {store : Store} (request : κ) :
      History apart call start events store →
      History apart call start (events ++ [(request, (call request store).1)])
        (call request store).2

/-- What is true at the start and kept by each call and by what else happens is true after any
history. -/
theorem History.invariant {P : List (κ × α) → Store → Prop} (hstart : P [] start)
    (hbetween : ∀ past store after, apart store after → P past store → P past after)
    (hcalled : ∀ past store request, P past store →
      P (past ++ [(request, (call request store).1)]) (call request store).2)
    (h : History apart call start events final) : P events final := by
  induction h with
  | start => exact hstart
  | between _ hafter ih => exact hbetween _ _ _ hafter ih
  | called request _ ih => exact hcalled _ _ request ih

/-- A history stays one if more may happen between its calls. -/
theorem History.mono {wider : Store → Store → Prop}
    (hwider : ∀ store after, apart store after → wider store after)
    (h : History apart call start events final) : History wider call start events final := by
  induction h with
  | start => exact .start
  | between _ hafter ih => exact .between ih (hwider _ _ hafter)
  | called request _ ih => exact .called request ih

/-- A history goes on with a call, whose answer is known. -/
theorem History.called_of_eq {store : Store} (h : History apart call start events store)
    {request : κ} {answer : α} (hanswer : (call request store).1 = answer) :
    History apart call start (events ++ [(request, answer)]) (call request store).2 := by
  subst hanswer
  exact h.called request

/-- Before each call of a history there is the store that answers it. -/
theorem History.exists_before (h : History apart call start events final)
    {past later : List (κ × α)} {request : κ} {answer : α}
    (hevents : events = past ++ (request, answer) :: later) :
    ∃ store, History apart call start past store ∧ (call request store).1 = answer := by
  induction h generalizing later with
  | start => simp at hevents
  | between _ _ ih => exact ih hevents
  | @called before store last hbefore ih =>
    -- Events are added at the end, so it matters whether the split is at the last one.
    rcases List.eq_nil_or_concat later with rfl | ⟨front, latest, rfl⟩
    · obtain ⟨rfl, hlast⟩ := List.append_inj' hevents rfl
      obtain ⟨rfl, rfl⟩ := Prod.mk.inj (List.singleton_inj.mp hlast)
      exact ⟨store, hbefore, rfl⟩
    · rw [List.concat_eq_append, ← List.cons_append, ← List.append_assoc] at hevents
      exact ih (List.append_inj' hevents rfl).1

end Histories

section Closing

variable {κ : Type} {closing : κ → Bool}

/-- The calls up to the first one that closes, which is the last of them. -/
def untilClosed (closing : κ → Bool) : List κ → List κ
  | [] => []
  | call :: rest => call :: if closing call then [] else untilClosed closing rest

/-- A further call counts unless a closing one came before it. -/
theorem untilClosed_concat (calls : List κ) (call : κ) :
    untilClosed closing (calls ++ [call]) =
      untilClosed closing calls ++ if calls.any closing then [] else [call] := by
  induction calls with
  | nil => simp [untilClosed]
  | cons first rest ih =>
    cases hfirst : closing first with
    | true => simp [untilClosed, hfirst]
    | false => simp [untilClosed, hfirst, ih]

end Closing

/-- What has reached a source, oldest first. -/
def reached (store : Store) (source : Source) : List Event :=
  store.journal.reverse.filter fun event => event.source? = some source

/-- What is recorded in between reaches a source as far as it is about it. -/
theorem reached_of_journal_eq {store after : Store} {new : List Event}
    (h : after.journal = new ++ store.journal) (source : Source) :
    after.reached source =
      store.reached source ++ new.reverse.filter fun event => event.source? = some source := by
  rw [reached, reached, h, List.reverse_append, List.filter_append]

/-- Whether nothing has reached a source between two stores, and it is open or closed as before.
What it would answer may be something else. -/
structure Unreached (source : Source) (store after : Store) : Prop where
  reached_eq : after.reached source = store.reached source
  isClosed_eq : after.isClosed source = store.isClosed source
  closes_eq : after.closes source = store.closes source

/-- Whether a source is the same in two stores. -/
def SameCell (store after : Store) : Source → Prop
  | .iterator handle => after.iterators.get handle = store.iterators.get handle
  | .byteStream handle => after.byteStreams.get handle = store.byteStreams.get handle

/-- Whether nothing has reached a source between two stores, and it is as it was. -/
structure Untouched (source : Source) (store after : Store) : Prop where
  reached_eq : after.reached source = store.reached source
  sameCell : SameCell store after source

/-- A source that is as it was has not been reached. -/
theorem Untouched.unreached {source : Source} {store after : Store}
    (h : Untouched source store after) : Unreached source store after := by
  obtain ⟨hreached, hcell⟩ := h
  refine ⟨hreached, ?_, ?_⟩
  · cases source with
    | iterator handle => rw [isClosed, isClosed, isIteratorClosed, isIteratorClosed, hcell]
    | byteStream handle => rw [isClosed, isClosed, isByteStreamClosed, isByteStreamClosed, hcell]
  · cases source with
    | iterator handle => rw [closes, closes, hcell]
    | byteStream handle => rw [closes, closes, hcell]

section Guarded

variable {κ α : Type} {source : Source} {closing : κ → Bool} {event? : κ → Option Event}
  {call : κ → Store → α × Store}

/-- Whether calls reach a source, each with its event, only while it is open, and the closing ones
close it. -/
structure Guarded (source : Source) (closing : κ → Bool) (event? : κ → Option Event)
    (call : κ → Store → α × Store) : Prop where
  of_closed : ∀ (request : κ) (store : Store), store.isClosed source = true →
    Unreached source store (call request store).2
  reached_eq : ∀ (request : κ) (store : Store), store.isClosed source = false →
    (call request store).2.reached source = store.reached source ++ (event? request).toList
  isClosed_eq : ∀ (request : κ) (store : Store), store.isClosed source = false →
    (call request store).2.isClosed source = closing request
  closes_eq : ∀ (request : κ) (store : Store), store.isClosed source = false →
    (call request store).2.closes source = store.closes source + if closing request then 1 else 0

/-- A history of a source that is open at the start: it is closed if there is a closing call, its
underlying close has been called once if so and never if not, and what has reached it are the calls
up to the first closing one. -/
structure Guarded.After (source : Source) (closing : κ → Bool) (event? : κ → Option Event)
    (start : Store) (calls : List κ) (final : Store) : Prop where
  isClosed_eq : final.isClosed source = calls.any closing
  closes_eq : final.closes source = start.closes source + if calls.any closing then 1 else 0
  reached_eq : final.reached source =
    start.reached source ++ (untilClosed closing calls).filterMap event?

/-- After any history, what has reached a guarded source are the calls up to the first closing
one. -/
theorem Guarded.after_history (h : Guarded source closing event? call) {start final : Store}
    {events : List (κ × α)} (hopen : start.isClosed source = false)
    (hhistory : History (Unreached source) call start events final) :
    Guarded.After source closing event? start (events.map Prod.fst) final := by
  refine hhistory.invariant (P := fun past store =>
    Guarded.After source closing event? start (past.map Prod.fst) store) ?_ ?_ ?_
  · exact ⟨hopen, rfl, by simp [untilClosed]⟩
  · rintro past store after ⟨hreached, hclosed, hcloses⟩ ⟨ihClosed, ihCloses, ihReached⟩
    exact ⟨hclosed.trans ihClosed, hcloses.trans ihCloses, hreached.trans ihReached⟩
  · rintro past store request ⟨ihClosed, ihCloses, ihReached⟩
    rw [List.map_append, List.map_singleton]
    cases hpast : (past.map Prod.fst).any closing with
    | true =>
      obtain ⟨hreached, hclosed, hcloses⟩ := h.of_closed request store (ihClosed.trans hpast)
      refine ⟨?_, ?_, ?_⟩
      · rw [hclosed, ihClosed, List.any_append, hpast, Bool.true_or]
      · rw [hcloses, ihCloses, List.any_append, hpast, Bool.true_or]
      · rw [hreached, ihReached, untilClosed_concat, hpast, if_pos rfl, List.append_nil]
    | false =>
      have hstore := ihClosed.trans hpast
      refine ⟨?_, ?_, ?_⟩
      · rw [h.isClosed_eq request store hstore, List.any_append, hpast]
        simp
      · rw [h.closes_eq request store hstore, ihCloses, List.any_append, hpast]
        simp
      · rw [h.reached_eq request store hstore, ihReached, untilClosed_concat, hpast]
        cases hevent : event? request <;> simp [List.filterMap_append, hevent]

end Guarded

end Store

end Sluice
