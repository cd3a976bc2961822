import Sluice.Proofs.Eval.Transparency

/-!
# Counting from the front

What can be run through only once is counted element by element, while what is in memory is cut by
its length. For positions that are counted from the front both give the same
(`exists_apply_eq_in_memory`): an iterator or a collection gives what the sequence of its elements
gives, also when a position lies behind the last of them, and a byte stream gives what its bytes
give, however they are split into single reads.
-/

namespace Sluice

open Sluice.Filter Sluice.Store

namespace Filter

/-- The first position of a range whose bounds are counted from the front. -/
def Range.first (range : Range) : Nat := range.start.elim 0 (·.toInt.toNat)

/-- The position that a range whose bounds are counted from the front ends before, if it ends. -/
def Range.limit? (range : Range) : Option Nat := range.stop.map (·.toInt.toNat)

/-- Whether a range has a bound, and all its bounds are counted from the front. -/
structure Range.FromFront (range : Range) : Prop where
  bounded : range.isAll = false
  start_nonneg : ∀ position ∈ range.start, 0 ≤ position.toInt
  stop_nonneg : ∀ position ∈ range.stop, 0 ≤ position.toInt

/-- How often an iterator with so many values ahead is advanced to come to a position that the
advances are stopped before, or to its end. -/
def advancesBefore (stop : Option Nat) (length : Nat) : Nat :=
  stop.elim (length + 1) (min · (length + 1))

/-- The nodes that count, or select by positions that are counted from the front. -/
inductive Node.FromFront : Node → Prop
  | length : Node.FromFront .length
  | index {position : Int64} : 0 ≤ position.toInt → Node.FromFront (.index position)
  | range {bounds : Range} : bounds.FromFront → Node.FromFront (.range bounds)

/-- How often such a node advances an iterator with so many values ahead. -/
def Node.advances : Node → (ahead : Nat) → Nat
  | .index position, ahead => min position.toInt.toNat ahead + 1
  | .range bounds, ahead => advancesBefore bounds.limit? ahead
  | _, ahead => ahead + 1

end Filter

/-- The elements from a position on, up to before another one. -/
def segment {α : Type} (start : Nat) (stop : Option Nat) (items : List α) : List α :=
  (stop.elim items fun stop => items.take stop).drop start

section Positions

variable {α : Type}

/-- No value has no segment. -/
@[simp] theorem segment_nil (start : Nat) (stop : Option Nat) :
    segment start stop ([] : List α) = [] := by
  cases stop <;> simp [segment]

/-- A segment that has already ended is empty. -/
theorem segment_eq_nil {start stop position : Nat} (h : stop ≤ position) (items : List α) :
    segment start (some (stop - position)) items = [] := by
  simp [segment, Nat.sub_eq_zero_of_le h]

/-- An element before the end of a segment belongs to it if it is not before its start. -/
theorem segment_cons {start position : Nat} {stop : Option Nat}
    (h : ∀ last ∈ stop, position < last) (item : α) (rest : List α) :
    segment (start - position) (stop.map (· - position)) (item :: rest) =
      (if start ≤ position then [item] else []) ++
        segment (start - (position + 1)) (stop.map (· - (position + 1))) rest := by
  have htake :
      (stop.map (· - position)).elim (item :: rest) (fun stop => (item :: rest).take stop) =
        item :: (stop.map (· - (position + 1))).elim rest fun stop => rest.take stop := by
    cases stop with
    | none => rfl
    | some last =>
      have hlast : last - position = last - (position + 1) + 1 := by
        have := h last rfl
        omega
      simp [hlast]
  rw [segment, htake]
  split
  · rename_i hle
    simp [segment, Nat.sub_eq_zero_of_le hle, Nat.sub_eq_zero_of_le (Nat.le_succ_of_le hle)]
  · have hstart : start - position = start - (position + 1) + 1 := by omega
    rw [hstart]
    rfl

/-- Before the position that the advances are stopped before there is at least one. -/
theorem exists_advancesBefore_eq {position : Nat} {stop : Option Nat}
    (h : ∀ last ∈ stop, position < last) (length : Nat) :
    ∃ count, advancesBefore (stop.map (· - position)) length = count + 1 := by
  refine Nat.exists_eq_succ_of_ne_zero ?_
  cases stop with
  | none => exact Nat.succ_ne_zero length
  | some last =>
    have := h last rfl
    simp only [advancesBefore, Option.map_some, Option.elim]
    omega

/-- Behind an element there is one advance less to the position that they are stopped before. -/
theorem advancesBefore_succ {position : Nat} {stop : Option Nat}
    (h : ∀ last ∈ stop, position < last) (length : Nat) :
    advancesBefore (stop.map (· - position)) (length + 1) =
      advancesBefore (stop.map (· - (position + 1))) length + 1 := by
  cases stop with
  | none => rfl
  | some last =>
    have := h last rfl
    simp only [advancesBefore, Option.map_some, Option.elim]
    omega

/-- A position from the front is taken as it is. -/
theorem fromStart_of_nonneg {position : Int64} (h : 0 ≤ position.toInt) (length : Nat) :
    fromStart position length = position.toInt := by
  simp [fromStart, Int.not_lt.mpr h]

/-- An index counted from the front selects the element there. -/
theorem select_of_nonneg {position : Int64} (h : 0 ≤ position.toInt) (items : List α) :
    select position items =
      items[position.toInt.toNat]?.elim (.error (.index position items.length)) .ok := by
  rw [select, indexIn, fromStart_of_nonneg h]
  by_cases hlt : position.toInt < items.length
  · have hbound : position.toInt.toNat < items.length := by omega
    simp only [h, hlt, decide_true, Bool.and_self, if_true, List.getElem?_eq_getElem hbound,
      Option.elim]
  · have hbound : items.length ≤ position.toInt.toNat := by omega
    simp only [hlt, decide_false, Bool.and_false, Bool.false_eq_true, if_false,
      List.getElem?_eq_none hbound, Option.elim]

/-- Cutting bounds off at the end changes nothing for a slice whose bounds are counted from the
front. -/
theorem slice_of_fromFront {range : Range} (h : range.FromFront) (items : List α) :
    slice range items = segment range.first range.limit? items := by
  have hclamp : ∀ position : Int64, 0 ≤ position.toInt →
      clampBound position items.length = min position.toInt.toNat items.length := by
    intro position hposition
    rw [clampBound, fromStart_of_nonneg hposition]
  have hfirst : range.start.elim 0 (clampBound · items.length) = min range.first items.length := by
    unfold Range.first
    cases hstart : range.start with
    | none => simp
    | some position => exact hclamp position (h.start_nonneg position hstart)
  have hlast : range.stop.elim items.length (clampBound · items.length) =
      (range.limit?.elim items fun stop => items.take stop).length := by
    unfold Range.limit?
    cases hstop : range.stop with
    | none => rfl
    | some position => simpa using hclamp position (h.stop_nonneg position hstop)
  have htake : items.take (range.limit?.elim items fun stop => items.take stop).length =
      range.limit?.elim items fun stop => items.take stop := by
    cases range.limit? <;> simp [List.take_eq_take_iff]
  have hle : (range.limit?.elim items fun stop => items.take stop).length ≤ items.length := by
    rw [← htake]
    exact List.length_take_le' _ _
  simp only [slice, sliceBounds, segment, hfirst, hlast]
  generalize range.limit?.elim items (fun stop => items.take stop) = kept at *
  have hsum : min (min range.first items.length) kept.length +
      (kept.length - min (min range.first items.length) kept.length) = kept.length := by omega
  have hmin : min (min range.first items.length) kept.length = min range.first kept.length := by
    omega
  rw [List.take_drop, hsum, htake, hmin, ← List.drop_eq_drop_min]

/-- A position from the front needs no length. -/
theorem oneShotPosition_of_nonneg {position : Int64} (h : 0 ≤ position.toInt)
    (source : Value.Kind) : oneShotPosition source position = .ok position.toInt.toNat := by
  simp [oneShotPosition, Int.not_lt.mpr h]

/-- Bounds from the front need no length. -/
theorem oneShotBounds_of_fromFront {range : Range} (h : range.FromFront) (source : Value.Kind) :
    oneShotBounds source range = .ok (range.first, range.limit?) := by
  obtain ⟨_, hstart, hstop⟩ := h
  rcases range with ⟨_ | start, _ | stop⟩
  · rfl
  · simp only [oneShotBounds, oneShotPosition_of_nonneg (hstop stop rfl)]
    rfl
  · simp only [oneShotBounds, oneShotPosition_of_nonneg (hstart start rfl)]
    rfl
  · simp only [oneShotBounds, oneShotPosition_of_nonneg (hstart start rfl),
      oneShotPosition_of_nonneg (hstop stop rfl)]
    rfl

end Positions

/-- Iteration that does not fail and throws no switch that the context listens to. -/
structure Behaviour.Reliable (context : Context) (behaviour : Behaviour) : Prop where
  scanFault : ∀ position, behaviour.scanFault position = none
  closeFault : behaviour.closeFault = none
  cancels : ∀ count switch, behaviour.cancels count = some switch → context.switch ≠ some switch

/-- The milliseconds that so many advances take together, after the ones before. -/
def Behaviour.takesInAll (behaviour : Behaviour) (before : Nat) : (count : Nat) → Nat
  | 0 => 0
  | count + 1 => behaviour.takes (before + 1) + behaviour.takesInAll (before + 1) count

/-- A reliable iterator is open with so many values ahead, and the context lets evaluation go on
even when so many advances have taken their time. -/
structure Faces (context : Context) (iterator : Handle .iterator) (count : Nat)
    (values : List Value) (store : Store) : Prop where
  inTime : context.check (store.elapse ((store.iterators.get iterator).behaviour.takesInAll
    (store.iterators.get iterator).advances count)) = .ok ()
  reliable : (store.iterators.get iterator).behaviour.Reliable context
  opened : (store.iterators.get iterator).cursor.closed = false
  rest : (store.iterators.get iterator).cursor.rest = values

/-- An iterator stands on a value. -/
def StandsOn (iterator : Handle .iterator) (value : Value) (store : Store) : Prop :=
  ∃ position, (store.iterators.get iterator).cursor.current = some (position, value)

namespace Faces

variable {context : Context} {iterator : Handle .iterator} {count : Nat} {value : Value}
  {values : List Value} {store : Store}

/-- An open iterator is one of the store. -/
theorem index_lt (h : Faces context iterator count values store) :
    iterator.index < store.iterators.size := by
  by_contra hout
  have hopened := h.opened
  rw [Table.get_of_size_le (Nat.le_of_not_lt hout)] at hopened
  cases hopened

/-- What lets evaluation go on when time has passed lets it go on now. -/
theorem permitted (h : Faces context iterator count values store) :
    context.check store = .ok () :=
  (Step.elapse store _).steps.check_eq_ok h.inTime

/-- What is recorded does not matter to what is ahead. -/
theorem record (h : Faces context iterator count values store) (event : Event) :
    Faces context iterator count values (store.record event) :=
  ⟨(context.check_congr (fun _ _ => rfl) rfl).trans h.inTime, h.reliable, h.opened, h.rest⟩

/-- Throwing a switch that a context does not listen to does not stop it. -/
theorem check_cancel {switch : Switch} (h : context.switch ≠ some switch) (store : Store) :
    context.check (store.cancel switch) = context.check store := by
  refine context.check_congr (fun other hother => ?_) rfl
  have hne : other ≠ switch := by
    rintro rfl
    exact h hother
  simp [isThrown, cancel, hne]

/-- An advance moves the cursor and takes its time, and the others have theirs left. -/
theorem exists_advance_eq (h : Faces context iterator (count + 1) values store) :
    ∃ (middle : Store) (cell : Iterator),
      context.check (middle.elapse (cell.behaviour.takesInAll cell.advances count)) = .ok () ∧
      middle.iterators = store.iterators ∧
      cell.behaviour = (store.iterators.get iterator).behaviour ∧
      cell.cursor = (store.iterators.get iterator).cursor.next.2 ∧
      store.advance iterator = ((store.iterators.get iterator).cursor.next.1,
        { middle with iterators := middle.iterators.set iterator cell }) := by
  let cell : Iterator := { store.iterators.get iterator with
    cursor := (store.iterators.get iterator).cursor.next.2
    advances := (store.iterators.get iterator).advances + 1 }
  let taken := cell.behaviour.takes cell.advances
  let left := cell.behaviour.takesInAll cell.advances count
  let middle := (store.record (.advanced iterator)).elapse taken
  have hpassed : context.check (middle.elapse left) = .ok () := by
    have hsame : context.check (middle.elapse left) = context.check (store.elapse (taken + left)) :=
      context.check_congr (fun _ _ => rfl) (Nat.add_assoc _ _ _)
    exact hsame.trans h.inTime
  rw [Store.advance, if_neg (by simp [h.opened])]
  cases hcancels : (store.iterators.get iterator).behaviour.cancels
      ((store.iterators.get iterator).advances + 1) with
  | none => exact ⟨middle, cell, hpassed, rfl, rfl, rfl, rfl⟩
  | some switch =>
    have hlistens := h.reliable.cancels _ switch hcancels
    have hstill : context.check ((middle.cancel switch).elapse left) = .ok () :=
      (check_cancel hlistens (middle.elapse left)).trans hpassed
    exact ⟨middle.cancel switch, cell, hstill, rfl, rfl, rfl, rfl⟩

/-- An advance leaves the values that the cursor then has ahead. -/
theorem exists_advance_of_next (h : Faces context iterator (count + 1) values store) {found : Bool}
    {cursor : Cursor} (hnext : (store.iterators.get iterator).cursor.next = (found, cursor)) :
    ∃ after, store.advance iterator = (found, after) ∧
      Faces context iterator count cursor.rest after ∧
      (after.iterators.get iterator).cursor = cursor := by
  obtain ⟨middle, cell, hintime, hiterators, hbehaviour, hcursor, hadvance⟩ := h.exists_advance_eq
  have hopened := (Cursor.closed_next (store.iterators.get iterator).cursor).trans h.opened
  rw [hnext] at hcursor hadvance hopened
  have hget : (middle.iterators.set iterator cell).get iterator = cell :=
    Table.get_set_self (by rw [hiterators]; exact h.index_lt) cell
  refine ⟨_, hadvance, ⟨?_, ?_, ?_, ?_⟩, ?_⟩ <;> simp only [hget]
  · exact (context.check_congr (fun _ _ => rfl) rfl).trans hintime
  · exact hbehaviour ▸ h.reliable
  · rw [hcursor, hopened]
  · rw [hcursor]
  · exact hcursor

/-- Behind the last value an iterator does not advance. -/
theorem advance_nil (h : Faces context iterator (count + 1) [] store) :
    ∃ after, store.advance iterator = (false, after) ∧ Faces context iterator count [] after := by
  have hnext : (store.iterators.get iterator).cursor.next =
      (false, { (store.iterators.get iterator).cursor with current := none }) := by
    rw [Cursor.next, if_neg (by simp [h.opened])]
    simp only [h.rest]
  obtain ⟨after, hadvance, hafter, -⟩ := h.exists_advance_of_next hnext
  exact ⟨after, hadvance, h.rest ▸ hafter⟩

/-- Before a value an iterator advances onto it. -/
theorem advance_cons (h : Faces context iterator (count + 1) (value :: values) store) :
    ∃ after, store.advance iterator = (true, after) ∧ Faces context iterator count values after ∧
      StandsOn iterator value after := by
  have hnext : (store.iterators.get iterator).cursor.next =
      (true, { (store.iterators.get iterator).cursor with
        rest := values
        current := some ((store.iterators.get iterator).cursor.reached, value)
        reached := (store.iterators.get iterator).cursor.reached + 1 }) := by
    rw [Cursor.next, if_neg (by simp [h.opened]), h.rest]
  obtain ⟨after, hadvance, hafter, hcursor⟩ := h.exists_advance_of_next hnext
  exact ⟨after, hadvance, hafter, _, by rw [hcursor]⟩

/-- Reading gives the value that an iterator stands on. -/
theorem current_eq (h : Faces context iterator count values store)
    (hvalue : StandsOn iterator value store) :
    ∃ after, store.current iterator = (.ok value, after) ∧
      Faces context iterator count values after := by
  obtain ⟨position, hcurrent⟩ := hvalue
  refine ⟨store.record (.scanned iterator), ?_, h.record _⟩
  rw [Store.current, if_neg (by simp [h.opened]), hcurrent]
  simp only [Option.bind, h.reliable.scanFault, Cursor.scan, h.opened, hcurrent]
  rfl

/-- A new iterator faces all its values, if there is time for as many advances from the first
one. -/
theorem newIterator {behaviour : Behaviour} (hreliable : behaviour.Reliable context)
    (hintime : context.check (store.elapse (behaviour.takesInAll 0 count)) = .ok ())
    (values : List Value) :
    Faces context (store.newIterator values behaviour).1 count values
      (store.newIterator values behaviour).2 := by
  have hget : (store.newIterator values behaviour).2.iterators.get
      (store.newIterator values behaviour).1 =
        { cursor := .ofValues values, behaviour := behaviour } := Table.get_push_self _ _
  refine ⟨?_, ?_, ?_, ?_⟩ <;> rw [hget]
  · exact (context.check_congr (fun _ _ => rfl) rfl).trans hintime
  · exact hreliable
  · rfl
  · rfl

/-- Closing a reliable iterator does not fail. -/
theorem fst_closeIterator (h : Faces context iterator count values store) :
    (store.closeIterator iterator).1 = .ok () := by
  rw [closeIterator, if_neg (by simp [h.opened]), h.reliable.closeFault]

end Faces

namespace Evaluator

variable {evaluator : Evaluator} {iterator : Handle .iterator} {count : Nat} {values : List Value}
  {store : Store}

/-- Using a reliable iterator and closing it gives what the use gives. -/
theorem run_closingIterator {α : Type} {body : Action α} {result : Except EvalError α}
    {middle : Store} (hrun : body.run store = some (result, middle))
    (hfaces : Faces evaluator.context iterator count values middle) :
    ∃ after, (closingIterator iterator body).run store = some (result, after) := by
  refine ⟨_, Action.run_thenClose_of_ok hrun ?_⟩
  simp only [hfaces.fst_closeIterator]
  rfl

/-- Advancing in evaluation is advancing the iterator. -/
theorem run_advance {found : Bool} {after : Store} (h : store.advance iterator = (found, after)) :
    (advance iterator).run store = some (.ok found, after) := by
  rw [advance, Action.run_perform, h]

/-- Seeking reaches the value so many places ahead, or else the end after all values. -/
theorem exists_run_seek {skip : Nat}
    (hfaces : Faces evaluator.context iterator (min skip values.length + 1) values store)
    (position : Int64) {limit : Nat} (hlimit : values.length < limit) (seen : Nat) :
    ∃ rest after, Faces evaluator.context iterator 0 rest after ∧
      (evaluator.seek iterator position limit skip seen).run store =
        some (values[skip]?.elim (.error (.index position (seen + values.length))) .ok, after) := by
  induction values generalizing limit skip seen store with
  | nil =>
    obtain ⟨limit, rfl⟩ := Nat.exists_eq_succ_of_ne_zero (Nat.ne_zero_of_lt hlimit)
    rw [List.length_nil, Nat.min_zero] at hfaces
    obtain ⟨after, hadvance, hafter⟩ := hfaces.advance_nil
    refine ⟨[], after, hafter, ?_⟩
    unfold seek
    rw [Computation.run_bind_of_ok (run_advance hadvance)]
    rfl
  | cons value rest ih =>
    obtain ⟨limit, rfl⟩ := Nat.exists_eq_succ_of_ne_zero (Nat.ne_zero_of_lt hlimit)
    obtain ⟨middle, hadvance, hmiddle, hvalue⟩ := hfaces.advance_cons
    unfold seek
    rw [Computation.run_bind_of_ok (run_advance hadvance)]
    cases skip with
    | zero =>
      rw [Nat.zero_min] at hmiddle
      obtain ⟨after, hcurrent, hafter⟩ := hmiddle.current_eq hvalue
      refine ⟨rest, after, hafter, ?_⟩
      simp only [if_true, current, Action.run_attempt, hcurrent]
      rfl
    | succ skip =>
      rw [List.length_cons, Nat.succ_min_succ] at hmiddle
      obtain ⟨others, after, hafter, hrest⟩ :=
        ih hmiddle (Nat.lt_of_succ_lt_succ hlimit) (seen + 1)
      refine ⟨others, after, hafter, ?_⟩
      simp only [if_true]
      have hseen : seen + 1 + rest.length = seen + (value :: rest).length := by
        rw [List.length_cons]
        omega
      rw [Computation.run_bind_of_ok (run_check_of_ok hmiddle.permitted), hrest, hseen]
      rfl

/-- Before going on, the value that the iterator stands on is collected if the segment has
started. -/
theorem exists_run_collect {value : Value}
    (hfaces : Faces evaluator.context iterator count values store)
    (hvalue : StandsOn iterator value store) (start position : Nat) (collected : List Value)
    (rest : List Value → Action (List Value)) :
    ∃ after, Faces evaluator.context iterator count values after ∧
      (if start ≤ position then (· :: collected) <$> current iterator >>= rest
        else pure collected >>= rest : Action (List Value)).run store =
        (rest ((if start ≤ position then [value] else []) ++ collected)).run after := by
  split
  · obtain ⟨after, hcurrent, hafter⟩ := hfaces.current_eq hvalue
    have hrun : (current iterator).run store = some (.ok value, after) := by
      rw [current, Action.run_attempt, hcurrent]
      rfl
    exact ⟨after, hafter, Computation.run_bind_of_ok (Computation.run_map_of_ok hrun _) _⟩
  · exact ⟨store, hfaces, rfl⟩

/-- Collecting from where an iterator stands gives the segment that is left, behind the values
collected before. -/
theorem exists_run_window {stop : Option Nat} {position : Nat}
    (hfaces : Faces evaluator.context iterator
      (advancesBefore (stop.map (· - position)) values.length) values store)
    (start : Nat) {limit : Nat} (hlimit : values.length < limit) (collected : List Value) :
    ∃ count rest after, Faces evaluator.context iterator count rest after ∧
      (evaluator.window iterator start stop limit position collected).run store =
        some (.ok (collected.reverse ++
          segment (start - position) (stop.map (· - position)) values), after) := by
  -- Each value takes one advance, one of the limit, and one step of the position.
  induction values generalizing limit position collected store with
  | nil =>
    obtain ⟨limit, rfl⟩ := Nat.exists_eq_succ_of_ne_zero (Nat.ne_zero_of_lt hlimit)
    rw [segment_nil, List.append_nil, window]
    split
    · rename_i hstop
      obtain ⟨count, hcount⟩ :=
        exists_advancesBefore_eq (by simpa [Option.all_eq_true] using hstop) 0
      rw [List.length_nil, hcount] at hfaces
      obtain ⟨after, hadvance, hafter⟩ := hfaces.advance_nil
      refine ⟨count, [], after, hafter, ?_⟩
      rw [Computation.run_bind_of_ok (run_advance hadvance)]
      rfl
    · exact ⟨_, [], store, hfaces, rfl⟩
  | cons value rest ih =>
    obtain ⟨limit, rfl⟩ := Nat.exists_eq_succ_of_ne_zero (Nat.ne_zero_of_lt hlimit)
    rw [window]
    split
    · rename_i hstop
      have hstop : ∀ last ∈ stop, position < last := by
        simpa [Option.all_eq_true] using hstop
      rw [List.length_cons, advancesBefore_succ hstop] at hfaces
      obtain ⟨middle, hadvance, hmiddle, hvalue⟩ := hfaces.advance_cons
      obtain ⟨between, hbetween, hcollect⟩ :=
        exists_run_collect hmiddle hvalue start position collected fun collected => do
          evaluator.check
          evaluator.window iterator start stop limit (position + 1) collected
      obtain ⟨count, others, after, hafter, hrest⟩ := ih hbetween (Nat.lt_of_succ_lt_succ hlimit)
        ((if start ≤ position then [value] else []) ++ collected)
      refine ⟨count, others, after, hafter, ?_⟩
      rw [Computation.run_bind_of_ok (run_advance hadvance), segment_cons hstop]
      simp only [if_true]
      rw [hcollect, Computation.run_bind_of_ok (run_check_of_ok hbetween.permitted), hrest]
      split <;> simp
    · rename_i hstop
      obtain ⟨last, hlast, hle⟩ : ∃ last, stop = some last ∧ last ≤ position := by
        cases stop with
        | none => simp at hstop
        | some last => exact ⟨last, rfl, by simpa using hstop⟩
      refine ⟨_, value :: rest, store, hfaces, ?_⟩
      rw [hlast, Option.map_some, segment_eq_nil hle, List.append_nil]
      rfl

/-- Counting from where an iterator stands adds the values that are left. -/
theorem exists_run_countFrom
    (hfaces : Faces evaluator.context iterator (values.length + 1) values store)
    {limit : Nat} (hlimit : values.length < limit) (seen : Nat) :
    ∃ rest after, Faces evaluator.context iterator 0 rest after ∧
      (evaluator.countFrom iterator limit seen).run store =
        some (.ok (seen + values.length), after) := by
  induction values generalizing limit seen store with
  | nil =>
    obtain ⟨limit, rfl⟩ := Nat.exists_eq_succ_of_ne_zero (Nat.ne_zero_of_lt hlimit)
    obtain ⟨after, hadvance, hafter⟩ := hfaces.advance_nil
    refine ⟨[], after, hafter, ?_⟩
    rw [countFrom, Computation.run_bind_of_ok (run_advance hadvance)]
    rfl
  | cons value rest ih =>
    obtain ⟨limit, rfl⟩ := Nat.exists_eq_succ_of_ne_zero (Nat.ne_zero_of_lt hlimit)
    obtain ⟨middle, hadvance, hmiddle, _⟩ := hfaces.advance_cons
    obtain ⟨others, after, hafter, hrest⟩ :=
      ih hmiddle (Nat.lt_of_succ_lt_succ hlimit) (seen + 1)
    have hseen : seen + 1 + rest.length = seen + (value :: rest).length := by
      rw [List.length_cons]
      omega
    refine ⟨others, after, hafter, ?_⟩
    rw [countFrom, Computation.run_bind_of_ok (run_advance hadvance)]
    simp only [if_true]
    rw [Computation.run_bind_of_ok (run_check_of_ok hmiddle.permitted), hrest, hseen]

/-- As many advances as there are values, and the failing one, are enough. -/
theorem run_advancesLeft (hfaces : Faces evaluator.context iterator count values store) :
    (advancesLeft iterator).run store = some (.ok (values.length + 1), store) := by
  rw [advancesLeft, Action.run_perform, hfaces.rest]

/-- Reading the element at a position gives what is selected from the values ahead. -/
theorem exists_run_nth {position : Int64} (hposition : 0 ≤ position.toInt)
    (hfaces : Faces evaluator.context iterator ((Node.index position).advances values.length)
      values store) :
    ∃ after, (evaluator.nth iterator position).run store =
      some (select position values, after) := by
  obtain ⟨rest, middle, hmiddle, hseek⟩ := exists_run_seek hfaces position
    (Nat.lt_succ_self values.length) 0
  rw [Nat.zero_add, ← select_of_nonneg hposition] at hseek
  refine run_closingIterator ?_ hmiddle
  rw [oneShotPosition_of_nonneg hposition,
    Computation.run_bind_of_ok (Computation.run_ofExcept _ _),
    Computation.run_bind_of_ok (run_advancesLeft hfaces), hseek]

/-- Collecting a range gives the slice of the values ahead. -/
theorem exists_run_collectRange {range : Range} (hrange : range.FromFront)
    (hfaces : Faces evaluator.context iterator ((Node.range range).advances values.length)
      values store) :
    ∃ after, (evaluator.collectRange iterator range).run store =
      some (.ok (.sequence (slice range values)), after) := by
  have hstart : Faces evaluator.context iterator
      (advancesBefore (range.limit?.map (· - 0)) values.length) values store := by
    simpa [Node.advances] using hfaces
  obtain ⟨count, rest, middle, hmiddle, hwindow⟩ := exists_run_window hstart range.first
    (Nat.lt_succ_self values.length) []
  have hsegment : [].reverse ++ segment (range.first - 0) (range.limit?.map (· - 0)) values =
      slice range values := by
    simp [slice_of_fromFront hrange]
  rw [hsegment] at hwindow
  refine run_closingIterator ?_ hmiddle
  rw [oneShotBounds_of_fromFront hrange,
    Computation.run_bind_of_ok (Computation.run_ofExcept _ _),
    Computation.run_bind_of_ok (run_advancesLeft hfaces), Computation.run_bind_of_ok hwindow]
  rfl

/-- Counting gives the number of values ahead. -/
theorem exists_run_count
    (hfaces : Faces evaluator.context iterator (values.length + 1) values store) :
    ∃ after, (evaluator.count iterator).run store = some (.ok values.length, after) := by
  obtain ⟨rest, middle, hmiddle, hcount⟩ := exists_run_countFrom hfaces
    (Nat.lt_succ_self values.length) 0
  rw [Nat.zero_add] at hcount
  refine run_closingIterator ?_ hmiddle
  rw [Computation.run_bind_of_ok (run_advancesLeft hfaces), hcount]

end Evaluator

/-- A byte stream is open and hands out these bytes, without a failure and in single reads of any
size but none. -/
structure Delivers (stream : Handle .byteStream) (data : List UInt8) (store : Store) : Prop where
  opened : (store.byteStreams.get stream).closed = false
  flows : (store.byteStreams.get stream).source.Flows
  closeFault : (store.byteStreams.get stream).source.closeFault = none
  data_eq : (store.byteStreams.get stream).source.data = data

namespace Delivers

variable {stream : Handle .byteStream} {data : List UInt8} {store : Store}

/-- An open byte stream is one of the store. -/
theorem index_lt (h : Delivers stream data store) : stream.index < store.byteStreams.size := by
  by_contra hout
  have hopened := h.opened
  rw [Table.get_of_size_le (Nat.le_of_not_lt hout)] at hopened
  cases hopened

/-- A read that takes so many bytes leaves the others. -/
theorem readWith_eq (h : Delivers stream data store) (count : Nat) {content : List UInt8}
    {read : ByteSource → Except String (List UInt8) × ByteSource}
    (hread : ∀ source : ByteSource, source.Flows → source.data = data →
      read source = (.ok content, source.advance count)) :
    ∃ after, readWith read stream store = (.ok content, after) ∧
      Delivers stream (data.drop count) after := by
  let cell := store.byteStreams.get stream
  have hgiven := hread cell.source h.flows h.data_eq
  have hget (byteStream : ByteStream) :
      (store.byteStreams.set stream byteStream).get stream = byteStream :=
    Table.get_set_self h.index_lt byteStream
  refine ⟨{ store.record (.read stream) with
    byteStreams := store.byteStreams.set stream { cell with source := cell.source.advance count } },
    ?_, ?_⟩
  · rw [readWith, if_neg (by simp [h.opened]), hgiven]
    rfl
  · refine ⟨?_, ?_, ?_, ?_⟩ <;> simp only [hget]
    · exact h.opened
    · exact h.flows.advance count
    · exact h.closeFault
    · exact congrArg (List.drop count) h.data_eq

/-- Reading up to a limit gives the next bytes and leaves the rest. -/
theorem readUpTo_eq (h : Delivers stream data store) (limit : Nat) :
    ∃ after, readUpTo stream limit store = (.ok (data.take limit), after) ∧
      Delivers stream (data.drop limit) after :=
  h.readWith_eq limit fun _ hflows hdata => hdata ▸ ByteSource.readUpTo_of_flows hflows limit

/-- Reading to the end gives all bytes that are left. -/
theorem readToEnd_eq (h : Delivers stream data store) :
    ∃ after, readToEnd stream store = (.ok data, after) ∧ Delivers stream [] after := by
  obtain ⟨after, hread, hafter⟩ := h.readWith_eq (data.length + 1)
    fun _ hflows hdata => hdata ▸ ByteSource.readToEnd_of_flows hflows
  rw [List.drop_eq_nil_of_le (Nat.le_succ _)] at hafter
  exact ⟨after, hread, hafter⟩

/-- Closing a byte stream that delivers does not fail. -/
theorem fst_closeByteStream (h : Delivers stream data store) :
    (store.closeByteStream stream).1 = .ok () := by
  rw [closeByteStream, if_neg (by simp [h.opened]), h.closeFault]

end Delivers

namespace Evaluator

variable {evaluator : Evaluator} {store : Store}

/-- A read of the stream as an action. -/
theorem run_attempt_read {read : Store → Except String (List UInt8) × Store}
    {content : List UInt8} {after : Store} (h : read store = (.ok content, after)) :
    (Action.attempt .byteStream read).run store = some (.ok content, after) := by
  rw [Action.run_attempt, h]
  rfl

/-- What is read behind the bytes that a range skips. -/
theorem exists_run_content {stream : Handle .byteStream} {data : List UInt8}
    (hdelivers : Delivers stream data store) (start : Nat) (stop : Option Nat) :
    ∃ rest after, Delivers stream rest after ∧
      (Action.attempt .byteStream (match stop with
        | some stop => readUpTo stream (stop - start)
        | none => readToEnd stream)).run store =
        some (.ok (stop.elim data fun stop => data.take (stop - start)), after) := by
  cases stop with
  | none =>
    obtain ⟨after, hread, hafter⟩ := hdelivers.readToEnd_eq
    exact ⟨_, after, hafter, run_attempt_read hread⟩
  | some stop =>
    obtain ⟨after, hread, hafter⟩ := hdelivers.readUpTo_eq (stop - start)
    exact ⟨_, after, hafter, run_attempt_read hread⟩

/-- Skipping the bytes before a segment and reading as many as are in it gives the segment. -/
theorem segment_eq_elim_drop (start : Nat) (stop : Option Nat) (data : List UInt8) :
    segment start stop data =
      stop.elim (data.drop start) fun stop => (data.drop start).take (stop - start) := by
  cases stop with
  | none => rfl
  | some stop => exact List.drop_take

/-- Using a byte stream and closing it gives what the use gives. -/
theorem run_closingByteStream {stream : Handle .byteStream} {data : List UInt8}
    {body : Action Value} {result : Except EvalError Value} {middle : Store}
    (hrun : body.run store = some (result, middle)) (hdelivers : Delivers stream data middle) :
    ∃ after, (body.thenClose fun store =>
      let (result, store) := store.closeByteStream stream
      (result.mapError .byteStream, store)).run store = some (result, after) := by
  refine ⟨_, Action.run_thenClose_of_ok hrun ?_⟩
  simp only [hdelivers.fst_closeByteStream]
  rfl

/-- Reading a range of bytes gives the slice of the data. -/
theorem exists_run_readRange {stream : Handle .byteStream} {data : List UInt8}
    (hdelivers : Delivers stream data store) {range : Range} (hrange : range.FromFront) :
    ∃ after, (readRange stream range).run store =
      some (.ok (.bytes (slice range data)), after) := by
  obtain ⟨middle, hread, hmiddle⟩ := hdelivers.readUpTo_eq range.first
  obtain ⟨rest, between, hbetween, hcontent⟩ :=
    exists_run_content hmiddle range.first range.limit?
  rw [slice_of_fromFront hrange, segment_eq_elim_drop]
  by_cases hshort : (data.take range.first).length < range.first
  · have hdrop : data.drop range.first = [] := by
      rw [List.length_take] at hshort
      exact List.drop_eq_nil_of_le (by omega)
    refine run_closingByteStream ?_ hmiddle
    rw [oneShotBounds_of_fromFront hrange,
      Computation.run_bind_of_ok (Computation.run_ofExcept _ _),
      Computation.run_bind_of_ok (run_attempt_read hread), if_pos hshort, hdrop]
    cases range.limit? <;> simp
  · refine run_closingByteStream ?_ hbetween
    rw [oneShotBounds_of_fromFront hrange,
      Computation.run_bind_of_ok (Computation.run_ofExcept _ _),
      Computation.run_bind_of_ok (run_attempt_read hread), if_neg hshort]
    exact Computation.run_bind_of_ok hcontent _

section Apply

variable (hpermitted : evaluator.context.check store = .ok ())

include hpermitted

/-- What is no stream is not handed down into. -/
theorem run_pointwise_of_permitted {f : Value → Action Value} {input : Value}
    (h : ∀ stream, input ≠ .stream stream) :
    (evaluator.pointwise f input).run store = (f input).run store := by
  rw [run_pointwise_of_ne_stream h, Computation.run_bind_of_ok (run_check_of_ok hpermitted)]

/-- What a node that counts from the front makes of values in memory: a value, or the error that
there are too few of them. -/
def frontResult : Node → List Value → Except EvalError Value
  | .index position, values => select position values
  | .range bounds, values => .ok (.sequence (slice bounds values))
  | _, values => .ok (.ofCount values.length)

/-- On a sequence a selector from the front gives its result and changes nothing. -/
theorem run_apply_sequence {node : Node} (hnode : node.FromFront) (values : List Value) :
    (evaluator.apply node (.sequence values)).run store =
      some (frontResult node values, store) := by
  have hresolve : (evaluator.resolve (.sequence values)).run store =
      some (.ok (.sequence values), store) := run_resolve_of_some (Table.leadsTo?_sequence values)
  cases hnode with
  | length =>
    rw [apply, run_pointwise_of_permitted hpermitted (by simp), length,
      Computation.run_bind_of_ok hresolve]
    rfl
  | index hposition =>
    rw [apply, run_pointwise_of_permitted hpermitted (by simp), selectIndex,
      Computation.run_bind_of_ok hresolve]
    exact Computation.run_ofExcept _ _
  | range hrange =>
    rw [apply, run_pointwise_of_permitted hpermitted (by simp), selectRange, hrange.bounded,
      if_neg (by simp), Computation.run_bind_of_ok hresolve]
    rfl

/-- On bytes a range from the front gives its slice and changes nothing. -/
theorem run_apply_bytes {range : Range} (hrange : range.FromFront) (data : List UInt8) :
    (evaluator.apply (.range range) (.bytes data)).run store =
      some (.ok (.bytes (slice range data)), store) := by
  have hresolve : (evaluator.resolve (.bytes data)).run store = some (.ok (.bytes data), store) :=
    run_resolve_of_some rfl
  rw [apply, run_pointwise_of_permitted hpermitted (by simp), selectRange, hrange.bounded,
    if_neg (by simp), Computation.run_bind_of_ok hresolve]
  rfl

/-- On a byte stream a range from the front gives the slice of the data. -/
theorem exists_run_apply_byteStream {range : Range} (hrange : range.FromFront)
    {stream : Handle .byteStream} {data : List UInt8} (hdelivers : Delivers stream data store) :
    ∃ after, (evaluator.apply (.range range) (.byteStream stream)).run store =
      some (.ok (.bytes (slice range data)), after) := by
  have hresolve : (evaluator.resolve (.byteStream stream)).run store =
      some (.ok (.byteStream stream), store) := run_resolve_of_some rfl
  obtain ⟨after, hread⟩ := exists_run_readRange hdelivers hrange
  refine ⟨after, ?_⟩
  rw [apply, run_pointwise_of_permitted hpermitted (by simp), selectRange, hrange.bounded,
    if_neg (by simp), Computation.run_bind_of_ok hresolve]
  exact hread

end Apply

/-- What counting and selecting from the front use of an iterator. -/
theorem exists_run_front {iterator : Handle .iterator} {values : List Value} {node : Node}
    (hnode : node.FromFront)
    (hfaces : Faces evaluator.context iterator (node.advances values.length) values store) :
    ∃ after, (match node with
        | .index position => evaluator.nth iterator position
        | .range bounds => evaluator.collectRange iterator bounds
        | _ => .ofCount <$> evaluator.count iterator : Action Value).run store =
        some (frontResult node values, after) := by
  cases hnode with
  | length =>
    obtain ⟨after, hcount⟩ := exists_run_count hfaces
    exact ⟨after, Computation.run_map_of_ok hcount _⟩
  | index hposition => exact exists_run_nth hposition hfaces
  | range hrange => exact exists_run_collectRange hrange hfaces

/-- On an iterator a selector from the front gives its result for the values ahead. -/
theorem exists_run_apply_iterator {iterator : Handle .iterator} {values : List Value}
    {node : Node} (hnode : node.FromFront)
    (hfaces : Faces evaluator.context iterator (node.advances values.length) values store) :
    ∃ after, (evaluator.apply node (.iterator iterator)).run store =
      some (frontResult node values, after) := by
  have hresolve : (evaluator.resolve (.iterator iterator)).run store =
      some (.ok (.iterator iterator), store) := run_resolve_of_some rfl
  obtain ⟨after, hfront⟩ := exists_run_front hnode hfaces
  refine ⟨after, ?_⟩
  cases hnode with
  | length =>
    rw [apply, run_pointwise_of_permitted hfaces.permitted (by simp), length,
      Computation.run_bind_of_ok hresolve]
    exact hfront
  | index hposition =>
    rw [apply, run_pointwise_of_permitted hfaces.permitted (by simp), selectIndex,
      Computation.run_bind_of_ok hresolve]
    exact hfront
  | range hrange =>
    rw [apply, run_pointwise_of_permitted hfaces.permitted (by simp), selectRange,
      hrange.bounded, if_neg (by simp), Computation.run_bind_of_ok hresolve]
    exact hfront

/-- On a collection a selector from the front gives its result for the elements. -/
theorem exists_run_apply_array {array : Handle .array} {node : Node} (hnode : node.FromFront)
    (hreliable : (store.arrays.get array).behaviour.Reliable evaluator.context)
    (hintime : evaluator.context.check (store.elapse ((store.arrays.get array).behaviour.takesInAll
      0 (node.advances (store.arrays.get array).elements.length))) = .ok ()) :
    ∃ after, (evaluator.apply node (.array array)).run store =
      some (frontResult node (store.arrays.get array).elements, after) := by
  have hpermitted := (Step.elapse store _).steps.check_eq_ok hintime
  have hresolve : (evaluator.resolve (.array array)).run store =
      some (.ok (.array array), store) := run_resolve_of_some rfl
  have hiterate : (iterateArray array).run store =
      some (.ok (store.iterateArray array).1, (store.iterateArray array).2) :=
    Action.run_perform _ _
  have hfaces := (Faces.newIterator hreliable hintime
    (store.arrays.get array).elements).record (.iteratedArray array (store.iterateArray array).1)
  obtain ⟨after, hfront⟩ := exists_run_front hnode hfaces
  refine ⟨after, ?_⟩
  cases hnode with
  | length =>
    rw [apply, run_pointwise_of_permitted hpermitted (by simp), length,
      Computation.run_bind_of_ok hresolve]
    exact (Computation.run_bind_of_ok hiterate _).trans hfront
  | index hposition =>
    rw [apply, run_pointwise_of_permitted hpermitted (by simp), selectIndex,
      Computation.run_bind_of_ok hresolve]
    exact (Computation.run_bind_of_ok hiterate _).trans hfront
  | range hrange =>
    rw [apply, run_pointwise_of_permitted hpermitted (by simp), selectRange,
      hrange.bounded, if_neg (by simp), Computation.run_bind_of_ok hresolve]
    exact (Computation.run_bind_of_ok hiterate _).trans hfront

/-- A node that counts or selects from the front gives the same for values that can only be run
through once as for the sequence of the values: the same value, or the same error that there are too
few of them. This takes an iterator that does not fail, and no switch or deadline that stops the
advances it needs. A slice of a byte stream is the slice of its bytes, however the bytes are split
into single reads. -/
theorem exists_apply_eq_in_memory (hpermitted : evaluator.context.check store = .ok ())
    {node : Node} (hnode : node.FromFront) :
    (∀ values : List Value, ∃ result : Except EvalError Value,
      (∀ error, result = .error error → ∃ position, error = .index position values.length) ∧
      (evaluator.apply node (.sequence values)).run store = some (result, store) ∧
      (∀ iterator,
        Faces evaluator.context iterator (node.advances values.length) values store →
        ∃ after, (evaluator.apply node (.iterator iterator)).run store = some (result, after)) ∧
      ∀ array, (store.arrays.get array).elements = values →
        (store.arrays.get array).behaviour.Reliable evaluator.context →
        evaluator.context.check (store.elapse ((store.arrays.get array).behaviour.takesInAll 0
          (node.advances values.length))) = .ok () →
        ∃ after, (evaluator.apply node (.array array)).run store = some (result, after)) ∧
    ∀ (range : Range) (data : List UInt8), node = .range range → ∃ content,
      (evaluator.apply node (.bytes data)).run store = some (.ok (.bytes content), store) ∧
      ∀ stream, Delivers stream data store →
        ∃ after, (evaluator.apply node (.byteStream stream)).run store =
          some (.ok (.bytes content), after) := by
  constructor
  · intro values
    refine ⟨frontResult node values, ?_, run_apply_sequence hpermitted hnode values, ?_, ?_⟩
    · intro error herror
      cases hnode with
      | length => cases herror
      | range _ => cases herror
      | @index position hposition =>
        have hselect : select position values = .error error := herror
        rw [select_of_nonneg hposition] at hselect
        cases hitem : values[position.toInt.toNat]? with
        | none =>
          rw [hitem] at hselect
          cases hselect
          exact ⟨position, rfl⟩
        | some item =>
          rw [hitem] at hselect
          cases hselect
    · intro iterator hfaces
      exact exists_run_apply_iterator hnode hfaces
    · rintro array rfl hreliable hintime
      exact exists_run_apply_array hnode hreliable hintime
  · rintro range data rfl
    cases hnode with
    | range hrange =>
      exact ⟨_, run_apply_bytes hpermitted hrange data,
        fun stream hdelivers => exists_run_apply_byteStream hpermitted hrange hdelivers⟩

/-- The slice from position 1 to position 5 of two values, and of three bytes that come one by one.
The three advances take 90 of the 100 milliseconds that there are. -/
theorem apply_range_to_behind_the_end :
    let behaviour : Behaviour := { takes := fun _ => 30 }
    let store : Store := {
      iterators := ⟨#[{ cursor := .ofValues [.null, .bool true], behaviour := behaviour }]⟩
      arrays := ⟨#[{ elements := [.null, .bool true], behaviour := behaviour }]⟩
      byteStreams := ⟨#[{ source := { data := [1, 2, 3], burst := fun _ => some 1 } }]⟩ }
    let evaluator : Evaluator := { context := { deadline := some 100 } }
    let node : Node := .range ⟨some 1, some 5⟩
    (∃ after, (evaluator.apply node (.iterator ⟨0⟩)).run store =
      some (.ok (.sequence [.bool true]), after)) ∧
    (∃ after, (evaluator.apply node (.array ⟨0⟩)).run store =
      some (.ok (.sequence [.bool true]), after)) ∧
    ∃ after, (evaluator.apply node (.byteStream ⟨0⟩)).run store =
      some (.ok (.bytes [2, 3]), after) := by
  intro behaviour store evaluator node
  have hnode : node.FromFront := by
    refine .range ⟨rfl, ?_, ?_⟩ <;> rintro _ ⟨⟩ <;> decide
  have hreliable : behaviour.Reliable evaluator.context := ⟨fun _ => rfl, rfl, nofun⟩
  have hpermitted : evaluator.context.check store = .ok () := rfl
  obtain ⟨hvalues, hbytes⟩ := exists_apply_eq_in_memory hpermitted hnode
  obtain ⟨_, _, hsequence, hiterator, harray⟩ := hvalues [.null, .bool true]
  obtain ⟨_, hslice, hstream⟩ := hbytes _ [1, 2, 3] rfl
  cases hsequence
  cases hslice
  exact ⟨hiterator ⟨0⟩ ⟨rfl, hreliable, rfl, rfl⟩, harray ⟨0⟩ rfl hreliable rfl,
    hstream ⟨0⟩ ⟨rfl, ⟨rfl, nofun⟩, rfl, rfl⟩⟩

end Evaluator

end Sluice
