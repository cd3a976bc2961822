import Sluice.Proofs.Eval.Transparency

/-!
# Selecting by position where the length is known

A sequence, a text and a byte string are all lists of elements: values, texts of one character, and
bytes. `Value.elements?` is that list, and it is what an index and a slice are about. A bound of a
slice stands for a place between elements, `boundary`, and the slice is made of the elements
`between` two such places. All of it can be worked out in words of 64 bits.
-/

namespace Sluice

variable {α : Type}

/-- The place that a bound stands for among so many elements. -/
def boundary (position : Int64) (length : Nat) : Int :=
  if position.toInt < 0 then max 0 (length + position.toInt) else min position.toInt length

/-- The elements at the positions from one place up to another, in order. -/
def between (start stop : Int) (items : List α) : List α :=
  (items.zipIdx.filter fun (_, n) => start ≤ (n : Int) && (n : Int) < stop).map (·.1)

/-- The elements that a range selects by its bounds. A bound that is left out is at the end on its
side. -/
def Filter.Range.among (range : Filter.Range) (items : List α) : List α :=
  between (range.start.elim 0 (boundary · items.length))
    (range.stop.elim items.length (boundary · items.length)) items

/-- The elements of a value that is a list of them. -/
def Value.elements? : Value → Option (List Value)
  | sequence items => some items
  | text s => some (s.toList.map fun c => .text (String.singleton c))
  | bytes content => some (content.map .byte)
  | _ => none

/-- A bound of a slice is the boundary that its position stands for. -/
theorem clampBound_eq_boundary (position : Int64) (length : Nat) :
    (clampBound position length : Int) = boundary position length := by
  unfold clampBound fromStart boundary
  split <;> omega

/-- Taking elements by their positions is dropping those before and taking those that are left. -/
theorem map_filter_zipIdx (start stop first : Nat) (items : List α) :
    ((items.zipIdx first).filter fun (_, n) => start ≤ n && n < stop).map (·.1) =
      (items.drop (start - first)).take (stop - max start first) := by
  induction items generalizing first with
  | nil => simp
  | cons item rest ih =>
    have hrest := ih (first + 1)
    rw [List.zipIdx_cons, List.filter_cons]
    by_cases hbefore : first < start
    · have hdrop : start - first = start - (first + 1) + 1 := by omega
      rw [if_neg (by simp; omega), hrest, hdrop, List.drop_succ_cons]
      congr 1
      omega
    · have hdrop : start - first = 0 := by omega
      have hnone : start - (first + 1) = 0 := by omega
      rw [hnone, List.drop_zero] at hrest
      rw [hdrop, List.drop_zero]
      by_cases hstop : first < stop
      · have htake : stop - max start first = stop - max start (first + 1) + 1 := by omega
        rw [if_pos (by simp; omega), List.map_cons, hrest, htake, List.take_succ_cons]
      · have htake : stop - max start first = 0 := by omega
        have hdone : stop - max start (first + 1) = 0 := by omega
        rw [if_neg (by simp; omega), hrest, htake, hdone, List.take_zero, List.take_zero]

/-- Between two positions from the front stand the elements from the one up to the other. -/
theorem between_natCast (start stop : Nat) (items : List α) :
    between start stop items = (items.drop start).take (stop - start) := by
  have h := map_filter_zipIdx start stop 0 items
  simpa only [between, Nat.cast_le, Nat.cast_lt, Nat.sub_zero, Nat.max_zero] using h

/-- A slice holds the elements that its range means. -/
theorem slice_eq_among (range : Filter.Range) (items : List α) :
    slice range items = range.among items := by
  have hstart : range.start.elim 0 (boundary · items.length) =
      (range.start.elim 0 (clampBound · items.length) : Nat) := by
    cases range.start with
    | none => rfl
    | some position => exact (clampBound_eq_boundary position items.length).symm
  have hstop : range.stop.elim (items.length : Int) (boundary · items.length) =
      (range.stop.elim items.length (clampBound · items.length) : Nat) := by
    cases range.stop with
    | none => rfl
    | some position => exact (clampBound_eq_boundary position items.length).symm
  rw [Filter.Range.among, hstart, hstop, between_natCast]
  simp only [slice, sliceBounds]
  generalize range.start.elim 0 (clampBound · items.length) = start
  generalize range.stop.elim items.length (clampBound · items.length) = stop
  obtain hle | hlt := Nat.le_total start stop
  · rw [Nat.min_eq_left hle]
  · rw [Nat.min_eq_right hlt, Nat.sub_self, Nat.sub_eq_zero_of_le hlt, List.take_zero,
      List.take_zero]

/-- Cutting at a place and putting the two parts together again gives the whole. -/
theorem slice_append_slice (position : Int64) (items : List α) :
    slice ⟨none, some position⟩ items ++ slice ⟨some position, none⟩ items = items := by
  have hle := clampBound_le position items.length
  have hrest : (items.drop (clampBound position items.length)).take
      (items.length - clampBound position items.length) =
        items.drop (clampBound position items.length) :=
    List.take_of_length_le (by simp)
  simp only [slice, sliceBounds, Option.elim, Nat.zero_min, Nat.min_eq_left hle, List.drop_zero,
    Nat.sub_zero, hrest, List.take_append_drop]

/-- Slicing commutes with changing the elements. -/
theorem slice_map {β : Type} (f : α → β) (range : Filter.Range) (items : List α) :
    slice range (items.map f) = (slice range items).map f := by
  simp only [slice, List.length_map, List.map_take, List.map_drop]

/-- An index selects a position there is, or none. -/
theorem indexIn_eq (position : Int64) (length : Nat) :
    indexIn position length =
      if -(length : Int) ≤ position.toInt ∧ position.toInt < length then
        .ok (fromStart position length).toNat
      else .error (.index position length) := by
  have hiff : (0 ≤ fromStart position length && fromStart position length < length) = true ↔
      -(length : Int) ≤ position.toInt ∧ position.toInt < length := by
    rw [Bool.and_eq_true, decide_eq_true_iff, decide_eq_true_iff, fromStart]
    split <;> omega
  simp only [indexIn, hiff]

/-- A position that is accepted lies within the length. -/
theorem lt_of_indexIn {position : Int64} {length n : Nat} (h : indexIn position length = .ok n) :
    n < length := by
  rw [indexIn_eq] at h
  split at h
  · cases h
    unfold fromStart
    split <;> omega
  · cases h

/-- A position within the length selects the element there. -/
theorem select_eq_ok {position : Int64} {items : List α}
    (h : -(items.length : Int) ≤ position.toInt ∧ position.toInt < items.length) :
    ∃ item, items[(fromStart position items.length).toNat]? = some item ∧
      select position items = .ok item := by
  have hindex : indexIn position items.length = .ok (fromStart position items.length).toNat := by
    rw [indexIn_eq, if_pos h]
  have hitem := List.getElem?_eq_getElem (lt_of_indexIn hindex)
  refine ⟨_, hitem, ?_⟩
  rw [select, hindex]
  simp only [hitem]

/-- A position outside the length is an error that tells both. -/
theorem select_eq_error {position : Int64} {items : List α}
    (h : ¬ (-(items.length : Int) ≤ position.toInt ∧ position.toInt < items.length)) :
    select position items = .error (.index position items.length) := by
  rw [select, indexIn_eq, if_neg h]

/-- Selecting commutes with changing the elements. -/
theorem select_map {β : Type} (f : α → β) (position : Int64) (items : List α) :
    select position (items.map f) = (select position items).map f := by
  unfold select
  rw [List.length_map]
  cases indexIn position items.length with
  | error error => rfl
  | ok n =>
    simp only [List.getElem?_map]
    cases items[n]? <;> rfl

/-- Counting back from a length that fits into a word stays inside words. -/
theorem toInt_ofNat_add {length : Nat} (hlength : (length : Int) ≤ Int64.maxValue.toInt)
    {position : Int64} (h : position.toInt < 0) :
    (Int64.ofNat length + position).toInt = length + position.toInt := by
  have hleast := Int64.le_toInt position
  rw [Int64.toInt_maxValue] at hlength
  rw [Int64.toInt_add, Int64.toInt_ofNat_of_lt (by omega), Int.bmod_eq_of_le (by omega) (by omega)]

namespace Evaluator

variable {evaluator : Evaluator} {store : Store}

/-- A range selects the slice of the elements, as a value of the same kind. -/
theorem run_selectRange {input : Value} {elements : List Value}
    (helements : input.elements? = some elements) {range : Filter.Range}
    (hall : range.isAll = false) :
    ∃ part, (evaluator.selectRange range input).run store = some (.ok part, store) ∧
      part.kind = input.kind ∧ part.elements? = some (slice range elements) := by
  have hbounds : ¬ range.isAll = true := by simp [hall]
  cases input <;> simp only [Value.elements?, Option.some.injEq, reduceCtorEq] at helements <;>
    subst helements <;> unfold selectRange <;> rw [if_neg hbounds]
  case sequence items => exact ⟨.sequence (slice range items), rfl, rfl, rfl⟩
  case text s =>
    refine ⟨.text (String.ofList (slice range s.toList)), rfl, rfl, ?_⟩
    rw [slice_map, Value.elements?, String.toList_ofList]
  case bytes content =>
    refine ⟨.bytes (slice range content), rfl, rfl, ?_⟩
    rw [slice_map, Value.elements?]

/-- An index selects the element at its position, or fails. -/
theorem run_selectIndex {input : Value} {elements : List Value}
    (helements : input.elements? = some elements) (position : Int64) :
    (evaluator.selectIndex position input).run store =
      some (select position elements, store) := by
  cases input <;> simp only [Value.elements?, Option.some.injEq, reduceCtorEq] at helements <;>
    subst helements
  case sequence items => exact Computation.run_ofExcept _ store
  case text s =>
    rw [select_map]
    exact Computation.run_ofExcept _ store
  case bytes content =>
    rw [select_map]
    exact Computation.run_ofExcept _ store

/-- What has elements that can be selected by position is no stream to hand down into. -/
theorem run_pointwise_of_elements {input : Value} {elements : List Value}
    (hcontext : evaluator.context.check store = .ok ())
    (helements : input.elements? = some elements) (f : Value → Action Value) :
    (evaluator.pointwise f input).run store = (f input).run store := by
  have hstream : ∀ stream, input ≠ .stream stream := by
    rintro stream rfl
    cases helements
  rw [run_pointwise_of_ne_stream hstream, Computation.run_bind_of_ok (run_check_of_ok hcontext)]

/-- A range with a bound selects the elements between its bounds, and what it makes is of the same
kind; the parts before and after a bound make up the whole. An index selects the element at its
position, counted from the end if it is negative, and fails if there is none. Counting from the end
never leaves the words of 64 bits, and no place that is worked out is outside the elements. -/
theorem selection_by_position (hcontext : evaluator.context.check store = .ok ()) {input : Value}
    {elements : List Value} (helements : input.elements? = some elements)
    (hlength : (elements.length : Int) ≤ Int64.maxValue.toInt) :
    (∀ range : Filter.Range, range.isAll = false →
      ∃ part, (evaluator.apply (.range range) input).run store = some (.ok part, store) ∧
        part.kind = input.kind ∧ part.elements? = some (range.among elements)) ∧
    (∀ position : Int64, ∃ front back left right,
      (evaluator.apply (.range ⟨none, some position⟩) input).run store = some (.ok front, store) ∧
      (evaluator.apply (.range ⟨some position, none⟩) input).run store = some (.ok back, store) ∧
        front.elements? = some left ∧ back.elements? = some right ∧ left ++ right = elements) ∧
    (∀ position : Int64,
      if -(elements.length : Int) ≤ position.toInt ∧ position.toInt < elements.length then
        ∃ element, elements[(if position.toInt < 0 then elements.length + position.toInt
            else position.toInt).toNat]? = some element ∧
          (evaluator.apply (.index position) input).run store = some (.ok element, store)
      else
        (evaluator.apply (.index position) input).run store =
          some (.error (.index position elements.length), store)) ∧
    (∀ position : Int64, position.toInt < 0 →
      (Int64.ofNat elements.length + position).toInt = elements.length + position.toInt) ∧
    (∀ range, (sliceBounds range elements.length).1 ≤ (sliceBounds range elements.length).2 ∧
      (sliceBounds range elements.length).2 ≤ elements.length) ∧
    ∀ position n, indexIn position elements.length = .ok n → n < elements.length := by
  have hrange : ∀ range : Filter.Range, range.isAll = false →
      ∃ part, (evaluator.apply (.range range) input).run store = some (.ok part, store) ∧
        part.kind = input.kind ∧ part.elements? = some (slice range elements) := by
    intro range hall
    obtain ⟨part, hrun, hpart⟩ :
        ∃ part, (evaluator.selectRange range input).run store = some (.ok part, store) ∧
          part.kind = input.kind ∧ part.elements? = some (slice range elements) :=
      run_selectRange helements hall
    exact ⟨part, (run_pointwise_of_elements hcontext helements _).trans hrun, hpart⟩
  have hindex : ∀ position, (evaluator.apply (.index position) input).run store =
      some (select position elements, store) := fun position =>
    (run_pointwise_of_elements hcontext helements _).trans (run_selectIndex helements position)
  refine ⟨fun range hall => ?_, fun position => ?_, fun position => ?_, fun position hposition =>
    toInt_ofNat_add hlength hposition, fun range => ⟨sliceBounds_fst_le_snd range _,
    sliceBounds_snd_le range _⟩, fun position n => lt_of_indexIn⟩
  · rw [← slice_eq_among]
    exact hrange range hall
  · obtain ⟨front, hfront, -, hleft⟩ := hrange ⟨none, some position⟩ rfl
    obtain ⟨back, hback, -, hright⟩ := hrange ⟨some position, none⟩ rfl
    exact ⟨front, back, _, _, hfront, hback, hleft, hright, slice_append_slice position elements⟩
  · split
    case isTrue hinside =>
      obtain ⟨element, helement, hselect⟩ := select_eq_ok hinside
      exact ⟨element, helement, by rw [hindex, hselect]⟩
    case isFalse houtside => rw [hindex, select_eq_error houtside]

/-- All but the last character of a text, by bounds of which the first is as far back as a word
allows, and an index as far back. -/
theorem selection_from_text_by_position :
    let evaluator : Evaluator := { context := .background }
    let input : Value := .text "aé→"
    (∃ part, (evaluator.apply (.range ⟨some Int64.minValue, some (-1)⟩) input).run {} =
        some (.ok part, {}) ∧ part.kind = .text ∧
      part.elements? = some [.text "a", .text "é"]) ∧
    (evaluator.apply (.index Int64.minValue) input).run {} =
      some (.error (.index Int64.minValue 3), {}) := by
  intro evaluator input
  have helements : input.elements? = some [.text "a", .text "é", .text "→"] := rfl
  have hcontext : evaluator.context.check {} = .ok () := rfl
  obtain ⟨hrange, -, hindex, -⟩ := selection_by_position hcontext helements (by decide)
  exact ⟨hrange ⟨some Int64.minValue, some (-1)⟩ rfl, hindex Int64.minValue⟩

end Evaluator

end Sluice
