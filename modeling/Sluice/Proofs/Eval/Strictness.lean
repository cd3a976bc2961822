import Sluice.Proofs.Eval.Keys

/-!
# Strict and lenient evaluation

A strict evaluator differs from a lenient one only in what it makes of an input that an operation
does not support. So the two run alike until the strict one meets such an input, and then it ends
with a type error, which nothing on the way out takes back (`Stricter`). A strict run that ends in
any other way is the lenient run: the same result or error, the same store behind it
(`run_leniently_of_run_strictly`).
-/

namespace Sluice

open Sluice.Filter

variable {α β : Type}

/-- The evaluator that refuses what an operation does not support. -/
def Evaluator.strictly (evaluator : Evaluator) : Evaluator := { evaluator with lenient := false }

/-- The evaluator that takes null for what an operation does not support. -/
def Evaluator.leniently (evaluator : Evaluator) : Evaluator := { evaluator with lenient := true }

/-- Whether an error tells that an operation does not support its input. -/
def EvalError.IsType (error : EvalError) : Prop :=
  ∃ operation found, error = .type operation found

/-- Whether an action runs as another one does, unless it ends with a type error. -/
def Stricter (strict lenient : Action α) : Prop :=
  ∀ store, strict.run store = lenient.run store ∨
    ∃ error after, error.IsType ∧ strict.run store = some (.error error, after)

namespace Stricter

variable {x y : Action α}

/-- An action is as strict as itself. -/
theorem refl (x : Action α) : Stricter x x := fun _ => .inl rfl

/-- An action is as strict as one that it equals. -/
theorem of_eq (h : x = y) : Stricter x y := h ▸ refl x

/-- Actions one after the other are stricter if each of them is. -/
theorem bind {f g : α → Action β} (h : Stricter x y) (hnext : ∀ a, Stricter (f a) (g a)) :
    Stricter (x >>= f) (y >>= g) := by
  intro store
  rw [Computation.run_bind, Computation.run_bind]
  rcases h store with heq | ⟨error, after, htype, hrun⟩
  · rw [heq]
    rcases y.run store with _ | ⟨error | a, middle⟩
    · exact .inl rfl
    · exact .inl rfl
    · exact hnext a middle
  · exact .inr ⟨error, after, htype, by rw [hrun]; rfl⟩

/-- What is cleaned up after an error does not change the error. -/
theorem orRelease (h : Stricter x y) (values : List Value) :
    Stricter (x.orRelease values) (y.orRelease values) := by
  intro store
  simp only [Action.orRelease, Action.onError, ExceptT.run_mk]
  rcases h store with heq | ⟨error, after, htype, hrun⟩
  · exact .inl (by rw [heq])
  · exact .inr ⟨error, _, htype, by rw [hrun]⟩

end Stricter

/-- Where the strict run over the elements of a stream stops with a type error, it hands that error
on; otherwise the two runs take the same elements to the same results. -/
theorem stricter_mapEachWithin {f g : Value → Action Value}
    (h : ∀ value, Stricter (f value) (g value)) (stream : Handle .stream) (limit : Nat)
    (results : List Value) (store : Store) :
    (Store.mapEachWithin stream (fun value => (f value).run) limit results :
        StateT Store Option _) store =
      (Store.mapEachWithin stream (fun value => (g value).run) limit results :
        StateT Store Option _) store ∨
    ∃ error values after, error.IsType ∧
      (Store.mapEachWithin stream (fun value => (f value).run) limit results :
        StateT Store Option _) store = some (.error (error, values), after) := by
  induction limit generalizing results store with
  | zero => exact .inl rfl
  | succ limit ih =>
    rw [Store.run_mapEachWithin_succ, Store.run_mapEachWithin_succ]
    rcases store.pull stream with ⟨_ | value, middle⟩
    · exact .inl rfl
    · simp only [Store.mapRest]
      rcases h value middle with heq | ⟨error, after, htype, hrun⟩
      · rw [heq]
        rcases (g value).run middle with _ | ⟨error | result, next⟩
        · exact .inl rfl
        · exact .inl rfl
        · exact ih (result :: results) next
      · exact .inr ⟨error, results.reverse, after, htype, by rw [hrun]⟩

namespace Evaluator

open Sluice.Action

variable (evaluator : Evaluator)

/-- Handing down into a stream is stricter if what is handed down is. -/
theorem stricter_spread {f g : Value → Action Value} (h : ∀ value, Stricter (f value) (g value))
    (stream : Handle .stream) : Stricter (spread stream f) (spread stream g) := by
  intro store
  rw [run_spread, run_spread, Store.run_mapEach, Store.run_mapEach]
  rcases stricter_mapEachWithin h stream (store.remaining stream).length [] store with
    heq | ⟨error, values, after, htype, hrun⟩
  · exact .inl (by rw [heq])
  · exact .inr ⟨error, releaseAll values after, htype, by rw [hrun]; rfl⟩

/-- Links are followed alike. -/
theorem follow_strictly (links : Nat) (value : Value) :
    evaluator.strictly.follow links value = evaluator.leniently.follow links value := by
  induction links generalizing value with
  | zero => cases value <;> rfl
  | succ links ih =>
    cases value with
    | link link => exact congrArg (evaluator.leniently.resolveLink link >>= ·) (funext ih)
    | _ => rfl

/-- Values are resolved alike. -/
theorem resolve_strictly (value : Value) :
    evaluator.strictly.resolve value = evaluator.leniently.resolve value :=
  follow_strictly evaluator maxLinkDepth value

/-- Positions are sought alike. -/
theorem seek_strictly (iterator : Handle .iterator) (position : Int64) (limit skip seen : Nat) :
    evaluator.strictly.seek iterator position limit skip seen =
      evaluator.leniently.seek iterator position limit skip seen := by
  induction limit generalizing skip seen with
  | zero => rfl
  | succ limit ih =>
    cases skip with
    | zero => rfl
    | succ skip => simp only [seek, ih]; rfl

/-- The element at a position is read alike. -/
theorem nth_strictly (iterator : Handle .iterator) (position : Int64) :
    evaluator.strictly.nth iterator position = evaluator.leniently.nth iterator position := by
  simp only [nth, seek_strictly]

/-- Windows are collected alike. -/
theorem window_strictly (iterator : Handle .iterator) (start : Nat) (stop : Option Nat)
    (limit position : Nat) (collected : List Value) :
    evaluator.strictly.window iterator start stop limit position collected =
      evaluator.leniently.window iterator start stop limit position collected := by
  induction limit generalizing position collected with
  | zero => rfl
  | succ limit ih => simp only [window, ih]; rfl

/-- Ranges are collected alike. -/
theorem collectRange_strictly (iterator : Handle .iterator) (range : Filter.Range) :
    evaluator.strictly.collectRange iterator range =
      evaluator.leniently.collectRange iterator range := by
  simp only [collectRange, window_strictly]

/-- Elements are counted on alike. -/
theorem countFrom_strictly (iterator : Handle .iterator) (limit count : Nat) :
    evaluator.strictly.countFrom iterator limit count =
      evaluator.leniently.countFrom iterator limit count := by
  induction limit generalizing count with
  | zero => rfl
  | succ limit ih => simp only [countFrom, ih]; rfl

/-- Elements are counted alike. -/
theorem count_strictly (iterator : Handle .iterator) :
    evaluator.strictly.count iterator = evaluator.leniently.count iterator := by
  simp only [count, countFrom_strictly]

/-- Iteration is alike, as it supports every input. -/
theorem iterateAll_strictly (input : Value) :
    evaluator.strictly.iterateAll input = evaluator.leniently.iterateAll input := by
  cases input <;> simp only [iterateAll, resolve_strictly]

/-- Calculating is alike, as operands of other kinds are refused either way. -/
theorem arithmetic_strictly (left : Value) (operator : Operator) (right : Value) :
    evaluator.strictly.arithmetic left operator right =
      evaluator.leniently.arithmetic left operator right := by
  simp only [arithmetic, resolve_strictly]

/-- The one place where the modes differ. -/
theorem stricter_unsupported (operation : Operation) (input : Value) :
    Stricter (evaluator.strictly.unsupported operation input)
      (evaluator.leniently.unsupported operation input) :=
  fun store => .inr ⟨_, store, ⟨operation, input.kind, rfl⟩, rfl⟩

/-- Selecting an index is stricter where the input is not supported, and alike otherwise. -/
theorem stricter_selectIndex (position : Int64) (input : Value) :
    Stricter (evaluator.strictly.selectIndex position input)
      (evaluator.leniently.selectIndex position input) := by
  simp only [selectIndex, resolve_strictly, nth_strictly]
  refine .bind (.refl _) fun target => ?_
  cases target with
  | iterator | array | sequence | text | bytes | byteStream => exact .refl _
  | _ => exact stricter_unsupported evaluator _ _

/-- Selecting a range is stricter where the input is not supported, and alike otherwise. -/
theorem stricter_selectRange (range : Filter.Range) (input : Value) :
    Stricter (evaluator.strictly.selectRange range input)
      (evaluator.leniently.selectRange range input) := by
  simp only [selectRange, resolve_strictly, collectRange_strictly]
  split
  · exact .refl _
  · refine .bind (.refl _) fun target => ?_
    cases target with
    | iterator | array | byteStream | sequence | text | bytes => exact .refl _
    | _ => exact stricter_unsupported evaluator _ _

/-- Taking the length is stricter where the input is not supported, and alike otherwise. -/
theorem stricter_length (input : Value) :
    Stricter (evaluator.strictly.length input) (evaluator.leniently.length input) := by
  simp only [length, resolve_strictly, count_strictly]
  refine .bind (.refl _) fun target => ?_
  cases target with
  | text | bytes | sequence | mapping | dict | iterator | array | map | byteStream =>
    exact .refl _
  | _ => exact stricter_unsupported evaluator _ _

/-- Selecting an entry is stricter where the input is not supported, and alike otherwise. -/
theorem stricter_selectEntry (name : String) (input : Value) :
    Stricter (evaluator.strictly.selectEntry name input)
      (evaluator.leniently.selectEntry name input) := by
  cases input with
  | map | mapping | dict | iterator | array | byteStream => exact .refl _
  | _ => exact stricter_unsupported evaluator _ _

/-- Handing down into streams is stricter if what is handed down is, at every depth. -/
theorem stricter_fanOut {f g : Value → Action Value} (h : ∀ value, Stricter (f value) (g value))
    (depth : Nat) (input : Value) :
    Stricter (evaluator.strictly.fanOut f depth input)
      (evaluator.leniently.fanOut g depth input) := by
  induction depth generalizing input with
  | zero =>
    refine .bind (.refl _) fun _ => ?_
    cases input with
    | stream stream => exact .refl _
    | _ => exact h _
  | succ depth ih =>
    refine .bind (.refl _) fun _ => ?_
    cases input with
    | stream stream => exact stricter_spread ih stream
    | _ => exact h _

/-- Handing down as deep as streams go is stricter if what is handed down is. -/
theorem stricter_pointwise {f g : Value → Action Value} (h : ∀ value, Stricter (f value) (g value))
    (input : Value) :
    Stricter (evaluator.strictly.pointwise f input) (evaluator.leniently.pointwise g input) :=
  .bind (.refl _) fun depth => stricter_fanOut evaluator h depth input

/-- Collecting is stricter if what gives the items is. -/
theorem stricter_collect {f g : Value → Action Value} {items : List Value}
    (h : ∀ item ∈ items, Stricter (f item) (g item)) (values : List Value) :
    Stricter (selectKeyWithin.collect f items values) (selectKeyWithin.collect g items values) := by
  induction items generalizing values with
  | nil => exact .refl _
  | cons item rest ih =>
    refine .bind ((h item List.mem_cons_self).orRelease _) fun value => ?_
    exact ih (fun other hmem => h other (List.mem_cons_of_mem _ hmem)) (value :: values)

/-- Selecting a key is stricter, by induction on how deep it is handed down. -/
theorem stricter_selectKeyWithin (name : String) (depth : Nat) (input : Value) :
    Stricter (evaluator.strictly.selectKeyWithin name depth input)
      (evaluator.leniently.selectKeyWithin name depth input) := by
  induction depth, input using ask_induction with
  | sequence depth items ih =>
    rw [selectKeyWithin_sequence, selectKeyWithin_sequence]
    exact .bind (.refl _) fun _ => .bind (stricter_collect ih []) fun _ => .refl _
  | stream depth stream ih =>
    rw [selectKeyWithin_stream, selectKeyWithin_stream]
    refine .bind (.refl _) fun _ => ?_
    cases depth with
    | zero => exact .refl _
    | succ depth => exact stricter_spread (ih depth rfl) stream
  | other depth value hsequence hstream ih =>
    rw [selectKeyWithin_of_ne name depth hsequence hstream,
      selectKeyWithin_of_ne name depth hsequence hstream, resolve_strictly]
    refine .bind (.refl _) fun _ => .bind (.refl _) fun target => ?_
    cases target with
    | sequence items =>
      cases depth with
      | zero => exact .refl _
      | succ depth =>
        exact .bind (stricter_collect (fun item _ => ih depth rfl item) []) fun _ => .refl _
    | _ =>
      rw [askTarget_of_ne name _ (by simp), askTarget_of_ne name _ (by simp)]
      exact stricter_selectEntry evaluator name _

/-- Selecting a key is stricter. -/
theorem stricter_selectKey (name : String) (input : Value) :
    Stricter (evaluator.strictly.selectKey name input)
      (evaluator.leniently.selectKey name input) :=
  .bind (.refl _) fun depth => stricter_selectKeyWithin evaluator name depth input

mutual

/-- The application of a node is stricter, by induction on the node. -/
theorem stricter_apply (node : Node) (input : Value) :
    Stricter (evaluator.strictly.apply node input) (evaluator.leniently.apply node input) := by
  match node with
  | .identity => exact .refl _
  | .chain steps => exact .bind (.refl _) fun _ => stricter_thread steps input
  | .pipeline stages => exact .bind (.refl _) fun _ => stricter_thread stages input
  | .iterate => exact .bind (.refl _) fun _ => .of_eq (iterateAll_strictly evaluator input)
  | .text s => exact stricter_pointwise evaluator (fun _ => .refl _) input
  | .number x => exact stricter_pointwise evaluator (fun _ => .refl _) input
  | .length => exact stricter_pointwise evaluator (stricter_length evaluator) input
  | .key name => exact stricter_selectKey evaluator name input
  | .index position =>
    exact stricter_pointwise evaluator (stricter_selectIndex evaluator position) input
  | .range bounds =>
    exact stricter_pointwise evaluator (stricter_selectRange evaluator bounds) input
  | .binary left operator right =>
    refine stricter_pointwise evaluator (fun input => ?_) input
    refine .bind (stricter_apply left input) fun a => ?_
    refine .bind ((stricter_apply right input).orRelease _) fun b => ?_
    exact .of_eq (by rw [arithmetic_strictly])
  | .array items =>
    exact stricter_pointwise evaluator
      (fun input => .bind (stricter_applyAll items input []) fun _ => .refl _) input
  | .object entries =>
    exact stricter_pointwise evaluator
      (fun input => .bind (stricter_applyEntries entries input []) fun _ => .refl _) input
termination_by structural node

/-- Stages one after the other are stricter. -/
theorem stricter_thread (nodes : List Node) (input : Value) :
    Stricter (evaluator.strictly.thread nodes input) (evaluator.leniently.thread nodes input) := by
  match nodes with
  | [] => exact .refl _
  | node :: rest => exact .bind (stricter_apply node input) fun value => stricter_thread rest value
termination_by structural nodes

/-- The parts of an array are stricter. -/
theorem stricter_applyAll (nodes : List Node) (input : Value) (values : List Value) :
    Stricter (evaluator.strictly.applyAll nodes input values)
      (evaluator.leniently.applyAll nodes input values) := by
  match nodes with
  | [] => exact .refl _
  | node :: rest =>
    exact .bind ((stricter_apply node input).orRelease _) fun value =>
      stricter_applyAll rest input (value :: values)
termination_by structural nodes

/-- The parts of an object are stricter. -/
theorem stricter_applyEntries (entries : List (String × Node)) (input : Value)
    (values : List (String × Value)) :
    Stricter (evaluator.strictly.applyEntries entries input values)
      (evaluator.leniently.applyEntries entries input values) := by
  match entries with
  | [] => exact .refl _
  | (key, node) :: rest =>
    exact .bind ((stricter_apply node input).orRelease _) fun value =>
      stricter_applyEntries rest input ((key, value) :: values)
termination_by structural entries

end

/-- The stages that are left run alike, unless the strict ones end with a type error. -/
theorem continueRun_strictly (program : Program) (value : Value) (store : Store) :
    evaluator.strictly.continueRun program value store =
      evaluator.leniently.continueRun program value store ∨
    ∃ failure after, failure.error.IsType ∧
      evaluator.strictly.continueRun program value store = some (.error failure, after) := by
  induction program generalizing value store with
  | nil => exact .inl rfl
  | cons node rest ih =>
    simp only [continueRun]
    rcases stricter_apply evaluator node value store with heq | ⟨error, after, htype, hrun⟩
    · rw [heq]
      rcases (evaluator.leniently.apply node value).run store with _ | ⟨error | next, middle⟩
      · exact .inl rfl
      · exact .inl rfl
      · exact ih next middle
    · rw [hrun]
      exact .inr ⟨⟨error, some _⟩, _, htype, rfl⟩

/-- A strict run and a lenient run from the same store are the same, unless the strict one ends
with a type error. -/
theorem run_strictly (program : Program) (input : Value) (store : Store) :
    evaluator.strictly.run program input store = evaluator.leniently.run program input store ∨
    ∃ failure after, failure.error.IsType ∧
      evaluator.strictly.run program input store = some (.error failure, after) := by
  cases program with
  | nil => exact .inl rfl
  | cons node rest =>
    simp only [run]
    rcases stricter_apply evaluator node input store with heq | ⟨error, after, htype, hrun⟩
    · rw [heq]
      rcases (evaluator.leniently.apply node input).run store with _ | ⟨error | next, middle⟩
      · exact .inl rfl
      · exact .inl rfl
      · exact continueRun_strictly evaluator rest next middle
    · exact .inr ⟨⟨error, none⟩, _, htype, by rw [hrun]⟩

/-- A result of a strict run is the result of the lenient run from the same store, and so is a
failure of any other kind than a type error; the store behind the two runs is the same. -/
theorem run_leniently_of_run_strictly (program : Program) (input : Value) (store : Store) :
    (∀ value after, evaluator.strictly.run program input store = some (.ok value, after) →
      evaluator.leniently.run program input store = some (.ok value, after)) ∧
    (∀ failure after, evaluator.strictly.run program input store = some (.error failure, after) →
      ¬ failure.error.IsType →
      evaluator.leniently.run program input store = some (.error failure, after)) := by
  rcases run_strictly evaluator program input store with heq | ⟨failure, after, htype, hrun⟩
  · rw [heq]
    exact ⟨fun _ _ hrun => hrun, fun _ _ hrun _ => hrun⟩
  · rw [hrun]
    refine ⟨fun value _ hother => ?_, fun other _ hother hkind => ?_⟩
    · cases hother
    · cases hother
      exact absurd htype hkind

/-- In `.a | .b` every operation supports its input, and in `.a | . / .` the second stage fails for
another reason; so both run the same in both modes. -/
theorem run_leniently_of_strict_broadcast :
    let evaluator : Evaluator := { context := .background }
    let input : Value := .mapping [("a", .sequence [.mapping [("b", .null)]])]
    evaluator.leniently.run [.key "a", .key "b"] input {} =
      some (.ok (.sequence [.null]), {}) ∧
    evaluator.leniently.run [.key "a", .binary .identity .divide .identity] input {} =
      some (.error ⟨.unsupportedBinary .sequence .divide .sequence,
        some (.sequence [.mapping [("b", .null)]])⟩, {}) := by
  intro evaluator input
  have hbroadcast := (run_leniently_of_run_strictly evaluator [.key "a", .key "b"] input {}).1
  have hdivision := (run_leniently_of_run_strictly evaluator
    [.key "a", .binary .identity .divide .identity] input {}).2
  refine ⟨hbroadcast _ _ rfl, hdivision _ _ rfl ?_⟩
  rintro ⟨operation, found, herror⟩
  cases herror

end Evaluator

end Sluice
