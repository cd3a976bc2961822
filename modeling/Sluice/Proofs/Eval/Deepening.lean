import Sluice.Proofs.Eval.Tracing

/-!
# Depth does not matter

How deep an action may be handed down into streams and links is read off the store. A computation
that ends at one depth ends in the same way at every greater depth, so wherever it ends at two
depths, it ends in the same way (`agrees_fanOut`, `agrees_selectKeyWithin`).
-/

namespace Sluice

open Sluice.Action

variable {σ ε α β : Type}

/-- Whether wherever one computation ends another one ends in the same way. -/
def Below (x y : Computation σ ε α) : Prop :=
  ∀ ⦃state outcome⦄, x.run state = some outcome → y.run state = some outcome

namespace Below

/-- A computation ends in the way it ends. -/
theorem refl (x : Computation σ ε α) : Below x x := fun _ _ => id

/-- Computations one after the other end in the same way if each of them does. -/
theorem bind {x y : Computation σ ε α} {f g : α → Computation σ ε β} (h : Below x y)
    (hnext : ∀ a, Below (f a) (g a)) : Below (x >>= f) (y >>= g) := by
  intro state outcome hrun
  rw [Computation.run_bind] at hrun ⊢
  rcases hx : x.run state with _ | ⟨error | a, middle⟩ <;> rw [hx] at hrun
  · cases hrun
  · rw [h hx]
    exact hrun
  · rw [h hx]
    exact hnext a hrun

end Below

/-- Whether two computations end in the same way wherever both of them end. -/
def Agrees (x y : Computation σ ε α) : Prop :=
  ∀ ⦃state outcome other⦄, x.run state = some outcome → y.run state = some other → outcome = other

/-- A computation agrees with itself. -/
theorem Agrees.refl (x : Computation σ ε α) : Agrees x x :=
  fun _ _ _ hrun hother => Option.some.inj (hrun.symm.trans hother)

/-- What ends in the same way at every greater depth agrees at any two depths. -/
theorem agrees_of_below {x : Nat → Computation σ ε α}
    (h : ∀ depth deeper, depth ≤ deeper → Below (x depth) (x deeper)) (depth other : Nat) :
    Agrees (x depth) (x other) := by
  intro state outcome last hrun hother
  rcases Nat.le_total depth other with hle | hle
  · exact Option.some.inj ((h depth other hle hrun).symm.trans hother)
  · exact Option.some.inj (hrun.symm.trans (h other depth hle hother))

namespace Traced

variable {evaluator : Evaluator}

/-- Several computations one after another. The results so far are held; those before come newest
first. -/
def inTurn : List (Traced Value) → List Value → Traced (List Value)
  | [], values => pure values.reverse
  | body :: rest, values => do
    let value ← whileHolding values.reverse body
    inTurn rest (value :: values)

/-- The parts of an array are applied in turn. -/
theorem applyAll_eq_inTurn (nodes : List Filter.Node) (input : Value) (values : List Value) :
    applyAll evaluator nodes input values =
      inTurn (nodes.map fun node => apply evaluator node input) values := by
  induction nodes generalizing values with
  | nil => rfl
  | cons node rest ih => simp only [applyAll, List.map_cons, inTurn, ih]

/-- The parts of an object are applied in turn, and the results get their keys. -/
theorem applyEntries_eq_inTurn (entries : List (String × Filter.Node)) (input : Value)
    (values : List (String × Value)) :
    applyEntries evaluator entries input values =
      inTurn (entries.map fun entry => apply evaluator entry.2 input) (values.map (·.2)) >>=
        fun results => pure ((values.reverse.map (·.1) ++ entries.map (·.1)).zip results) := by
  induction entries generalizing values with
  | nil =>
    have hzip : values.reverse = (values.reverse.map (·.1)).zip (values.map (·.2)).reverse :=
      List.zip_of_prod rfl List.map_reverse
    simp only [applyEntries, List.map_nil, inTurn, pure_bind, List.append_nil, ← hzip]
  | cons entry rest ih => simp [applyEntries, inTurn, ih]

/-- The items of a sequence are handed down to in turn. -/
theorem broadcastItems_eq_inTurn (f : Value → Traced Value) (items values : List Value) :
    broadcastItems evaluator f items values =
      inTurn (items.map (broadcast evaluator f)) values := by
  induction items generalizing values with
  | nil => rfl
  | cons item rest ih => simp only [broadcastItems, List.map_cons, inTurn, ih]

/-- Items are collected in turn. -/
theorem collect_eq_inTurn (f : Value → Traced Value) (items values : List Value) :
    collect f items values = inTurn (items.map f) values := by
  induction items generalizing values with
  | nil => rfl
  | cons item rest ih => simp only [collect, List.map_cons, inTurn, ih]

/-- What is made of what leads to a value, if the key may be carried deeper. -/
def askTarget (evaluator : Evaluator) (name : String) : (depth : Nat) → Value → Traced Value
  | 0, .sequence _ => ofAction diverge
  | depth + 1, .sequence items => do
    let values ← inTurn (items.map (selectKeyWithin evaluator name depth)) []
    pure (.sequence values)
  | _, target => selectEntry evaluator name target

/-- What is made of the elements of a stream, if the key may be carried deeper. -/
def askElements (evaluator : Evaluator) (name : String) :
    (depth : Nat) → Handle .stream → Traced Value
  | 0, _ => ofAction diverge
  | depth + 1, stream => spread stream (selectKeyWithin evaluator name depth)

variable (name : String) (depth : Nat)

/-- A sequence asks its items at the same depth. -/
theorem selectKeyWithin_sequence (items : List Value) :
    selectKeyWithin evaluator name depth (.sequence items) =
      start evaluator >>= fun _ =>
        inTurn (items.map (selectKeyWithin evaluator name depth)) [] >>= fun values =>
          pure (.sequence values) := by
  cases depth <;> simp only [selectKeyWithin, broadcast, broadcastItems_eq_inTurn]

/-- A stream asks its elements one level deeper. -/
theorem selectKeyWithin_stream (stream : Handle .stream) :
    selectKeyWithin evaluator name depth (.stream stream) =
      start evaluator >>= fun _ => askElements evaluator name depth stream := by
  cases depth <;> rfl

/-- Whatever is neither a sequence nor a stream is resolved first. -/
theorem selectKeyWithin_of_ne {value : Value} (hsequence : ∀ items, value ≠ .sequence items)
    (hstream : ∀ stream, value ≠ .stream stream) :
    selectKeyWithin evaluator name depth value =
      start evaluator >>= fun _ =>
        resolve evaluator value >>= askTarget evaluator name depth := by
  cases value with
  | sequence items => exact absurd rfl (hsequence items)
  | stream stream => exact absurd rfl (hstream stream)
  | _ =>
    cases depth with
    | zero =>
      refine bind_congr fun _ => bind_congr fun target => ?_
      cases target <;> rfl
    | succ depth =>
      refine bind_congr fun _ => bind_congr fun target => ?_
      cases target with
      | sequence items => simp only [collect_eq_inTurn, askTarget]
      | _ => rfl

/-- What does not end is below everything. -/
theorem below_diverge (body : Traced α) : Below (ofAction diverge) body := by
  intro state outcome hrun
  cases hrun

/-- Holding values does not change where a computation ends. -/
theorem below_whileHolding {x y : Traced α} (h : Below x y) (values : List Value) :
    Below (whileHolding values x) (whileHolding values y) := by
  intro state outcome hrun
  obtain ⟨first, hx, hfirst⟩ := Option.map_eq_some_iff.mp hrun
  exact Option.map_eq_some_iff.mpr ⟨first, h hx, hfirst⟩

/-- Computations in turn are below others in turn if each of them is. -/
theorem below_inTurn {f g : Value → Traced Value} {items : List Value}
    (h : ∀ item ∈ items, Below (f item) (g item)) (values : List Value) :
    Below (inTurn (items.map f) values) (inTurn (items.map g) values) := by
  induction items generalizing values with
  | nil => exact .refl _
  | cons item rest ih =>
    obtain ⟨hitem, hrest⟩ := List.forall_mem_cons.mp h
    exact (below_whileHolding hitem _).bind fun value => ih hrest (value :: values)

/-- The loop over the elements of a stream is below another one if what it does for each element
is. -/
theorem below_spreadWithin (stream : Handle .stream) {f g : Value → Traced Value}
    (h : ∀ value, Below (f value) (g value)) (limit : Nat) (values : List Value) :
    Below (spreadWithin stream f limit values) (spreadWithin stream g limit values) := by
  induction limit generalizing values with
  | zero => exact .refl _
  | succ limit ih =>
    refine (Below.refl (ofAction (perform (Store.pull stream)))).bind fun element => ?_
    cases element with
    | none => exact .refl _
    | some element =>
      exact (below_whileHolding (h element) _).bind fun value => ih (value :: values)

/-- Spreading over a stream is below another spreading if what it does for each element is. -/
theorem below_spread (stream : Handle .stream) {f g : Value → Traced Value}
    (h : ∀ value, Below (f value) (g value)) : Below (spread stream f) (spread stream g) :=
  (Below.refl _).bind fun limit => below_spreadWithin stream h limit []

variable (evaluator)

/-- What ends at one depth of streams ends in the same way at a greater one. -/
theorem below_fanOut (f : Value → Traced Value) {depth deeper : Nat} (h : depth ≤ deeper)
    (input : Value) :
    Below (fanOut evaluator f depth input) (fanOut evaluator f deeper input) := by
  induction depth generalizing deeper input with
  | zero =>
    cases deeper with
    | zero => exact .refl _
    | succ deeper =>
      refine (Below.refl (start evaluator)).bind fun _ => ?_
      cases input with
      | stream stream => exact below_diverge _
      | _ => exact .refl _
  | succ depth ih =>
    obtain ⟨deeper, rfl⟩ : ∃ n, deeper = n + 1 := ⟨deeper - 1, by omega⟩
    refine (Below.refl (start evaluator)).bind fun _ => ?_
    cases input with
    | stream stream => exact below_spread stream fun value => ih (by omega) value
    | _ => exact .refl _

/-- What a key ends with at one depth it ends with at a greater one. -/
theorem below_selectKeyWithin {depth deeper : Nat} (h : depth ≤ deeper) (input : Value) :
    Below (selectKeyWithin evaluator name depth input)
      (selectKeyWithin evaluator name deeper input) := by
  induction depth, input using Evaluator.ask_induction generalizing deeper with
  | sequence depth items ih =>
    rw [selectKeyWithin_sequence, selectKeyWithin_sequence]
    refine (Below.refl (start evaluator)).bind fun _ => ?_
    exact (below_inTurn (fun item hmem => ih item hmem h) []).bind fun values => .refl _
  | stream depth stream ih =>
    rw [selectKeyWithin_stream, selectKeyWithin_stream]
    refine (Below.refl (start evaluator)).bind fun _ => ?_
    cases depth with
    | zero => exact below_diverge _
    | succ depth =>
      obtain ⟨deeper, rfl⟩ : ∃ n, deeper = n + 1 := ⟨deeper - 1, by omega⟩
      exact below_spread stream fun value => ih depth rfl value (by omega)
  | other depth value hsequence hstream ih =>
    rw [selectKeyWithin_of_ne name depth hsequence hstream,
      selectKeyWithin_of_ne name deeper hsequence hstream]
    refine (Below.refl (start evaluator)).bind fun _ => ?_
    refine (Below.refl (resolve evaluator value)).bind fun target => ?_
    cases target with
    | sequence items =>
      cases depth with
      | zero => exact below_diverge _
      | succ depth =>
        obtain ⟨deeper, rfl⟩ : ∃ n, deeper = n + 1 := ⟨deeper - 1, by omega⟩
        exact (below_inTurn (fun item _ => ih depth rfl item (by omega)) []).bind fun values =>
          .refl _
    | _ => cases depth <;> cases deeper <;> exact .refl _

/-- A computation that is handed down into streams ends in one way, at whatever depth it ends. -/
theorem agrees_fanOut (f : Value → Traced Value) (depth other : Nat) (input : Value) :
    Agrees (fanOut evaluator f depth input) (fanOut evaluator f other input) :=
  agrees_of_below (fun _ _ hle => below_fanOut evaluator f hle input) depth other

/-- A key that is carried into sequences, streams and links ends in one way, at whatever depth it
ends. -/
theorem agrees_selectKeyWithin (depth other : Nat) (input : Value) :
    Agrees (selectKeyWithin evaluator name depth input)
      (selectKeyWithin evaluator name other input) :=
  agrees_of_below (fun _ _ hle => below_selectKeyWithin evaluator name hle input) depth other

end Traced

end Sluice
