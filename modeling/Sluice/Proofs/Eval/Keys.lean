import Sluice.Proofs.Eval.Links

/-!
# Asking for a key, case by case

A sequence that is asked for a key asks its items, a stream asks its elements, and anything else the
value that it leads to. Items are asked as deep as the sequence, elements and what is behind a link
one level deeper, so what holds of asking is shown by induction on the depth and the size of the
value (`ask_induction`).
-/

namespace Sluice.Evaluator

open Sluice.Action

variable {evaluator : Evaluator}

/-- What is made of the value that a value asked for a key leads to. -/
def askTarget (evaluator : Evaluator) (name : String) (onItems : List Value → Action Value) :
    Value → Action Value
  | .sequence items => onItems items
  | target => evaluator.selectEntry name target

/-- What is made of the items that a link leads to, if the key may be carried deeper. -/
def askItems (evaluator : Evaluator) (name : String) : (depth : Nat) → List Value → Action Value
  | 0, _ => diverge
  | depth + 1, items => do
    let values ← selectKeyWithin.collect (evaluator.selectKeyWithin name depth) items []
    pure (.sequence values)

/-- What is made of the elements of a stream, if the key may be carried deeper. -/
def askElements (evaluator : Evaluator) (name : String) :
    (depth : Nat) → Handle .stream → Action Value
  | 0, _ => diverge
  | depth + 1, stream => spread stream (evaluator.selectKeyWithin name depth)

/-- Handing down to items is collecting what is handed down to each. -/
theorem broadcastItems_eq_collect (f : Value → Action Value) (items values : List Value) :
    evaluator.broadcastItems f items values =
      selectKeyWithin.collect (evaluator.broadcast f) items values := by
  induction items generalizing values with
  | nil => rfl
  | cons item rest ih => simp only [broadcastItems, selectKeyWithin.collect, ih]

variable (name : String) (depth : Nat)

/-- A sequence asks its items at the same depth. -/
theorem selectKeyWithin_sequence (items : List Value) :
    evaluator.selectKeyWithin name depth (.sequence items) =
      evaluator.check >>= fun _ =>
        selectKeyWithin.collect (evaluator.selectKeyWithin name depth) items [] >>= fun values =>
          pure (.sequence values) := by
  cases depth <;> simp only [selectKeyWithin, broadcast, broadcastItems_eq_collect]

/-- A stream is asked for a key by asking its elements. -/
theorem selectKeyWithin_stream (stream : Handle .stream) :
    evaluator.selectKeyWithin name depth (.stream stream) =
      evaluator.check >>= fun _ => evaluator.askElements name depth stream := by
  cases depth <;> rfl

/-- Whatever is neither a sequence nor a stream is resolved first. -/
theorem selectKeyWithin_of_ne {value : Value} (hsequence : ∀ items, value ≠ .sequence items)
    (hstream : ∀ stream, value ≠ .stream stream) :
    evaluator.selectKeyWithin name depth value =
      evaluator.check >>= fun _ =>
        evaluator.resolve value >>= evaluator.askTarget name (evaluator.askItems name depth) := by
  cases value with
  | sequence items => exact absurd rfl (hsequence items)
  | stream stream => exact absurd rfl (hstream stream)
  | _ => cases depth <;> rfl

/-- What is no sequence is asked itself. -/
theorem askTarget_of_ne (onItems : List Value → Action Value) {target : Value}
    (h : ∀ items, target ≠ .sequence items) :
    evaluator.askTarget name onItems target = evaluator.selectEntry name target := by
  cases target with
  | sequence items => exact absurd rfl (h items)
  | _ => rfl

/-- Induction over the depth of asking, and over the size of sequences at one depth. -/
@[elab_as_elim]
theorem ask_induction {motive : Nat → Value → Prop}
    (sequence : ∀ depth items, (∀ item ∈ items, motive depth item) →
      motive depth (.sequence items))
    (stream : ∀ depth stream, (∀ deeper, depth = deeper + 1 → ∀ value, motive deeper value) →
      motive depth (.stream stream))
    (other : ∀ depth value, (∀ items, value ≠ .sequence items) →
      (∀ stream, value ≠ .stream stream) →
      (∀ deeper, depth = deeper + 1 → ∀ value, motive deeper value) → motive depth value)
    (depth : Nat) (value : Value) : motive depth value := by
  have hstep (depth : Nat) (hdeeper : ∀ deeper, depth = deeper + 1 → ∀ value, motive deeper value)
      (value : Value) : motive depth value := by
    induction hsize : sizeOf value using Nat.strong_induction_on generalizing value with
    | _ size ih =>
      cases value with
      | sequence items =>
        refine sequence depth items fun item hmem => ih (sizeOf item) ?_ item rfl
        rw [← hsize]
        exact Value.sizeOf_lt_of_mem_sequence hmem
      | stream handle => exact stream depth handle hdeeper
      | _ => exact other depth _ (by simp) (by simp) hdeeper
  induction depth generalizing value with
  | zero => exact hstep 0 (fun _ h => absurd h (Nat.succ_ne_zero _).symm) value
  | succ depth ih =>
    refine hstep (depth + 1) (fun deeper h => ?_) value
    rw [← Nat.succ.inj h]
    exact ih

end Sluice.Evaluator
