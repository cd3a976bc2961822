import Sluice.Store.Basic

/-!
# Lazy streams

A lazy stream hands out each of its elements once, in order, to whichever holder of its handle
asks first. It is made from one value, from several, or from another stream, which then is its only
element.
-/

namespace Sluice

/-- The name of a shape where a stream is shown for inspection. -/
def LazyStream.Shape.name : LazyStream.Shape → String
  | single => "single"
  | values => "values"
  | wrapped => "wrapped"

namespace Store

/-- A new stream with the given elements. -/
def newStream (shape : LazyStream.Shape) (elements : List Value) (store : Store) :
    Handle .stream × Store :=
  let (handle, streams) := store.streams.push ⟨shape, elements⟩
  (handle, { store with streams := streams })

/-- The elements not handed out yet. -/
def remaining (store : Store) (stream : Handle .stream) : List Value :=
  (store.streams.get stream).remaining

/-- A stream that there is not holds nothing. -/
theorem remaining_of_size_le {store : Store} {stream : Handle .stream}
    (h : store.streams.size ≤ stream.index) : store.remaining stream = [] := by
  rw [remaining, Table.get_of_size_le h]
  rfl

/-- Takes the next element. -/
def pull (stream : Handle .stream) (store : Store) : Option Value × Store :=
  let cell := store.streams.get stream
  match cell.remaining with
  | [] => (none, store)
  | value :: rest =>
    (some value,
      { store with streams := store.streams.set stream { cell with remaining := rest } })

/-- Pulling gives the first of the remaining elements. -/
@[simp] theorem fst_pull (store : Store) (stream : Handle .stream) :
    (store.pull stream).1 = (store.remaining stream).head? := by
  simp only [pull, remaining]
  cases (store.streams.get stream).remaining <;> rfl

/-- Pulling leaves the other elements. -/
@[simp] theorem remaining_pull (store : Store) (stream : Handle .stream) :
    (store.pull stream).2.remaining stream = (store.remaining stream).tail := by
  simp only [pull, remaining]
  cases hremaining : (store.streams.get stream).remaining with
  | nil => simp [hremaining]
  | cons value rest =>
    have hbound : stream.index < store.streams.size := by
      refine Decidable.byContradiction fun hout => ?_
      rw [Table.get_of_size_le (Nat.le_of_not_lt hout)] at hremaining
      exact absurd hremaining (by simp [default])
    simp [Table.get_set_self hbound]

/-- Pulling from one stream takes nothing from another. -/
theorem remaining_pull_of_ne (store : Store) {stream other : Handle .stream} (h : other ≠ stream) :
    (store.pull stream).2.remaining other = store.remaining other := by
  simp only [pull, remaining]
  cases (store.streams.get stream).remaining with
  | nil => rfl
  | cons value rest => simp [Table.get_set_of_ne _ h]

/-- Drops the elements not handed out yet. -/
def closeStream (stream : Handle .stream) (store : Store) : Store :=
  { store with streams := store.streams.set stream ⟨.single, []⟩ }

/-- How many elements all streams together still hold. -/
def totalRemaining (store : Store) : Nat :=
  store.streams.cells.foldl (fun total cell => total + cell.remaining.length) 0

/-- Takes up to `limit` elements one by one and applies `f` to each. It stops at the first failure,
which comes with the results before it. -/
def mapEachWithin {m : Type → Type} [Monad m] [MonadStateOf Store m] {ε β : Type}
    (stream : Handle .stream) (f : Value → m (Except ε β)) :
    (limit : Nat) → List β → m (Except (ε × List β) (List β))
  | 0, results => pure (.ok results.reverse)
  | limit + 1, results => do
    match ← modifyGetThe Store (pull stream) with
    | none => pure (.ok results.reverse)
    | some value =>
      match ← f value with
      | .error error => pure (.error (error, results.reverse))
      | .ok result => mapEachWithin stream f limit (result :: results)

/-- Takes every remaining element and applies `f` to each, in order, up to the first failure. The
stream never grows, so as many steps as it holds elements at the start are enough. -/
def mapEach {m : Type → Type} [Monad m] [MonadStateOf Store m] {ε β : Type}
    (stream : Handle .stream) (f : Value → m (Except ε β)) :
    m (Except (ε × List β) (List β)) := do
  let store ← getThe Store
  mapEachWithin stream f (store.remaining stream).length []

/-- A stream as it is shown for inspection. -/
def describeStream (store : Store) (stream : Handle .stream) : String :=
  "LazyStream \x7b kind: " ++ Text.quote (store.streams.get stream).shape.name ++ ", .. \x7d"

end Store

end Sluice
