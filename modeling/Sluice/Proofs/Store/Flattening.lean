import Sluice.Eval.Release
import Sluice.Proofs.Store.Reachability

/-!
# Flattening part by part

Flattening takes a value apart, takes elements out of streams, and puts the flat parts together.
What is kept by each of these relates every value to its flat form and the stores before and after
(`Flattening.flatten`).
-/

namespace Sluice.Store

section Run

variable {flat : Value → StateM Store Value} {stream : Handle .stream} {count : Nat}
  {store after : Store}

/-- Where a stream gives no element, flattening its elements stops. -/
theorem run_flattenPulled_of_none (hpull : store.pull stream = (none, after)) :
    (flattenPulled flat stream (count + 1)).run store = ([], after) := by
  simp only [flattenPulled, StateT.run, modifyGet, MonadStateOf.modifyGet, StateT.modifyGet, bind,
    StateT.bind, pure, hpull]
  rfl

/-- An element that a stream gives is flattened, and then the rest. -/
theorem run_flattenPulled_of_some {value : Value}
    (hpull : store.pull stream = (some value, after)) :
    (flattenPulled flat stream (count + 1)).run store =
      (((flat value).run after).1 ::
        ((flattenPulled flat stream count).run ((flat value).run after).2).1,
      ((flattenPulled flat stream count).run ((flat value).run after).2).2) := by
  simp only [flattenPulled, StateT.run, modifyGet, MonadStateOf.modifyGet, StateT.modifyGet, bind,
    StateT.bind, pure, hpull]
  rfl

/-- A stream is flattened by flattening as many elements as it holds. -/
theorem run_flattenStream_succ (depth : Nat) (stream : Handle .stream) (store : Store) :
    (flattenStream (depth + 1) stream).run store =
      (flattenPulled (flattenWith (flattenStream depth)) stream
        (store.remaining stream).length).run store := rfl

/-- A value is flattened as deep as there are elements in all streams. -/
theorem run_flatten (value : Value) (store : Store) :
    (flatten value).run store =
      (flattenWith (flattenStream (store.totalRemaining + 1)) value).run store := rfl

end Run

/-- Whether a value is made of parts that flattening looks at, or is a stream. -/
def IsCompound : Value → Prop
  | .stream _ | .sequence _ | .mapping _ | .dict _ => True
  | _ => False

/-- The entries of a dict, each in a dict of its own. -/
def singleDicts (entries : List (Value × Value)) : List Value :=
  entries.map fun entry => .dict [entry]

/-- Whether a relation between stores and between values and flat values is kept by whatever
flattening does: by leaving a value without parts as it is, by putting flat parts together, and by
taking an element out of a stream. -/
structure Flattening (R : Store → Store → List Value → List Value → Prop) : Prop where
  suffix : ∀ {store after : Store} {values flats : List Value}, R store after values flats →
    ∀ stream, after.remaining stream <:+ store.remaining stream
  fewer : ∀ {store after : Store} {values flats : List Value}, R store after values flats →
    after.totalRemaining ≤ store.totalRemaining
  nil : ∀ store, R store store [] []
  atom : ∀ store {value : Value}, ¬ IsCompound value → R store store [value] [value]
  append : ∀ {store middle after : Store} {values flats others otherFlats : List Value},
    R store middle values flats → R middle after others otherFlats →
    R store after (values ++ others) (flats ++ otherFlats)
  sequence : ∀ {store after : Store} {items flats : List Value},
    R store after items flats → R store after [.sequence items] [.sequence flats]
  mapping : ∀ {store after : Store} {entries flats : List (String × Value)},
    R store after (entries.map (·.2)) (flats.map (·.2)) →
    R store after [.mapping entries] [.mapping flats]
  entry : ∀ {store after : Store} {value flat : Value} (key : Value),
    R store after [value] [flat] → R store after [.dict [(key, value)]] [.dict [(key, flat)]]
  dict : ∀ {store after : Store} {entries flats : List (Value × Value)},
    R store after (singleDicts entries) (singleDicts flats) →
    R store after [.dict entries] [.dict flats]
  stream : ∀ {store after : Store} {stream : Handle .stream} {flats : List Value},
    R store after [.stream stream] flats → R store after [.stream stream] [.sequence flats]
  exhausted : ∀ {store : Store} {stream : Handle .stream},
    store.remaining stream = [] → R store store [.stream stream] []
  pulled : ∀ {store middle next after : Store} {stream : Handle .stream} {value flat : Value}
    {flats : List Value}, store.pull stream = (some value, middle) →
    R middle next [value] [flat] → R next after [.stream stream] flats →
    R store after [.stream stream] (flat :: flats)

namespace Flattening

variable {R : Store → Store → List Value → List Value → Prop}

/-- Whether the elements of streams are related to their flat forms, where at most so many elements
are left. -/
def OnStreams (R : Store → Store → List Value → List Value → Prop) (limit : Nat)
    (ofStream : Handle .stream → StateM Store (List Value)) : Prop :=
  ∀ stream store, totalRemaining store ≤ limit →
    R store ((ofStream stream).run store).2 [.stream stream] ((ofStream stream).run store).1

section FlattenWith

variable {limit : Nat} {ofStream : Handle .stream → StateM Store (List Value)}

mutual

/-- A value is related to its flat form, if streams are. -/
theorem flattenWith (h : Flattening R) (hstream : OnStreams R limit ofStream) (value : Value)
    (store : Store) (htotal : store.totalRemaining ≤ limit) :
    R store ((Sluice.flattenWith ofStream value).run store).2 [value]
      [((Sluice.flattenWith ofStream value).run store).1] := by
  match value with
  | .stream stream => exact h.stream (hstream stream store htotal)
  | .sequence items => exact h.sequence (flattenItemsWith h hstream items store htotal)
  | .mapping entries => exact h.mapping (flattenMappingWith h hstream entries store htotal)
  | .dict entries => exact h.dict (flattenDictWith h hstream entries store htotal)
  | .null | .bool _ | .int _ | .float _ | .byte _ | .bytes _ | .text _ | .link _ | .map _
  | .array _ | .iterator _ | .byteStream _ => exact h.atom store id
termination_by structural value

/-- Flattening items keeps what flattening is asked to keep. -/
theorem flattenItemsWith (h : Flattening R) (hstream : OnStreams R limit ofStream)
    (items : List Value) (store : Store) (htotal : store.totalRemaining ≤ limit) :
    R store ((Sluice.flattenItemsWith ofStream items).run store).2 items
      ((Sluice.flattenItemsWith ofStream items).run store).1 := by
  match items with
  | [] => exact h.nil store
  | item :: rest =>
    have hfirst := flattenWith h hstream item store htotal
    have hrest := flattenItemsWith h hstream rest _ (Nat.le_trans (h.fewer hfirst) htotal)
    exact h.append hfirst hrest
termination_by structural items

/-- Flattening the entries of a mapping keeps what flattening is asked to keep. -/
theorem flattenMappingWith (h : Flattening R) (hstream : OnStreams R limit ofStream)
    (entries : List (String × Value)) (store : Store) (htotal : store.totalRemaining ≤ limit) :
    R store ((Sluice.flattenMappingWith ofStream entries).run store).2 (entries.map (·.2))
      (((Sluice.flattenMappingWith ofStream entries).run store).1.map (·.2)) := by
  match entries with
  | [] => exact h.nil store
  | (key, value) :: rest =>
    have hfirst := flattenWith h hstream value store htotal
    have hrest := flattenMappingWith h hstream rest _ (Nat.le_trans (h.fewer hfirst) htotal)
    exact h.append hfirst hrest
termination_by structural entries

/-- Flattening the entries of a dict keeps what flattening is asked to keep. The keys stay as they
are. -/
theorem flattenDictWith (h : Flattening R) (hstream : OnStreams R limit ofStream)
    (entries : List (Value × Value)) (store : Store) (htotal : store.totalRemaining ≤ limit) :
    R store ((Sluice.flattenDictWith ofStream entries).run store).2 (singleDicts entries)
      (singleDicts ((Sluice.flattenDictWith ofStream entries).run store).1) := by
  match entries with
  | [] => exact h.nil store
  | (key, value) :: rest =>
    have hvalue := flattenWith h hstream value store htotal
    have hrest := flattenDictWith h hstream rest _ (Nat.le_trans (h.fewer hvalue) htotal)
    exact h.append (h.entry key hvalue) hrest
termination_by structural entries

end

end FlattenWith

/-- A stream is related to the flat forms of the elements that are pulled from it. -/
theorem flattenPulled (h : Flattening R) {limit : Nat} {flat : Value → StateM Store Value}
    {stream : Handle .stream}
    (hflat : ∀ value store, totalRemaining store ≤ limit →
      R store ((flat value).run store).2 [value] [((flat value).run store).1])
    {count : Nat} {store : Store} (hcount : (store.remaining stream).length ≤ count)
    (htotal : store.totalRemaining ≤ limit + 1) :
    R store ((Sluice.flattenPulled flat stream count).run store).2 [.stream stream]
      ((Sluice.flattenPulled flat stream count).run store).1 := by
  induction count generalizing store with
  | zero => exact h.exhausted (List.length_eq_zero_iff.mp (Nat.le_zero.mp hcount))
  | succ count ih =>
    rcases hpull : store.pull stream with ⟨_ | value, middle⟩
    · obtain ⟨hnil, rfl⟩ := pull_none hpull
      rw [run_flattenPulled_of_none hpull]
      exact h.exhausted hnil
    · obtain ⟨hremaining, _, hfewer, _⟩ := pull_some hpull
      have hvalue := hflat value middle (by omega)
      have hlength := (h.suffix hvalue stream).length_le
      have hle := h.fewer hvalue
      rw [hremaining, List.length_cons] at hcount
      have hrest := @ih ((flat value).run middle).2 (by omega) (by omega)
      rw [run_flattenPulled_of_some hpull]
      exact h.pulled hpull hvalue hrest

/-- Flattening a stream keeps what flattening is asked to keep, by induction on the depth. -/
theorem flattenStream (h : Flattening R) (depth : Nat) :
    OnStreams R depth (Sluice.flattenStream depth) := by
  induction depth with
  | zero =>
    intro stream store htotal
    exact h.exhausted (remaining_eq_nil (Nat.le_zero.mp htotal) stream)
  | succ depth ih =>
    intro stream store htotal
    exact h.flattenPulled (h.flattenWith ih) (Nat.le_refl _) htotal

/-- Every value is related to its flat form. -/
theorem flatten (h : Flattening R) (value : Value) (store : Store) :
    R store ((Sluice.flatten value).run store).2 [value]
      [((Sluice.flatten value).run store).1] :=
  h.flattenWith (h.flattenStream _) value store (Nat.le_succ _)

end Flattening

end Sluice.Store
