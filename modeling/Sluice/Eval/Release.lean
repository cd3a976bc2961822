import Sluice.Store.Iterator
import Sluice.Store.ByteStream
import Sluice.Store.LazyStream

/-!
# Flattening and releasing values

Flattening replaces the streams in a value by sequences of their elements. Releasing closes the
iterators and byte streams in a value that nobody will use any more; failures of closing are
ignored. Both take the elements out of every stream they meet, so the elements that all streams
hold together bound how deep streams can be met inside streams.
-/

namespace Sluice

/-- Closes a value that is itself an iterator or a byte stream. -/
def closeHandle : Value → Store → Store
  | .iterator iterator, store => (store.closeIterator iterator).2
  | .byteStream stream, store => (store.closeByteStream stream).2
  | _, store => store

mutual

/-- Closes everything in a value, given how to release a stream. -/
def releaseWith (ofStream : Handle .stream → Store → Store) : Value → Store → Store
  | .stream stream => ofStream stream
  | .sequence items => releaseItemsWith ofStream items
  | .mapping entries => releaseMappingWith ofStream entries
  | .dict entries => releaseDictWith ofStream entries
  | value => closeHandle value
termination_by structural value => value

/-- Closes everything in a list of values. -/
def releaseItemsWith (ofStream : Handle .stream → Store → Store) : List Value → Store → Store
  | [] => id
  | item :: rest => fun store =>
    releaseItemsWith ofStream rest (releaseWith ofStream item store)
termination_by structural items => items

/-- Closes everything in the values of a mapping. -/
def releaseMappingWith (ofStream : Handle .stream → Store → Store) :
    List (String × Value) → Store → Store
  | [] => id
  | (_, value) :: rest => fun store =>
    releaseMappingWith ofStream rest (releaseWith ofStream value store)
termination_by structural entries => entries

/-- Closes everything in the keys and values of a dict. -/
def releaseDictWith (ofStream : Handle .stream → Store → Store) :
    List (Value × Value) → Store → Store
  | [] => id
  | (key, value) :: rest => fun store =>
    releaseDictWith ofStream rest
      (releaseWith ofStream value (releaseWith ofStream key store))
termination_by structural entries => entries

end

/-- Takes up to `limit` elements out of a stream and applies `f` to each. -/
def Store.drain (stream : Handle .stream) (f : Value → Store → Store) :
    (limit : Nat) → Store → Store
  | 0, store => store
  | limit + 1, store =>
    match store.pull stream with
    | (none, store) => store
    | (some value, store) => drain stream f limit (f value store)

/-- Closes everything in the elements of a stream, inside at most `depth` streams. -/
def releaseStream : (depth : Nat) → Handle .stream → Store → Store
  | 0, _, store => store
  | depth + 1, stream, store =>
    store.drain stream (releaseWith (releaseStream depth)) (store.remaining stream).length

/-- Closes every iterator and byte stream that can be reached from a value, through the elements of
sequences and streams and the entries of mappings and dicts. -/
def release (value : Value) (store : Store) : Store :=
  releaseWith (releaseStream (store.totalRemaining + 1)) value store

/-- Releases several values in order. -/
def releaseAll (values : List Value) (store : Store) : Store :=
  values.foldl (fun store value => release value store) store

mutual

/-- Replaces the streams in a value, given the flat elements of a stream. The keys of dicts stay as
they are. -/
def flattenWith (ofStream : Handle .stream → StateM Store (List Value)) : Value → StateM Store Value
  | .stream stream => do
    let items ← ofStream stream
    pure (.sequence items)
  | .sequence items => do
    let items ← flattenItemsWith ofStream items
    pure (.sequence items)
  | .mapping entries => do
    let entries ← flattenMappingWith ofStream entries
    pure (.mapping entries)
  | .dict entries => do
    let entries ← flattenDictWith ofStream entries
    pure (.dict entries)
  | value => pure value
termination_by structural value => value

/-- Replaces the streams in a list of values. -/
def flattenItemsWith (ofStream : Handle .stream → StateM Store (List Value)) :
    List Value → StateM Store (List Value)
  | [] => pure []
  | item :: rest => do
    let item ← flattenWith ofStream item
    let rest ← flattenItemsWith ofStream rest
    pure (item :: rest)
termination_by structural items => items

/-- Replaces the streams in the values of a mapping. -/
def flattenMappingWith (ofStream : Handle .stream → StateM Store (List Value)) :
    List (String × Value) → StateM Store (List (String × Value))
  | [] => pure []
  | (key, value) :: rest => do
    let value ← flattenWith ofStream value
    let rest ← flattenMappingWith ofStream rest
    pure ((key, value) :: rest)
termination_by structural entries => entries

/-- Replaces the streams in the values of a dict. -/
def flattenDictWith (ofStream : Handle .stream → StateM Store (List Value)) :
    List (Value × Value) → StateM Store (List (Value × Value))
  | [] => pure []
  | (key, value) :: rest => do
    let value ← flattenWith ofStream value
    let rest ← flattenDictWith ofStream rest
    pure ((key, value) :: rest)
termination_by structural entries => entries

end

/-- Takes up to `limit` elements out of a stream and flattens each. -/
def flattenPulled (flat : Value → StateM Store Value) (stream : Handle .stream) :
    (limit : Nat) → StateM Store (List Value)
  | 0 => pure []
  | limit + 1 => do
    match ← modifyGet (Store.pull stream) with
    | none => pure []
    | some value =>
      let value ← flat value
      let rest ← flattenPulled flat stream limit
      pure (value :: rest)

/-- The flat elements of a stream, inside at most `depth` streams. -/
def flattenStream : (depth : Nat) → Handle .stream → StateM Store (List Value)
  | 0, _ => pure []
  | depth + 1, stream => do
    let store ← get
    flattenPulled (flattenWith (flattenStream depth)) stream (store.remaining stream).length

/-- Replaces every stream in a value, at any depth, by the sequence of its elements. -/
def flatten (value : Value) : StateM Store Value := do
  let store ← get
  flattenWith (flattenStream (store.totalRemaining + 1)) value

end Sluice
