import Sluice.Store.Basic

/-!
# Iterators and the collections they come from

An iterator is shared by all holders of its handle. Once it is closed, advancing and reading do not
reach it any more, and only the first close does.
-/

namespace Sluice.Store

/-- A new iterator over values. -/
def newIterator (values : List Value) (behaviour : Behaviour) (store : Store) :
    Handle .iterator × Store :=
  let (handle, iterators) :=
    store.iterators.push { cursor := .ofValues values, behaviour := behaviour }
  (handle, { store with iterators := iterators })

/-- Whether an iterator has been closed. -/
def isIteratorClosed (store : Store) (iterator : Handle .iterator) : Bool :=
  (store.iterators.get iterator).cursor.closed

/-- Moves an iterator to its next value and says whether there is one. -/
def advance (iterator : Handle .iterator) (store : Store) : Bool × Store :=
  let cell := store.iterators.get iterator
  if cell.cursor.closed then (false, store)
  else
    let store := (store.record (.advanced iterator)).elapse
      (cell.behaviour.takes (cell.advances + 1))
    let store := match cell.behaviour.cancels (cell.advances + 1) with
      | none => store
      | some switch => store.cancel switch
    let (more, cursor) := cell.cursor.next
    let cell := { cell with cursor := cursor, advances := cell.advances + 1 }
    (more, { store with iterators := store.iterators.set iterator cell })

/-- Reads the value an iterator stands on. -/
def current (iterator : Handle .iterator) (store : Store) : Except ValueError Value × Store :=
  let cell := store.iterators.get iterator
  if cell.cursor.closed then (.error .iteratorClosed, store)
  else
    let result := match cell.cursor.current.bind fun (position, _) =>
        cell.behaviour.scanFault position with
      | some fault => .error fault
      | none => cell.cursor.scan
    (result, store.record (.scanned iterator))

/-- Reads the value an iterator stands on into a place, which keeps what it held on a failure. -/
def scanInto (iterator : Handle .iterator) (place : Value) (store : Store) :
    (Except ValueError Unit × Value) × Store :=
  match store.current iterator with
  | (.ok value, store) => ((.ok (), value), store)
  | (.error error, store) => ((.error error, place), store)

/-- The position of the value an iterator stands on, or null. -/
def iteratorKey (store : Store) (iterator : Handle .iterator) : Value :=
  (store.iterators.get iterator).cursor.key

/-- Whether the elements of an iterator come in a fixed order. -/
def isOrdered (store : Store) (iterator : Handle .iterator) : Bool :=
  (store.iterators.get iterator).behaviour.ordered

/-- Closes an iterator. -/
def closeIterator (iterator : Handle .iterator) (store : Store) :
    Except ValueError Unit × Store :=
  let cell := store.iterators.get iterator
  if cell.cursor.closed then (.ok (), store)
  else
    let result := match cell.behaviour.closeFault with
      | none => .ok ()
      | some fault => .error fault
    let cell := { cell with cursor := cell.cursor.close, closes := cell.closes + 1 }
    let store := store.record (.closedIterator iterator)
    (result, { store with iterators := store.iterators.set iterator cell })

/-- An iterator as it is shown for inspection. -/
def describeIterator (store : Store) (iterator : Handle .iterator) : String :=
  "IteratorHandle \x7b closed: " ++ toString (store.isIteratorClosed iterator) ++ ", .. \x7d"

/-- A new iterator over the elements of a collection. -/
def iterateArray (array : Handle .array) (store : Store) : Handle .iterator × Store :=
  let cell := store.arrays.get array
  let (iterator, store) := store.newIterator cell.elements cell.behaviour
  (iterator, store.record (.iteratedArray array iterator))

/-- A new iterator over the values of a map. -/
def iterateMap (map : Handle .map) (store : Store) : Handle .iterator × Store :=
  let cell := store.maps.get map
  let (iterator, store) := store.newIterator (cell.entries.map (·.2)) cell.behaviour
  (iterator, store.record (.iteratedMap map iterator))

/-- Whether a key is the given text. -/
def isTextKey (name : String) : Value → Bool
  | .text s => s == name
  | _ => false

/-- The value of the first entry under a text key, or null. -/
def entryUnder (name : String) (entries : List (Value × Value)) : Value :=
  match entries.find? fun entry => isTextKey name entry.1 with
  | some (_, value) => value
  | none => .null

/-- Looks up a text key in a map. -/
def lookUp (map : Handle .map) (key : String) (store : Store) :
    Except ValueError Value × Store :=
  let cell := store.maps.get map
  let result := match cell.keyFault key with
    | some fault => .error fault
    | none => .ok (entryUnder key cell.entries)
  (result, store.record (.lookedUp map key))

/-- The iterators made from a collection, oldest first. -/
def iterationsOfArray (store : Store) (array : Handle .array) : List (Handle .iterator) :=
  store.journal.reverse.filterMap fun
    | .iteratedArray source iterator => if source = array then some iterator else none
    | _ => none

/-- The iterators made from a map, oldest first. -/
def iterationsOfMap (store : Store) (map : Handle .map) : List (Handle .iterator) :=
  store.journal.reverse.filterMap fun
    | .iteratedMap source iterator => if source = map then some iterator else none
    | _ => none

/-- The keys looked up in a map, oldest first. -/
def lookupsOf (store : Store) (map : Handle .map) : List String :=
  store.journal.reverse.filterMap fun
    | .lookedUp source key => if source = map then some key else none
    | _ => none

end Sluice.Store
