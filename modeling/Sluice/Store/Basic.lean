import Sluice.Store.Table
import Sluice.Store.Cursor
import Sluice.Store.ByteSource

/-!
# The store

The store holds everything that values share through handles and that changes while filters run:
links and what they resolved to, capabilities, iterators, byte streams and lazy streams, and the
cancel switches that were thrown. It also keeps a journal of what was asked of the outside, newest
first.

The default cell of each table is inert: a link that has resolved to null, collections without
elements, iterators and byte streams that are closed, and a stream with nothing left.
-/

namespace Sluice

/-- A switch that cancels every context that listens to it. -/
structure Switch where
  index : Nat
  deriving DecidableEq

/-- A reference by path, and the value it stands for once that is known. -/
structure Link where
  path : String
  target : Option Value := none

/-- A link that has resolved to null. -/
instance : Inhabited Link := ⟨"", some .null⟩

/-- How an iterator departs from plain iteration in memory. -/
structure Behaviour where
  /-- Whether the elements come in a fixed order. -/
  ordered : Bool := true
  /-- The failure of reading the element at a position. -/
  scanFault : Nat → Option ValueError := fun _ => none
  closeFault : Option ValueError := none
  /-- The milliseconds that the n-th advance takes, counted from one. -/
  takes : Nat → Nat := fun _ => 0
  /-- The switch that the n-th advance throws before it moves, counted from one. -/
  cancels : Nat → Option Switch := fun _ => none

/-- An iterator, with the calls that have reached it. -/
structure Iterator where
  cursor : Cursor
  behaviour : Behaviour := {}
  advances : Nat := 0
  closes : Nat := 0

/-- An iterator that is closed. -/
instance : Inhabited Iterator := ⟨{ cursor := { rest := [], closed := true } }⟩

/-- A collection that is reached by iteration only. -/
structure Collection where
  elements : List Value
  behaviour : Behaviour := {}

/-- A collection without elements. -/
instance : Inhabited Collection := ⟨{ elements := [] }⟩

/-- A collection that is reached by lookups and by iteration over its values. -/
structure Lookup where
  entries : List (Value × Value)
  /-- The failure of looking up a key. -/
  keyFault : String → Option ValueError := fun _ => none
  behaviour : Behaviour := {}

/-- A map without entries. -/
instance : Inhabited Lookup := ⟨{ entries := [] }⟩

/-- A byte source behind a handle, with the closes that have reached it. -/
structure ByteStream where
  source : ByteSource
  closed : Bool := false
  closes : Nat := 0

/-- A byte stream that is closed. -/
instance : Inhabited ByteStream := ⟨{ source := { data := [] }, closed := true }⟩

/-- What a lazy stream was made from. -/
inductive LazyStream.Shape
  | single
  | values
  | wrapped
  deriving DecidableEq

/-- A sequence of values each of which is handed out once. -/
structure LazyStream where
  shape : LazyStream.Shape
  remaining : List Value

/-- A stream with nothing left. -/
instance : Inhabited LazyStream := ⟨.single, []⟩

/-- Something that was asked of the outside. -/
inductive Event
  | fetched (link : Handle .link) (path : String)
  | lookedUp (map : Handle .map) (key : String)
  | iteratedArray (array : Handle .array) (iterator : Handle .iterator)
  | iteratedMap (map : Handle .map) (iterator : Handle .iterator)
  | advanced (iterator : Handle .iterator)
  | scanned (iterator : Handle .iterator)
  | read (stream : Handle .byteStream)
  | closedIterator (iterator : Handle .iterator)
  | closedByteStream (stream : Handle .byteStream)
  | cancelled (switch : Switch)
  deriving DecidableEq

/-- Everything that values share and that changes while filters run. -/
structure Store where
  links : Table .link Link := {}
  maps : Table .map Lookup := {}
  arrays : Table .array Collection := {}
  iterators : Table .iterator Iterator := {}
  byteStreams : Table .byteStream ByteStream := {}
  streams : Table .stream LazyStream := {}
  thrown : List Switch := []
  /-- The reading of the clock, in milliseconds. -/
  now : Nat := 0
  /-- What was asked of the outside, newest first. -/
  journal : List Event := []

namespace Store

/-- Adds an event to the journal. -/
def record (event : Event) (store : Store) : Store :=
  { store with journal := event :: store.journal }

/-- Throws a switch. -/
def cancel (switch : Switch) (store : Store) : Store :=
  { store.record (.cancelled switch) with thrown := switch :: store.thrown }

/-- Lets time pass. -/
def elapse (milliseconds : Nat) (store : Store) : Store :=
  { store with now := store.now + milliseconds }

/-- Whether a switch has been thrown. -/
def isThrown (store : Store) (switch : Switch) : Bool := store.thrown.contains switch

/-- The paths that were fetched, oldest first. -/
def fetches (store : Store) : List String :=
  store.journal.reverse.filterMap fun
    | .fetched _ path => some path
    | _ => none

end Store

end Sluice
