import Sluice.Store.Link

/-!
# Resolvers

A resolver fetches the value that a link stands for. It is given by what it does for each path,
which may depend on what was fetched before: take time, throw switches, resolve links that others
hold, and answer with a value or fail. A value it makes may hold links that did not exist before.
-/

namespace Sluice

/-- A value that holds links still to be made, one for each path. -/
structure Draft where
  paths : List String := []
  build : List (Handle .link) → Value

namespace Draft

/-- A value as it is. -/
def ofValue (value : Value) : Draft := { build := fun _ => value }

/-- Makes links to the paths, in order. -/
def newLinks : List String → Store → List (Handle .link) × Store
  | [], store => ([], store)
  | path :: paths, store =>
    let (link, store) := store.newLink path
    let (links, store) := newLinks paths store
    (link :: links, store)

/-- Makes the links and then the value. -/
def realize (draft : Draft) (store : Store) : Value × Store :=
  let (links, store) := newLinks draft.paths store
  (draft.build links, store)

end Draft

/-- What a resolver does for one fetch. -/
structure Script where
  /-- The milliseconds it takes. -/
  takes : Nat := 0
  /-- The switches it throws first. -/
  cancels : List Switch := []
  /-- The links it then resolves. A link that is resolved already stays as it is. -/
  resolves : List (Handle .link × Draft) := []
  /-- The failure, or the value it answers with at the end. -/
  answer : Except String Draft

/-- What is done for each path, given the paths fetched before. -/
structure Resolver where
  script : (fetched : List String) → (path : String) → Script

namespace Resolver

/-- Resolves the links that a script names. -/
def resolveAll (resolves : List (Handle .link × Draft)) (store : Store) : Store :=
  resolves.foldl (fun store (link, draft) =>
    let (value, store) := draft.realize store
    (store.resolve link value).2) store

/-- Fetches the value of a link at its path. -/
def fetch (resolver : Resolver) (link : Handle .link) (path : String) (store : Store) :
    Except String Value × Store :=
  let script := resolver.script store.fetches path
  let store := (store.record (.fetched link path)).elapse script.takes
  let store := script.cancels.foldl (fun store switch => store.cancel switch) store
  let store := resolveAll script.resolves store
  match script.answer with
  | .error text => (.error text, store)
  | .ok draft =>
    let (value, store) := draft.realize store
    (.ok value, store)

end Resolver

end Sluice
