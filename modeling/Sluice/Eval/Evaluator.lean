import Sluice.Eval.Action
import Sluice.Resolver

/-!
# Evaluators

An evaluator holds what stays the same while a filter is applied: when to stop, how to fetch links,
and whether an unsupported scalar gives null or an error. Here it follows links to their values.
-/

namespace Sluice

/-- How many links may stand one behind another. -/
def maxLinkDepth : Nat := 32

/-- What stays the same while a filter is applied. -/
structure Evaluator where
  context : Context
  resolver : Option Resolver := none
  /-- Whether an unsupported scalar gives null instead of an error. -/
  lenient : Bool := true
  /-- How many links fetched on the way a key may be carried through, one inside the value of
  another. A key that has to be carried further has no outcome. -/
  budget : Nat := 4096

namespace Evaluator

open Sluice.Action

/-- Goes on only while the context allows it. -/
def check (evaluator : Evaluator) : Action Unit :=
  attempt .context fun store => (evaluator.context.check store, store)

/-- The value of a link. An unresolved link is fetched and keeps the value, unless somebody else has
resolved it in the meantime. -/
def resolveLink (evaluator : Evaluator) (link : Handle .link) : Action Value := do
  match ← perform fun store => (store.linkTarget? link, store) with
  | some target => pure target
  | none =>
    let path ← perform fun store => (store.linkPath link, store)
    match evaluator.resolver with
    | none => throw (.noResolver path)
    | some resolver =>
      evaluator.check
      let value ← attempt (.resolution path) (resolver.fetch link path)
      evaluator.check
      let _ ← perform (Store.resolve link value)
      pure value

/-- Follows at most so many links. -/
def follow (evaluator : Evaluator) : (links : Nat) → Value → Action Value
  | 0, .link link => do
    let path ← perform fun store => (store.linkPath link, store)
    throw (.linkCycle path)
  | links + 1, .link link => do
    let target ← evaluator.resolveLink link
    evaluator.follow links target
  | _, value => pure value

/-- Follows links until a value that is no link is reached. -/
def resolve (evaluator : Evaluator) (value : Value) : Action Value :=
  evaluator.follow maxLinkDepth value

/-- The result of an operation that does not support its input. -/
def unsupported (evaluator : Evaluator) (operation : Operation) (input : Value) : Action Value :=
  if evaluator.lenient then pure .null else throw (.type operation input.kind)

/-- Refuses an input that can be run through only once, and closes it. -/
def reject (operation : Operation) (input : Value) : Action Value := do
  perform fun store => ((), closeHandle input store)
  throw (.type operation input.kind)

end Evaluator

end Sluice
