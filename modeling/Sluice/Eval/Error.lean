import Sluice.Context
import Sluice.Filter.Syntax

/-!
# Why a filter fails on an input

Each way in which applying a filter fails, and the message for it.
-/

namespace Sluice

/-- The operations that some kinds of input do not support. -/
inductive Operation
  | keySelector
  | indexSelector
  | rangeSelector
  | length
  deriving DecidableEq

/-- The name of an operation in error messages. -/
def Operation.name : Operation → String
  | keySelector => "key selector"
  | indexSelector => "index selector"
  | rangeSelector => "range selector"
  | length => "length"

/-- Why a filter failed on a value. -/
inductive EvalError
  /-- An operation met a kind of input that it does not support. -/
  | type (operation : Operation) (found : Value.Kind)
  /-- A position outside the elements there are. -/
  | index (position : Int64) (length : Nat)
  /-- A position from the end of something that can be run through only once. -/
  | negativeOnOneShot (position : Int64) (source : Value.Kind)
  | unsupportedBinary (left : Value.Kind) (operator : Filter.Operator) (right : Value.Kind)
  /-- A link was met and nothing can fetch it. -/
  | noResolver (path : String)
  /-- Too many links stand one behind another. -/
  | linkCycle (path : String)
  /-- Fetching a link failed, for the reason given. -/
  | resolution (path reason : String)
  /-- Reading or closing a byte stream failed, for the reason given. -/
  | byteStream (reason : String)
  | value (error : ValueError)
  | context (error : ContextError)
  deriving DecidableEq

/-- The message of an evaluation error. -/
def EvalError.message : EvalError → String
  | type operation found => "cannot apply " ++ operation.name ++ " to " ++ found.name
  | index position length =>
    "index " ++ toString position.toInt ++ " out of range for length " ++ toString length
  | negativeOnOneShot position source =>
    "negative position " ++ toString position.toInt ++ " needs a known length, but " ++
      source.name ++ " is one-shot"
  | unsupportedBinary left operator right =>
    "unsupported binary operation: " ++ left.name ++ " " ++ operator.symbol ++ " " ++ right.name
  | noResolver path => "no resolver available for link " ++ Text.quote path
  | linkCycle path => "link " ++ Text.quote path ++ " does not resolve to a value"
  | resolution path reason => "resolving link " ++ Text.quote path ++ ": " ++ reason
  | byteStream reason => "byte stream read failed: " ++ reason
  | value error => error.message
  | context error => error.message

end Sluice
