/-!
# Syntax of filters

A filter is a list of pipeline stages, and each stage is a `Node`: an operation from one input to
one output. The empty filter passes its input through.
-/

namespace Sluice.Filter

/-- The arithmetic operators. All of them associate to the left. -/
inductive Operator
  | add
  | subtract
  | multiply
  | divide
  deriving DecidableEq

/-- The sign of an operator. -/
def Operator.symbol : Operator → String
  | add => "+"
  | subtract => "-"
  | multiply => "*"
  | divide => "/"

/-- Whether an operator binds tighter than addition and subtraction. -/
def Operator.isMultiplicative : Operator → Bool
  | add | subtract => false
  | multiply | divide => true

/-- The bounds of a slice. A negative bound counts from the end, and either may be left out. -/
structure Range where
  start : Option Int64
  stop : Option Int64
  deriving DecidableEq

/-- Whether both bounds are left out, so that the slice is everything. -/
def Range.isAll (range : Range) : Bool := range.start.isNone && range.stop.isNone

/-- One operation of a filter. -/
inductive Node where
  /-- Quoted text or a bareword. -/
  | text (s : String)
  | number (x : Float)
  /-- The count of elements, characters or bytes. -/
  | length
  /-- The input itself, written `.`. -/
  | identity
  /-- The entry under a key, written `.name`. -/
  | key (name : String)
  /-- The element at a position, written `.[n]`. -/
  | index (position : Int64)
  /-- The elements one by one, written `.[]`. -/
  | iterate
  /-- A slice, written `.[a:b]`. -/
  | range (bounds : Range)
  | binary (left : Node) (operator : Operator) (right : Node)
  /-- Selectors applied one after another, written `.a.b[0]`. -/
  | chain (steps : List Node)
  /-- The sequence of several results, written `[a, b]`. -/
  | array (items : List Node)
  /-- The mapping of several results under keys, in the order written. -/
  | object (entries : List (String × Node))
  /-- Stages in parentheses, written `(a | b)`. -/
  | pipeline (stages : List Node)
  deriving Inhabited

/-- The stages of a filter, applied from left to right. -/
abbrev Program := List Node

/-- A chain of selectors. One selector stands for itself. -/
def Node.ofSteps : List Node → Node
  | [step] => step
  | steps => chain steps

/-- A pipeline in parentheses. One stage stands for itself. -/
def Node.ofStages : List Node → Node
  | [stage] => stage
  | stages => pipeline stages

end Sluice.Filter
