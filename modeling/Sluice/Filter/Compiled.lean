import Sluice.Eval.Apply
import Sluice.Filter.Parser

/-!
# Compiled filters

A filter is compiled once and applied to any number of values. Its options say how links are
fetched, how long one application may take, and what unsupported scalars give.
-/

namespace Sluice

/-- How a filter is applied. -/
structure Options where
  resolver : Option Resolver := none
  /-- The time for one application in milliseconds, on top of any deadline of the context. -/
  timeout : Option Nat := none
  /-- Whether an unsupported scalar gives null instead of an error. -/
  lenient : Bool := true

/-- A duration of whole milliseconds, in the largest unit of which there is at least one. -/
def renderMilliseconds (n : Nat) : String :=
  if n = 0 then "0ns"
  else if n < 1000 then toString n ++ "ms"
  else
    let digits := (Nat.toDigits 10 (1000 + n % 1000)).drop 1
    let fraction := (digits.reverse.dropWhile (· == '0')).reverse
    toString (n / 1000) ++ (if fraction.isEmpty then "" else "." ++ String.ofList fraction) ++ "s"

/-- Options as they are shown for inspection. -/
def Options.describe (options : Options) : String :=
  let resolver := match options.resolver with
    | none => "None"
    | some _ => "Some(\"<resolver>\")"
  let timeout := match options.timeout with
    | none => "None"
    | some n => "Some(" ++ renderMilliseconds n ++ ")"
  "FilterOptions \x7b resolver: " ++ resolver ++ ", timeout: " ++ timeout ++
    ", lenient: " ++ toString options.lenient ++ " \x7d"

/-- The evaluator for one application in a context. -/
def Options.evaluator (options : Options) (context : Context) : Evaluator :=
  { context := context, resolver := options.resolver, lenient := options.lenient }

/-- An evaluator as it is shown for inspection. -/
def Evaluator.describe (evaluator : Evaluator) : String :=
  "Evaluator \x7b has_resolver: " ++ toString evaluator.resolver.isSome ++
    ", lenient: " ++ toString evaluator.lenient ++ " \x7d"

/-- A filter that has been read, with its source and its options. -/
structure Filter where
  source : String
  program : Filter.Program
  options : Options := {}

namespace Filter

/-- Reads a filter. -/
def compile (source : String) (options : Options := {}) : Except SyntaxError Filter :=
  (parse source).map fun program => ⟨source, program, options⟩

/-- Applies a filter to a value. The result holds no stream. -/
def apply (filter : Filter) (context : Context) (input : Value) :
    StateT Store Option (Except Failure Value) := fun store =>
  let context := match filter.options.timeout with
    | none => context
    | some timeout => context.withTimeout store.now timeout
  (filter.options.evaluator context).run filter.program input store

end Filter

end Sluice
