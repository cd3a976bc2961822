import Sluice.CommandLine.Arguments
import Sluice.Filter.Compiled
import Sluice.Json.Parser
import Sluice.Value.Json

/-!
# Running a command line

The program reads a JSON document, applies the filter and writes the result as JSON. Errors go to
the error output, together with the result of the last stage that succeeded, as far as JSON can
show it. The exit code is 2 for a wrong command line and 1 for any other error.
-/

namespace Sluice.CommandLine

/-- Why a command line that is read correctly has no result. -/
inductive RunError
  /-- The input could not be read, for the reason given. -/
  | input (reason : String)
  | json
  | compile (error : Filter.SyntaxError)
  /-- Applying the filter failed. The text shows the result of the last stage that succeeded. -/
  | apply (error : EvalError) (output : Option String)
  /-- The result has no JSON form. -/
  | unprintable (error : ValueError)

/-- The message of a failed run. -/
def RunError.message : RunError → String
  | input reason => reason
  | json => "invalid JSON input: not a JSON document"
  | compile error => "invalid filter: " ++ error.message
  | apply error _ => error.message
  | unprintable error => "cannot print result: " ++ error.message

/-- The result of the last stage that succeeded before a failure. -/
def RunError.partialOutput : RunError → Option String
  | apply _ output => output
  | _ => none

/-- The compact JSON of a value, if there is one. -/
def compactJson? (store : Store) (value : Value) : Option String :=
  match (value.toJson store).run with
  | some (.ok document) => some document.compact
  | _ => none

/-- The options of a filter that flags ask for. -/
def Flags.options (flags : Flags) : Options :=
  { timeout := flags.timeout, lenient := !flags.strict }

/-- The form in which flags ask for the result. -/
def Flags.render (flags : Flags) (document : Json) : String :=
  if flags.compact then document.compact else document.pretty

/-- Applies the filter to the text of a document. There is no outcome only if the filter has
none. -/
def Arguments.applyTo (arguments : Arguments) (text : String) :
    Option (Except RunError String) :=
  match Json.parse? text with
  | none => some (.error .json)
  | some document =>
    match Filter.compile arguments.filter arguments.flags.options with
    | .error error => some (.error (.compile error))
    | .ok filter => do
      let (result, store) ← filter.apply .background (.ofJson document) {}
      match result with
      | .error failure =>
        some (.error (.apply failure.error (failure.output.bind (compactJson? store))))
      | .ok value =>
        match ← (value.toJson store).run with
        | .error error => some (.error (.unprintable error))
        | .ok document => some (.ok (arguments.flags.render document))

/-- What a run of the program leaves behind. -/
structure Outcome where
  code : Nat
  output : String := ""
  errors : String := ""

/-- The outcome of a command line that asks for help or is wrong, or what it asks to be done. -/
def start (arguments : List String) : Except Outcome Arguments :=
  match parseArguments arguments with
  | .error error => .error ⟨2, "", error.message ++ "\n\n" ++ usage ++ "\n"⟩
  | .ok none => .error ⟨0, usage ++ "\n", ""⟩
  | .ok (some arguments) => .ok arguments

/-- The outcome of a run that failed. -/
def RunError.outcome (error : RunError) : Outcome :=
  let lines := error.message ++ "\n" ++ match error.partialOutput with
    | none => ""
    | some text => "partial output (unreliable): " ++ text ++ "\n"
  ⟨1, "", lines⟩

/-- The outcome of doing what a command line asks for, given the text of the input or why it could
not be read. -/
def Arguments.perform (arguments : Arguments) (input : Except String String) : Option Outcome :=
  match input with
  | .error reason => some (RunError.input reason).outcome
  | .ok text =>
    (arguments.applyTo text).map fun
      | .ok result => ⟨0, result ++ "\n", ""⟩
      | .error error => error.outcome

/-- The outcome of a command line, given how to read the input of a name. -/
def execute (arguments : List String) (read : Option String → Except String String) :
    Option Outcome :=
  match start arguments with
  | .error outcome => some outcome
  | .ok arguments => arguments.perform (read arguments.input)

end Sluice.CommandLine
