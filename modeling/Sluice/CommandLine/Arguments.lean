import Sluice.Decimal.Reading

/-!
# Command-line arguments

Arguments are read from left to right. The first that asks for help, or is wrong as an option or as
the value of one, decides; only then are the positional arguments counted, which are the filter and
the name of the input.
-/

namespace Sluice.CommandLine

/-- The help text. -/
def usage : String :=
"usage: sift [options] <filter> [file]

Reads JSON from <file> or stdin, applies <filter> and prints the result.
When a later pipeline stage fails, the output of the last completed stage
is printed to stderr after the error, marked unreliable.

options:
  --compact         print the result on one line
  --strict          type errors instead of nulls for unsupported inputs
  --timeout-ms <n>  abort evaluation after <n> milliseconds
  --verbose         log compilation and evaluation steps to stderr
  -h, --help        show this message"

/-- The flags of a command line. -/
structure Flags where
  compact : Bool := false
  strict : Bool := false
  verbose : Bool := false
  /-- The time for the evaluation in milliseconds. -/
  timeout : Option Nat := none
  deriving DecidableEq

/-- What a command line asks to be done. -/
structure Arguments where
  filter : String
  /-- The file to read instead of the standard input. -/
  input : Option String := none
  flags : Flags := {}
  deriving DecidableEq

/-- Why a command line is refused. -/
inductive UsageError
  | missingFilter
  | missingTimeout
  | invalidTimeout (text : String)
  | unknownOption (text : String)
  | unexpectedArgument (text : String)
  deriving DecidableEq

/-- The message of a usage error. -/
def UsageError.message : UsageError → String
  | missingFilter => "first argument must be a filter"
  | missingTimeout => "--timeout-ms needs a value"
  | invalidTimeout text => "invalid --timeout-ms value: " ++ text
  | unknownOption text => "unknown option: " ++ text
  | unexpectedArgument text => "unexpected argument: " ++ text

/-- The flags and the positional arguments of a command line, or nothing if it asks for help. -/
def scan : List String → Flags → List String → Except UsageError (Option (Flags × List String))
  | [], flags, positional => .ok (some (flags, positional.reverse))
  | argument :: rest, flags, positional =>
    if argument = "-h" || argument = "--help" then .ok none
    else if argument = "--compact" then scan rest { flags with compact := true } positional
    else if argument = "--strict" then scan rest { flags with strict := true } positional
    else if argument = "--verbose" then scan rest { flags with verbose := true } positional
    else if argument = "--timeout-ms" then
      match rest with
      | [] => .error .missingTimeout
      | value :: rest =>
        match Decimal.uint64? value.toList with
        | none => .error (.invalidTimeout value)
        | some n => scan rest { flags with timeout := some n } positional
    else if ['-', '-'].isPrefixOf argument.toList then .error (.unknownOption argument)
    else scan rest flags (argument :: positional)

/-- Reads a command line, program name excluded. Nothing means that help is asked for. -/
def parseArguments (arguments : List String) : Except UsageError (Option Arguments) :=
  match scan arguments {} [] with
  | .error error => .error error
  | .ok none => .ok none
  | .ok (some (flags, positional)) =>
    match positional with
    | [] => .error .missingFilter
    | [filter] => .ok (some ⟨filter, none, flags⟩)
    | [filter, input] => .ok (some ⟨filter, some input, flags⟩)
    | _ :: _ :: extra :: _ => .error (.unexpectedArgument extra)

end Sluice.CommandLine
