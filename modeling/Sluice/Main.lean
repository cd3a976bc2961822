import Sluice.CommandLine.Run

/-!
# The command-line program

Reads the input that the command line names and writes what the run leaves behind. All decisions
are made in `Sluice.CommandLine`.
-/

namespace Sluice.Main

/-- Why a file could not be read. -/
def reason : IO.Error → String
  | .noFileOrDirectory .. => "No such file or directory (os error 2)"
  | .permissionDenied .. => "Permission denied (os error 13)"
  | .inappropriateType .. => "Is a directory (os error 21)"
  | error => toString error

/-- The text of bytes that are valid UTF-8. -/
def decode (bytes : ByteArray) : Except String String :=
  match String.fromUTF8? bytes with
  | some text => .ok text
  | none => .error "stream did not contain valid UTF-8"

/-- Reads a file, or the standard input. -/
def readInput (name : Option String) : IO (Except String String) := do
  try
    match name with
    | some name => return decode (← IO.FS.readBinFile name)
    | none => return decode (← (← IO.getStdin).readBinToEnd)
  catch error => return .error (reason error)

end Sluice.Main

/-- Runs the program and gives its exit code. -/
def main (arguments : List String) : IO UInt32 := do
  let outcome ← match Sluice.CommandLine.start arguments with
    | .error outcome => pure (some outcome)
    | .ok arguments => do
      let input ← Sluice.Main.readInput arguments.input
      pure (arguments.perform input)
  match outcome with
  | none =>
    (← IO.getStderr).putStrLn "the evaluation has no end"
    return 134
  | some outcome =>
    (← IO.getStdout).putStr outcome.output
    (← IO.getStderr).putStr outcome.errors
    return outcome.code.toUInt32
