import Interleave.CommandLine.Output

/-!
# The program

Reads the file that a command names and prints what the command says about it.
-/

namespace Interleave.CommandLine

/-- The cause of a failure to read a file. -/
def ReadError.ofError : IO.Error → ReadError
  | .noFileOrDirectory .. => .missing
  | .inappropriateType .. => .isDirectory
  | .permissionDenied .. => .denied
  | e => .other (toString e)

/-- The contents of the file at a path. -/
def readContents (path : String) : IO Contents := do
  try
    return .ok (← IO.FS.readFile path)
  catch e =>
    return .error (.ofError e)

/-- Print what is to be printed, errors apart, and return the exit code. -/
def emit (p : Printed) : IO UInt32 := do
  IO.print p.output
  if let some e := p.error then
    IO.eprintln ("Error: " ++ e.message)
  return p.code

end Interleave.CommandLine

open Interleave.CommandLine in
/-- Answer the arguments of the program. -/
def main (arguments : List String) : IO UInt32 := do
  match answer (readRequest arguments) with
  | .inl p => emit p
  | .inr command => emit (command.print (← readContents command.path))
