import Forth.CommandLine
import Forth.Random

/-!
# The executable

Reads the script and the standard input, and writes what the program writes.
-/

namespace Forth

/-- A bound on the steps of a call that no program reaches in practice. -/
def stepLimit : Nat := 4611686018427387904

/-- Reads a file. -/
def readFile (file : String) : IO (Except CommandLine.ReadFailure String) := do
  try
    return CommandLine.decodeText (← IO.FS.readBinFile file)
  catch
    | .inappropriateType _ code _ =>
      return .error (if code = 21 then .isDirectory else .notDirectory)
    | .permissionDenied .. => return .error .denied
    | _ => return .error .notFound

end Forth

def main (args : List String) : IO UInt32 := do
  let script ←
    match Forth.CommandLine.scriptName? args with
    | none => pure (.error .notFound)
    | some file => Forth.readFile file
  let stdin ← if Forth.CommandLine.takesInput args then (← IO.getStdin).readToEnd else pure ""
  let random := Forth.randomWords (← IO.monoNanosNow).toUInt64
  match Forth.CommandLine.run Forth.stepLimit random args (fun _ => script) stdin with
  | none => return 3
  | some outcome =>
    IO.print outcome.stdout
    IO.eprint outcome.stderr
    return outcome.code
