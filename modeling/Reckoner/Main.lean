import Reckoner.CommandLine

/-!
# The program

Reads the arguments and, if they hold no expression, standard input; prints the output.
-/

set_option autoImplicit false

namespace Reckoner

/-- Reads a stream to its end. -/
partial def readAll (stream : IO.FS.Stream) (seen : ByteArray) : IO ByteArray := do
  let more ← stream.read 65536
  if more.isEmpty then return seen else readAll stream (seen ++ more)

end Reckoner

open Reckoner Reckoner.CommandLine in
/-- Evaluates the expressions that the arguments or standard input give. -/
def main (arguments : List String) : IO UInt32 := do
  let invocation := invocation arguments
  let input ← match invocation with
    | .run { expressions := [], .. } => readAll (← IO.getStdin) .empty
    | _ => pure .empty
  let output := invocation.execute .x64 input.toList
  (← IO.getStdout).putStr output.text
  return output.exitCode.toUInt32
