/-
# The program

Reads a job, runs it and prints the report; events go to the error output.

Key definitions: `main`.
-/
import Lockstep.CommandLine

namespace Lockstep

/-- The text of a file; none if it cannot be read. -/
def readFile? (path : String) : IO (Option String) := do
  try
    return some (← IO.FS.readFile path)
  catch _ => return none

/-- All text of the input; none if it is no text. -/
def readInput? : IO (Option String) := do
  try
    return some (← (← IO.getStdin).readToEnd)
  catch _ => return none

end Lockstep

open Lockstep in
/-- Ends with 2 if the arguments are not understood, with 1 if something else is wrong. -/
def main (args : List String) : IO UInt32 := do
  let outcome ← CommandLine.run readFile? readInput? (some .info) args
  match outcome with
  | .misuse => IO.eprintln "error: the arguments are not understood"
  | .failure message => IO.eprintln ("Error: " ++ message)
  | .finished run =>
    if run.engine.governor.overflowed then IO.eprintln "a number does not fit into 64 bits"
    else
      for event in run.engine.machine.symbolic.journal.take.1 do
        IO.eprintln event.text
      IO.println run.toJson.pretty
  return outcome.code.toUInt32
