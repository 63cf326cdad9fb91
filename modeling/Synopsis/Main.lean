/-
Synopsis.Main — the program as a process.
-/
import Synopsis.Console

/-- Runs the program on the arguments of the process. -/
def main (arguments : List String) : IO UInt32 := do
  let argv := arguments.map String.toList
  let outcome := Synopsis.Console.run argv
  IO.print (String.ofList outcome.output)
  IO.eprint (String.ofList (Synopsis.Console.errorText argv outcome))
  return outcome.status.toNat.toUInt32
