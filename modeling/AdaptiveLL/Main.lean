import AdaptiveLL.Cli

/-!
# The program

Reads the files that the arguments name and shows what a run of the command line gives.
-/

set_option autoImplicit false

namespace AdaptiveLL.Cli

/-- Bounds the work of a run. No text that fits in memory needs more. -/
def fuel : Nat := Nat.pow 2 62

/-- The text of a file that can be read. -/
def readText? (name : String) : IO (Option String) := do
  try
    return some (← IO.FS.readFile name)
  catch _ =>
    return none

/-- Runs the command line and gives the exit code. -/
def start (args : List String) : IO UInt32 := do
  let files ← args.mapM fun name => return (name, ← readText? name)
  let lookup (name : String) : Option String := (files.find? (·.1 == name)).bind (·.2)
  match run fuel lookup "sample_parser" args with
  | none => return 101
  | some outcome =>
    IO.print outcome.out
    IO.eprint outcome.err
    return outcome.exit.toUInt32

end AdaptiveLL.Cli

/-- The entry point. -/
def main (args : List String) : IO UInt32 := AdaptiveLL.Cli.start args
