import SmallScheme.CommandLine

/-!
# The program

Evaluates the arguments on the command line and writes what they come to.
-/

namespace SmallScheme

/-- The levels of evaluation allowed, more than any machine has room for. -/
def evaluationLevels : Nat := 1 <<< 40

end SmallScheme

/-- Runs the arguments. -/
def main (args : List String) : IO UInt32 := do
  match SmallScheme.CommandLine.run SmallScheme.evaluationLevels args with
  | some result =>
    (← IO.getStdout).putStr result.stdout
    (← IO.getStderr).putStr result.stderr
    return result.code.toUInt32
  | none =>
    (← IO.getStderr).putStr "The evaluation does not end.\n"
    return 1
