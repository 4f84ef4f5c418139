import SmallScheme.Interpreter

/-!
# The command line

The arguments are expressions, answered in order on one interpreter. Each result
is a line on the standard output. The first error is a line on the error output,
and nothing after it is evaluated.
-/

namespace SmallScheme.CommandLine

/-- What a run of the program comes to. -/
structure Result where
  /-- The standard output. -/
  stdout : String
  /-- The error output. -/
  stderr : String
  /-- The exit code, zero if there was no error. -/
  code : Nat
deriving DecidableEq, Repr

/-- How the program is used. -/
def usage : String :=
  "Usage: schemelet <expression>...\nRun the `repl` binary for an interactive session.\n"

/-- Answers expressions up to the first error; nothing if one of them has no
    answer within `n` levels of evaluation. -/
def answer (i : Interpreter) (n : Nat) (s : Store) : List String → Option Result
  | [] => some ⟨"", "", 0⟩
  | text :: texts =>
    match (i.run n text).run s with
    | .value output s =>
      (answer i n s texts).map fun r => { r with stdout := output ++ "\n" ++ r.stdout }
    | .error e _ => some ⟨"", e.line ++ "\n", 1⟩
    | .unfinished => none

/-- The run with the given arguments. -/
def run (n : Nat) (args : List String) : Option Result :=
  if args.isEmpty then some ⟨"", usage, 1⟩
  else
    let (i, s) := Interpreter.new .empty
    answer i n s args

end SmallScheme.CommandLine
