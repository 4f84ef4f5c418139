import SmallScheme.Console.Entry
import SmallScheme.Interpreter
import SmallScheme.Text.Whitespace

/-!
# Sessions at the prompt

A session reads entry after entry and answers each on one interpreter, results
on the standard output and errors on the error output. White space round an
entry is taken off; what is then empty is passed over, and `exit` ends the
session, as does the end of the input, which is answered with a farewell.

The input is known in full beforehand, so a session is a function of it: what
it writes, and the code it exits with, is its `Transcript`. The reports drawn for
errors are not part of it (see `SmallScheme.Report`), and neither is what is said
when reading is aborted, apart from its starting a new line.
-/

namespace SmallScheme.Console

open Text

/-- What has been written to the two outputs, and how the session ended. -/
structure Transcript where
  /-- The standard output. -/
  stdout : String
  /-- The error output. -/
  stderr : String
  /-- The exit code, zero unless reading was aborted. -/
  code : Nat
deriving DecidableEq, Repr

/-- The transcript `t` with something written before it. -/
def Transcript.after (stdout stderr : String) (t : Transcript) : Transcript :=
  ⟨stdout ++ t.stdout, stderr ++ t.stderr, t.code⟩

/-- What the prompt says first. -/
def banner : String :=
  "Schemelet REPL v0.1.0\nType 'exit' or press Ctrl-D to quit.\n"

/-- What the prompt says if there is no history to go on from. -/
def noHistory : String := "No previous history.\n"

/-- What the prompt says at the end of the input. -/
def farewell : String := "\nExiting.\n"

/-- The exit code when reading is aborted. -/
def abortCode : Nat := 101

/-- Is it the word that ends a session, in letters of either case? -/
def isExit (entry : List Char) : Bool := entry.map Char.toLower == ['e', 'x', 'i', 't']

/-- Answers what happens at the input; nothing if an entry has no answer within
    `n` levels of evaluation. -/
def answer (i : Interpreter) (n : Nat) (s : Store) : List InputEvent → Option Transcript
  | [] => some ⟨farewell, "", 0⟩
  | .unmatched offset :: events =>
    (answer i n s events).map fun t => t.after "" (unmatchedMessage offset)
  | .aborted :: _ => some ⟨"", "\n", abortCode⟩
  | .entry text :: events =>
    let entry := trimChars text
    if entry.isEmpty then answer i n s events
    else if isExit entry then some ⟨"", "", 0⟩
    else
      match (i.run n (String.ofList entry)).run s with
      | .value output s => (answer i n s events).map fun t => t.after (output ++ "\n") ""
      | .error e s => (answer i n s events).map fun t => t.after "" (e.line ++ "\n")
      | .unfinished => none

/-- The session with the given input. -/
def session (n : Nat) (hasHistory : Bool) (input : String) : Option Transcript :=
  let (i, s) := Interpreter.new .empty
  (answer i n s (inputEvents input)).map fun t =>
    t.after (if hasHistory then banner else banner ++ noHistory) ""

end SmallScheme.Console
