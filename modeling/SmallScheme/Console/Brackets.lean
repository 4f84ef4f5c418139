/-!
# Is the input complete?

At the prompt, an expression may go over several lines: it is complete as soon
as every open bracket is closed. A bracket that closes nothing can not be mended
by any further line. Brackets in a comment do not count; a comment goes from `;`
to the next line feed.
-/

namespace SmallScheme.Console

/-- What can be said of the brackets of an input. -/
inductive Verdict where
  /-- All are closed. -/
  | complete
  /-- Some are still open. -/
  | incomplete
  /-- The close bracket at byte `offset` closes nothing. -/
  | unmatched (offset : Nat)
deriving DecidableEq, Repr

namespace Verdict

/-- The verdict on an input of which `depth` brackets are open, and a comment
    is if `inComment`, when what is left of it begins at byte `offset`. -/
def judgeFrom (offset depth : Nat) (inComment : Bool) : List Char → Verdict
  | [] => if depth = 0 then complete else incomplete
  | c :: cs =>
    let next := offset + c.utf8Size
    if inComment then judgeFrom next depth (c != '\n') cs
    else if c == ';' then judgeFrom next depth true cs
    else if c == '(' then judgeFrom next (depth + 1) false cs
    else if c == ')' then
      match depth with
      | 0 => unmatched offset
      | depth + 1 => judgeFrom next depth false cs
    else judgeFrom next depth false cs

/-- The verdict on an input. -/
def judge (input : List Char) : Verdict := judgeFrom 0 0 false input

end Verdict

/-- The words about a bracket that closes nothing. -/
def unmatchedMessage (offset : Nat) : String :=
  "  - Unmatched ')' at position " ++ offset.repr

end SmallScheme.Console
