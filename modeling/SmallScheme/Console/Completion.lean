import SmallScheme.Eval.Operator
import SmallScheme.Store.Scope
import SmallScheme.Text.Utf8
import SmallScheme.Text.Whitespace

/-!
# Completing names

The word before the cursor goes back to the last white space, bracket or quote
mark. It can be completed to any name that starts with it and means something:
the operators, and what is bound in the scope. Without a word there is nothing
to complete.
-/

namespace SmallScheme.Console

open Text

/-- A character that no word goes across. -/
def endsWord (c : Char) : Bool :=
  isWhitespace c || c == '(' || c == ')' || c == '\x27'

/-- What a word can be completed to. -/
structure Completion where
  /-- The byte at which the word begins. -/
  start : Nat
  /-- The names that it can become, in order of their characters. -/
  candidates : List String
deriving DecidableEq, Repr

/-- The word that ends where `before` ends. -/
def lastWord (before : List Char) : List Char :=
  (before.reverse.takeWhile fun c => !endsWord c).reverse

/-- Puts a name into a list of names in order, unless it is there already. -/
def insertName (name : String) : List String → List String
  | [] => [name]
  | other :: rest =>
    if name < other then name :: other :: rest
    else if name = other then other :: rest
    else other :: insertName name rest

/-- The names in order, each once. -/
def sortedNames (names : List String) : List String := names.foldr insertName []

/-- Completes the word that ends before byte `cursor` of a line, to one of
    `names`. -/
def completeAmong (names : List String) (line : String) (cursor : Nat) : Completion :=
  let word := lastWord (takeBytes cursor line.toList)
  if word.isEmpty then ⟨cursor, []⟩
  else
    ⟨cursor - utf8Length word, sortedNames (names.filter fun name => word.isPrefixOf name.toList)⟩

/-- Completes the word that ends before byte `cursor` of a line, in a scope. -/
def complete (s : Store) (scope : FrameRef) (line : String) (cursor : Nat) : Completion :=
  completeAmong (s.identifiers scope ++ Operator.all.map Operator.name) line cursor

end SmallScheme.Console
