import SmallScheme.Text.Whitespace

/-!
# Settings of the prompt

Two variables of the surroundings set up the prompt: the file in which the
history of the input is kept, and the keys with which a line is edited. What is
missing or says nothing known is as by default.
-/

namespace SmallScheme.Console

open Text

/-- The keys with which a line is edited. -/
inductive EditMode where
  /-- Control keys. -/
  | emacs
  /-- Letters, in a mode of their own. -/
  | vi
deriving DecidableEq, Repr

/-- The name of an edit mode. -/
def EditMode.name : EditMode → String
  | emacs => "Emacs"
  | vi => "Vi"

/-- How the prompt is set up. -/
structure Settings where
  /-- The file in which the history is kept. -/
  historyFile : String
  /-- The keys with which a line is edited. -/
  editMode : EditMode
deriving DecidableEq, Repr

/-- The history file where none is set. -/
def defaultHistoryFile : String := "schemelet_history.txt"

/-- The settings made by the values of the two variables. The name of a file is
    taken as it is, unless it is blank; the edit mode may be written in letters
    of either case, with white space round it. -/
def Settings.ofVariables (history editMode : Option String) : Settings where
  historyFile :=
    match history with
    | some path => if (trimChars path.toList).isEmpty then defaultHistoryFile else path
    | none => defaultHistoryFile
  editMode :=
    match editMode with
    | some mode => if (trimChars mode.toList).map Char.toLower = ['v', 'i'] then .vi else .emacs
    | none => .emacs

end SmallScheme.Console
