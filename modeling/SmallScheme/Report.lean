import SmallScheme.Interpreter
import SmallScheme.Text.Position
import SmallScheme.Text.Utf8

/-!
# Reports

A report tells a user at length what is wrong with a text: a title, the place
of the error, and a label under the text there. A reading error marks the
lexeme at fault, an evaluation error the whole text, since values do not know
where they came from.

The marks are made from bytes of the text, but are laid over its characters: the
number of a byte is taken for the number of a character. The two agree as long
as all characters take one byte. Beyond that a mark may lie too far to the
right, and one that leaves the text altogether is not shown.
-/

namespace SmallScheme

open Text

/-- A report, as far as it can be shown. -/
structure Report where
  /-- What is wrong. -/
  title : String
  /-- Where it is. -/
  place : Option Position
  /-- What to say there. -/
  label : Option String
deriving DecidableEq, Repr

/-- The written form of the place, in which the text goes by the name `REPL`. -/
def Report.placeText (r : Report) : Option String := r.place.map fun p => "REPL:" ++ p.text

/-- A stretch of a text and what to say about it. -/
structure Mark where
  /-- The stretch. -/
  span : Span
  /-- What to say. -/
  label : String
deriving DecidableEq, Repr

/-- The bytes of a text. -/
def wholeSpan (text : String) : Span := ⟨0, utf8Length text.toList⟩

/-- The end of a text. -/
def endSpan (text : String) : Span := ⟨utf8Length text.toList, utf8Length text.toList⟩

/-- The title of a reading error in a text, and its mark. -/
def ReadError.headline (text : String) : ReadError → String × Mark
  | lexical e => ("Lexer Error", ⟨e.span, e.fault.message⟩)
  | unexpectedToken found expected =>
    ("Unexpected token: " ++ found.kind.text, ⟨found.span, "Expected " ++ expected.text⟩)
  | unexpectedEnd expected => ("Unexpected EOF", ⟨endSpan text, "Expected " ++ expected.text⟩)
  | misplacedDot span =>
    ("Invalid Dot Syntax", ⟨span, "A dot may only precede the last element of a list"⟩)
  | quoteMark span => ("Quote shorthand is not supported", ⟨span, "Write (quote ...) instead"⟩)

/-- The sort of an evaluation error, and what to say about the text. -/
def EvalError.headline : EvalError → String × String
  | unbound _ => ("Unbound symbol", "This symbol is not defined in the current scope")
  | malformed _ => ("Invalid special form", "This special form is malformed or incomplete")
  | notCallable _ => ("No such function", "This operator cannot be called")
  | typeMismatch .. => ("Type mismatch", "An argument has the wrong type")
  | _ => ("Evaluation failed", "While evaluating this expression")

/-- The title of an error in a text, and its mark. -/
def RunError.headline (text : String) : RunError → String × Option Mark
  | reading e =>
    let (title, mark) := e.headline text
    (title, some mark)
  | evaluation e =>
    let (sort, label) := e.headline
    (sort ++ ": " ++ e.message, some ⟨wholeSpan text, label⟩)
  | nothingEntered => ("Nothing was entered", none)

namespace Mark

/-- Can the mark be laid over `n` characters? Its start may be at their end, and
    its last character one beyond. -/
def fits (m : Mark) (n : Nat) : Bool :=
  m.span.start ≤ n && (m.span.stop ≤ m.span.start || m.span.stop - 1 ≤ n)

/-- Where the mark lies in a text, if it fits. -/
def place (m : Mark) (cs : List Char) : Option Position :=
  if m.fits cs.length then some (Position.ofOffset cs m.span.start) else none

/-- What the mark shows under a text: what there is to say, if the mark fits and
    ends within the text. -/
def shown (m : Mark) (cs : List Char) : Option String :=
  if m.fits cs.length && m.span.stop ≤ cs.length then some m.label else none

end Mark

/-- The report on an error in a text. -/
def RunError.report (e : RunError) (text : String) : Report :=
  let (title, mark) := e.headline text
  ⟨title, mark.bind fun m => m.place text.toList, mark.bind fun m => m.shown text.toList⟩

end SmallScheme
