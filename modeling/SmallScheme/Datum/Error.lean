import SmallScheme.Token

/-!
# Reading errors

Why a text, or the next part of it, could not be read as a datum, and the words
for it.
-/

namespace SmallScheme

/-- What the reader was looking for. -/
inductive Expectation where
  /-- The first token of a datum, in the place of a close bracket. -/
  | datumStart
  /-- Any datum at all. -/
  | expression
  /-- The bracket that closes a list. -/
  | closeParen
  /-- Nothing more. -/
  | endOfInput
deriving DecidableEq, Repr

/-- The words for an expectation. -/
def Expectation.text : Expectation → String
  | datumStart => "an atom or '('"
  | expression => "an expression"
  | closeParen => "')'"
  | endOfInput => "end of input"

/-- Why nothing could be read. -/
inductive ReadError where
  /-- A lexeme is faulty. -/
  | lexical (e : LexicalError)
  /-- A token stands where it may not. -/
  | unexpectedToken (found : Token) (expected : Expectation)
  /-- The text ends too early. -/
  | unexpectedEnd (expected : Expectation)
  /-- A dot is not before the last element of a list, or it is first. -/
  | misplacedDot (span : Span)
  /-- A quote mark, which only other dialects read. -/
  | quoteMark (span : Span)
deriving DecidableEq, Repr

/-- The words for a reading error. -/
def ReadError.message : ReadError → String
  | lexical e => "Lexer Error during parse: " ++ e.fault.message
  | unexpectedToken found expected =>
    "Parse Error [at " ++ found.span.text ++ "]: Unexpected token '" ++ found.kind.text ++
      "', expected " ++ expected.text
  | unexpectedEnd expected =>
    "Parse Error: Unexpected end of input during parsing. Expected " ++ expected.text
  | misplacedDot span =>
    "Parse Error: Invalid syntax for dotted pair at [" ++ span.text ++ "]"
  | quoteMark span =>
    "Parse Error: Quote shorthand is not supported at [" ++ span.text ++ "], use (quote ...)"

end SmallScheme
