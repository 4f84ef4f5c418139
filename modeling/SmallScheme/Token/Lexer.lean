import SmallScheme.Text.Utf8
import SmallScheme.Token

/-!
# Lexemes of a text

A text is cut from left to right. Blanks (space, tab, carriage return, line
feed) and comments, from `;` to the end of the line, are passed over. Every
other character starts a lexeme, which extends as far as the character says:

* `(`, `)`, the quote mark and `.` stand alone;
* a digit, or a sign, is followed by all the digits that come next; a sign
  without digits is the symbol of that name;
* a letter or one of `< = > * / #` is followed by everything up to the next
  delimiter. Only some characters may continue a symbol; swallowing the others
  as well means that one of them is reported where it stands, instead of
  splitting the symbol in two;
* any other character is a lexeme on its own, and a faulty one.

`lexemes` lists all of them, faulty or not, so that reading can go on after a
fault; `tokenize` insists that there is none.
-/

namespace SmallScheme

open Text

/-- A blank separates tokens. -/
def isBlank (c : Char) : Bool := c == ' ' || c == '\t' || c == '\n' || c == '\r'

/-- The end of a line, which ends a comment. -/
def endsComment (c : Char) : Bool := c == '\n' || c == '\r'

/-- A plus or minus sign. -/
def isSign (c : Char) : Bool := c == '+' || c == '-'

/-- A character at which a symbol ends, wherever it stands. -/
def isDelimiter (c : Char) : Bool :=
  isBlank c || c == '(' || c == ')' || c == '\x27' || c == ';'

/-- A character that starts a symbol of any length. -/
def isSymbolStart (c : Char) : Bool :=
  c.isAlpha || ['<', '=', '>', '*', '/', '#'].contains c

/-- A character that may continue a symbol. -/
def isSymbolContinue (c : Char) : Bool :=
  c.isAlphanum || ['<', '=', '>', '*', '/', '#', '?', '!', '-'].contains c

/-- The characters of `rest` that belong to the lexeme started by `c`. -/
def lexemeTail (c : Char) (rest : List Char) : List Char :=
  if c.isDigit || isSign c then rest.takeWhile Char.isDigit
  else if isSymbolStart c then rest.takeWhile fun d => !isDelimiter d
  else []

/-- The integer that `digits` write, read with the sign `c` in front of them; a
    first digit in the place of the sign is a digit like the others. -/
def integerOf (c : Char) (digits : List Char) : Int :=
  if c == '-' then -(Nat.ofDigitChars 10 digits 0 : Int)
  else if c == '+' then Nat.ofDigitChars 10 digits 0
  else Nat.ofDigitChars 10 (c :: digits) 0

/-- The token written by the lexeme that starts with `c` and goes on with
    `tail`. -/
def TokenKind.ofLexeme (c : Char) (tail : List Char) : Except LexicalFault TokenKind :=
  if c == '(' then .ok .openParen
  else if c == ')' then .ok .closeParen
  else if c == '\x27' then .ok .quote
  else if c == '.' then .ok .dot
  -- A sign without digits is not yet an integer.
  else if isSign c && tail.isEmpty then .ok (.symbol c.toString)
  else if c.isDigit || isSign c then
    match Fixnum.ofInt? (integerOf c tail) with
    | some n => .ok (.integer n)
    | none => .error (.integerTooLarge (String.ofList (c :: tail)))
  else if isSymbolStart c then
    -- Everything up to the delimiter was taken in, allowed or not.
    match tail.find? fun d => !isSymbolContinue d with
    | some bad => .error (.strayCharacter bad)
    | none => .ok (.symbol (String.ofList (c :: tail)))
  else .error (.strayCharacter c)

/-- The lexeme that starts with `c`, goes on with `tail` and begins at byte
    `offset`. -/
def Lexeme.ofChars (offset : Nat) (c : Char) (tail : List Char) : Lexeme :=
  let span := ⟨offset, offset + utf8Length (c :: tail)⟩
  match TokenKind.ofLexeme c tail with
  | .ok kind => .token ⟨kind, span⟩
  | .error cause => .fault ⟨cause, span⟩

/-- The lexemes of a stretch of text that begins at byte `offset`. -/
def lexemesFrom (offset : Nat) : List Char → List Lexeme
  | [] => []
  | c :: rest =>
    if isBlank c then lexemesFrom (offset + c.utf8Size) rest
    else if c == ';' then
      let comment := rest.takeWhile fun d => !endsComment d
      lexemesFrom (offset + utf8Length (c :: comment)) (rest.drop comment.length)
    else
      let tail := lexemeTail c rest
      Lexeme.ofChars offset c tail ::
        lexemesFrom (offset + utf8Length (c :: tail)) (rest.drop tail.length)
termination_by cs => cs.length
decreasing_by all_goals simp only [List.length_cons, List.length_drop]; omega

/-- All lexemes of a text, in order. -/
def lexemes (text : String) : List Lexeme := lexemesFrom 0 text.toList

/-- The token that a lexeme is, or the error that it is instead. -/
def Lexeme.result : Lexeme → Except LexicalError Token
  | token t => .ok t
  | fault e => .error e

/-- The tokens of a text, or its first lexical error. -/
def tokenize (text : String) : Except LexicalError (List Token) :=
  (lexemes text).mapM Lexeme.result

end SmallScheme
