import SmallScheme.Fixnum
import SmallScheme.Span

/-!
# Tokens

The smallest pieces of a text that mean something: brackets, the quote mark,
the dot, integers and symbols, each with its span. What is in a text and is
none of these is a `LexicalFault`.
-/

namespace SmallScheme

/-- What a token is. -/
inductive TokenKind where
  /-- The bracket `(`. -/
  | openParen
  /-- The bracket `)`. -/
  | closeParen
  /-- The quote mark. -/
  | quote
  /-- The dot. -/
  | dot
  /-- An integer. -/
  | integer (n : Fixnum)
  /-- A symbol, by its name. -/
  | symbol (name : String)
deriving DecidableEq, Repr

/-- The printed form of a token. An integer is printed anew, so a plus sign and
    leading zeros are gone. -/
def TokenKind.text : TokenKind → String
  | openParen => "("
  | closeParen => ")"
  | quote => "'"
  | dot => "."
  | integer n => n.text
  | symbol name => name

/-- A token at its place. -/
structure Token where
  /-- What it is. -/
  kind : TokenKind
  /-- The stretch of text that it was read from. -/
  span : Span
deriving DecidableEq, Repr

/-- Why a stretch of text is no token. -/
inductive LexicalFault where
  /-- An integer, written as in `digits`, that is no fixnum. -/
  | integerTooLarge (digits : String)
  /-- A character that may not stand where it does. -/
  | strayCharacter (c : Char)
deriving DecidableEq, Repr

/-- The words for a fault. -/
def LexicalFault.message : LexicalFault → String
  | integerTooLarge digits => "Invalid number format: '" ++ digits ++ "'"
  | strayCharacter c => "Invalid character encountered: '" ++ c.toString ++ "'"

/-- A fault at its place. -/
structure LexicalError where
  /-- What is wrong. -/
  fault : LexicalFault
  /-- The stretch of text that should have been a token. -/
  span : Span
deriving DecidableEq, Repr

/-- A stretch of text taken for one token: either it is one, or it is faulty. -/
inductive Lexeme where
  /-- A proper token. -/
  | token (t : Token)
  /-- A stretch that is no token. -/
  | fault (e : LexicalError)
deriving DecidableEq, Repr

end SmallScheme
