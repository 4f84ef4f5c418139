import SmallScheme.Token.Lexer

/-!
# Token streams

A stream hands out the lexemes of a text with one token of lookahead: the
*current* token can be looked at as often as needed, until the stream is
advanced past it.

A faulty lexeme makes an advance fail. The stream has then passed the fault
but keeps its current token, and the next advance goes on with the lexeme after
the fault.
-/

namespace SmallScheme

/-- What is still to be read of a text. -/
structure TokenStream where
  /-- The token looked at, if the end is not reached. -/
  current : Option Token
  /-- The lexemes after it. -/
  rest : List Lexeme
deriving DecidableEq, Repr

namespace TokenStream

/-- The stream moved on by one lexeme, and the error met, if that lexeme is
    faulty. -/
def advance : TokenStream → Option LexicalError × TokenStream
  | ⟨_, []⟩ => (none, ⟨none, []⟩)
  | ⟨_, .token t :: rest⟩ => (none, ⟨some t, rest⟩)
  | ⟨current, .fault e :: rest⟩ => (some e, ⟨current, rest⟩)

/-- The stream at the first token of a text, unless the first lexeme is
    faulty. -/
def ofText (text : String) : Except LexicalError TokenStream :=
  match advance ⟨none, lexemes text⟩ with
  | (none, stream) => .ok stream
  | (some e, _) => .error e

/-- Is there no token left? -/
def isEnd (s : TokenStream) : Bool := s.current.isNone

end TokenStream

end SmallScheme
