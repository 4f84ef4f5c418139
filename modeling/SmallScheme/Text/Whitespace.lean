/-!
# White space

The white space of a line typed at the prompt or of a setting is that of
Unicode: the 25 characters with the property `White_Space`. It is wider than
what separates tokens (see `SmallScheme.Token.Lexer`), which is ASCII only.
-/

namespace SmallScheme.Text

/-- A character with the property `White_Space`. -/
def isWhitespace (c : Char) : Bool :=
  let n := c.toNat
  (0x09 ≤ n && n ≤ 0x0D) || n == 0x20 || n == 0x85 || n == 0xA0 || n == 0x1680 ||
    (0x2000 ≤ n && n ≤ 0x200A) || n == 0x2028 || n == 0x2029 || n == 0x202F ||
    n == 0x205F || n == 0x3000

/-- The characters left when white space is taken off both ends. -/
def trimChars (cs : List Char) : List Char :=
  ((cs.dropWhile isWhitespace).reverse.dropWhile isWhitespace).reverse

/-- The text left when white space is taken off both ends. -/
def trim (s : String) : String := String.ofList (trimChars s.toList)

end SmallScheme.Text
