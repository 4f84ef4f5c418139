/-!
# Lines and columns

A report names the place of an error by line and column, both counted from
one. A line ends after a line feed, a carriage return, the two together, or
one of the other characters at which Unicode breaks a line.

A terminator with nothing after it starts no new line: the end of the text is
then still on the line which that terminator ends.
-/

namespace SmallScheme.Text

/-- A place in a text. -/
structure Position where
  /-- The line, the first being 1. -/
  line : Nat
  /-- The character in the line, the first being 1. -/
  column : Nat
deriving DecidableEq, Repr

/-- A character that ends a line: line feed, vertical tab, form feed, carriage
    return, next line, line separator, paragraph separator. -/
def isLineTerminator (c : Char) : Bool :=
  let n := c.toNat
  (0x0A ≤ n && n ≤ 0x0D) || n == 0x85 || n == 0x2028 || n == 0x2029

/-- Does a new line begin between `c` and the text `rest` after it? Not within a
    carriage return and line feed, and not at the end of the text. -/
def breaksLine (c : Char) (rest : List Char) : Bool :=
  isLineTerminator c && !rest.isEmpty && !(c == '\r' && rest.head? == some '\n')

namespace Position

/-- Where a text begins. -/
def first : Position := ⟨1, 1⟩

/-- The place `n` characters on from `p`, at which `cs` begins. -/
def advance (p : Position) : List Char → Nat → Position
  | _, 0 => p
  | [], _ + 1 => p
  | c :: rest, n + 1 =>
    (if breaksLine c rest then ⟨p.line + 1, 1⟩ else ⟨p.line, p.column + 1⟩ : Position).advance
      rest n

/-- The place of the character with `n` characters before it. -/
def ofOffset (cs : List Char) (n : Nat) : Position := first.advance cs n

/-- The written form: line, colon, column. -/
def text (p : Position) : String := p.line.repr ++ ":" ++ p.column.repr

end Position

end SmallScheme.Text
