import SmallScheme.Text.Utf8

/-!
# Colours on the input line

While a line is typed, its comments are grey, close brackets that close nothing
are red, and the two brackets of a pair are blue if the cursor stands on or just
behind one of them. A comment is coloured including the line feed that ends it.

The line is written to a `Canvas` in one pass. An open bracket is written plain,
as nothing is known of its pair yet, and the canvas remembers where. If the pair
turns out to be touched by the cursor, the open bracket is painted over.
-/

namespace SmallScheme.Console

open Text

/-- The colour of a character. -/
inductive Colour where
  /-- That of the text itself. -/
  | plain
  /-- That of comments. -/
  | grey
  /-- That of close brackets that close nothing. -/
  | red
  /-- That of the brackets of a touched pair. -/
  | blue
deriving DecidableEq, Repr

/-- A character in its colour, for a terminal. -/
def Colour.paint (colour : Colour) (c : Char) : List Char :=
  match colour with
  | plain => [c]
  | grey => "\x1b[90m".toList ++ c :: "\x1b[0m".toList
  | red => "\x1b[31m".toList ++ c :: "\x1b[0m".toList
  | blue => "\x1b[1;34m".toList ++ c :: "\x1b[0m".toList

theorem ofList_between (before after : String) (c : Char) :
    String.ofList (before.toList ++ c :: after.toList) = before ++ c.toString ++ after := by
  rw [← String.toList_inj]
  simp [Char.toString]

/-- A colour is switched on before the character and off behind it. -/
theorem Colour.ofList_paint (colour : Colour) (c : Char) :
    String.ofList (colour.paint c) =
      match colour with
      | plain => c.toString
      | grey => "\x1b[90m" ++ c.toString ++ "\x1b[0m"
      | red => "\x1b[31m" ++ c.toString ++ "\x1b[0m"
      | blue => "\x1b[1;34m" ++ c.toString ++ "\x1b[0m" := by
  cases colour with
  | plain => rfl
  | grey | red | blue => exact ofList_between ..

/-- Does the cursor, before byte `cursor`, stand on the character at byte `offset`
    or just behind it, if it is a bracket? -/
def touches (cursor offset : Nat) : Bool := offset == cursor || offset + 1 == cursor

theorem touches_iff {cursor offset : Nat} :
    touches cursor offset ↔ offset = cursor ∨ offset + 1 = cursor := by
  rw [touches, Bool.or_eq_true, beq_iff_eq, beq_iff_eq]

/-- A bracket that is open. -/
structure OpenBracket where
  /-- The byte at which it stands in the line. -/
  offset : Nat
  /-- The byte at which it stands in the text of the canvas. -/
  place : Nat
deriving DecidableEq, Repr

/-- What is known of a line when a part of it is coloured. -/
structure Canvas where
  /-- The characters written, those that switch colours among them. -/
  text : List Char
  /-- The brackets that are open, the latest first. -/
  opened : List OpenBracket
  /-- Is a comment open? -/
  inComment : Bool
deriving DecidableEq, Repr

namespace Canvas

/-- Before the first character. -/
def blank : Canvas := ⟨[], [], false⟩

/-- Writes a character. -/
def write (p : Canvas) (colour : Colour) (c : Char) : Canvas :=
  { p with text := p.text ++ colour.paint c }

/-- Writes `c` in colour in place of the one byte at `place`. -/
def paintOver (p : Canvas) (place : Nat) (colour : Colour) (c : Char) : Canvas :=
  { p with text := takeBytes place p.text ++ colour.paint c ++ dropBytes (place + 1) p.text }

/-- Goes on with the character at byte `offset` of the line. -/
def step (cursor : Nat) (p : Canvas) (offset : Nat) (c : Char) : Canvas :=
  if p.inComment || c == ';' then
    { p.write .grey c with inComment := c != '\n' }
  else if c == '(' then
    { p.write .plain c with opened := ⟨offset, utf8Length p.text⟩ :: p.opened }
  else if c == ')' then
    match p.opened with
    | [] => p.write .red c
    | bracket :: outer =>
      let p := { p with opened := outer }
      if touches cursor bracket.offset || touches cursor offset then
        (p.write .blue c).paintOver bracket.place .blue '('
      else p.write .plain c
  else p.write .plain c

/-- Goes on with what is left of a line, every character with its byte. -/
def draw (cursor : Nat) (p : Canvas) : List (Nat × Char) → Canvas
  | [] => p
  | (offset, c) :: cs => draw cursor (p.step cursor offset c) cs

end Canvas

/-- A line in colours, with the cursor before byte `cursor`. -/
def highlight (line : String) (cursor : Nat) : String :=
  String.ofList (Canvas.blank.draw cursor (withOffsets 0 line.toList)).text

end SmallScheme.Console
