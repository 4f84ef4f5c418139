import SmallScheme.Datum
import SmallScheme.Token.Stream

/-!
# Reading data

The reader goes through a token stream once, keeping the lists that are open as
a stack, innermost first. Each token either opens a list, or completes an item:
an integer, a symbol or a dot on its own, a close bracket the whole innermost
list. A completed item goes into the list that is now innermost; when none is
open, it is the datum read.

A token is taken in only once the lexeme after it has been looked at. If that
lexeme is faulty, reading fails there, and the token stays current for the next
attempt; the lists open until then are forgotten.
-/

namespace SmallScheme

/-- A list whose close bracket has not been seen yet. -/
structure OpenList where
  /-- The span of the open bracket. -/
  bracket : Span
  /-- The items so far with their spans, the latest first. -/
  items : List (Datum × Span)

/-- What a token leads to. -/
inductive ReaderStep where
  /-- Reading goes on, with these lists open. -/
  | more (stack : List OpenList)
  /-- A datum is complete. -/
  | done (datum : Datum)
  /-- The token may not stand here. -/
  | failed (e : ReadError)

namespace ReaderStep

/-- A complete item goes into the innermost open list. -/
def deliver (datum : Datum) (span : Span) : List OpenList → ReaderStep
  | [] => done datum
  | inner :: outer => more ({ inner with items := (datum, span) :: inner.items } :: outer)

/-- The token `t` with the lists in `stack` open. -/
def ofToken (stack : List OpenList) (t : Token) : ReaderStep :=
  match t.kind with
  | .integer n => deliver (.integer n) t.span stack
  | .symbol name => deliver (.symbol name) t.span stack
  | .dot => deliver Datum.dot t.span stack
  | .quote => failed (.quoteMark t.span)
  | .openParen => more (⟨t.span, []⟩ :: stack)
  | .closeParen =>
    match stack with
    | [] => failed (.unexpectedToken t .datumStart)
    | inner :: outer =>
      match Datum.ofItems inner.items.reverse 0 with
      | .ok datum => deliver datum (inner.bracket.merge t.span) outer
      | .error e => failed e

end ReaderStep

/-- What the reader misses when the text ends with the lists in `stack` open. -/
def missingAtEnd : List OpenList → Expectation
  | [] => .expression
  | _ :: _ => .closeParen

namespace TokenStream

/-- Reads on with the lists in `stack` open, the current token `t`, and the
    lexemes after it. The stream returned is where the next reading starts. -/
def readFrom (stack : List OpenList) (t : Token) :
    List Lexeme → Except ReadError Datum × TokenStream
  | [] =>
    match ReaderStep.ofToken stack t with
    | .more stack => (.error (.unexpectedEnd (missingAtEnd stack)), ⟨none, []⟩)
    | .done datum => (.ok datum, ⟨none, []⟩)
    | .failed e => (.error e, ⟨none, []⟩)
  -- The fault comes before anything that may be wrong with `t` itself.
  | .fault e :: rest => (.error (.lexical e), ⟨some t, rest⟩)
  | .token next :: rest =>
    match ReaderStep.ofToken stack t with
    | .more stack => readFrom stack next rest
    | .done datum => (.ok datum, ⟨some next, rest⟩)
    | .failed e => (.error e, ⟨some next, rest⟩)

/-- Reads one datum. -/
def read (s : TokenStream) : Except ReadError Datum × TokenStream :=
  match s.current with
  | none => (.error (.unexpectedEnd (missingAtEnd [])), s)
  | some t => readFrom [] t s.rest

/-- Reads one datum and insists that the text ends after it. -/
def readOnly (s : TokenStream) : Except ReadError Datum :=
  match s.read with
  | (.error e, _) => .error e
  | (.ok datum, s) =>
    match s.current, s.advance with
    | none, _ => .ok datum
    | some _, (some e, _) => .error (.lexical e)
    | some found, (none, _) => .error (.unexpectedToken found .endOfInput)

end TokenStream

namespace Datum

/-- The datum that a whole text says. -/
def parse (text : String) : Except ReadError Datum :=
  match TokenStream.ofText text with
  | .error e => .error (.lexical e)
  | .ok stream => stream.readOnly

end Datum

end SmallScheme
