/-!
# Spans

A *span* is the stretch of a text that a token, a datum or an error covers,
counted in bytes of the text's UTF-8 form: `start` is the first byte in it and
`stop` the first byte after it.

Spans of neighbours are joined by `Span.merge`, which covers both and whatever
lies between them; this is how a list gets its span from its two brackets.
-/

namespace SmallScheme

/-- A stretch of bytes of a text. -/
structure Span where
  /-- The first byte covered. -/
  start : Nat
  /-- The first byte no longer covered. -/
  stop : Nat
deriving DecidableEq, Repr, Inhabited

namespace Span

/-- The least span covering both `a` and `b`. -/
def merge (a b : Span) : Span where
  start := min a.start b.start
  stop := max a.stop b.stop

/-- The written form of a span, as messages show it. -/
def text (s : Span) : String :=
  s.start.repr ++ ".." ++ s.stop.repr

end Span

end SmallScheme
