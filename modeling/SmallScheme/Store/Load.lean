import SmallScheme.Datum
import SmallScheme.Store

/-!
# Storing data

A datum becomes a value by making a pair in the store for each pair in it. All
of them are new, so a value just stored shares nothing with any other.
-/

namespace SmallScheme.Store

/-- The value that a datum says, made of new pairs. -/
def load (s : Store) : Datum → Value × Store
  | .nil => (.nil, s)
  | .integer n => (.integer n, s)
  | .symbol name => (.symbol name, s)
  | .pair car cdr =>
    let (first, s) := s.load car
    let (second, s) := s.load cdr
    s.cons first second

end SmallScheme.Store
