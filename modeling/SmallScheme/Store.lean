import SmallScheme.Store.Bindings
import SmallScheme.Value

/-!
# The store

Everything that has an identity lives in the *store*: pairs, closures and the
frames in which names are bound. Each has a number, given at its creation and
never used again, and nothing is ever taken out; so a place once handed out
stays good. Pairs and frames can be changed, closures cannot.

Reading a place is total: where there is nothing, an empty thing is read. No
program gets hold of such a place.
-/

namespace SmallScheme

/-- A pair. -/
structure Pair where
  /-- The first component. -/
  car : Value
  /-- The second component, which links a list to its next pair. -/
  cdr : Value
deriving DecidableEq, Repr, Inhabited

/-- A procedure made by a `lambda` form. -/
structure Closure where
  /-- The names of the parameters. -/
  params : List String
  /-- The forms to evaluate in turn. -/
  body : List Value
  /-- The scope in which the `lambda` form was evaluated. -/
  scope : FrameRef
deriving DecidableEq, Repr

instance : Inhabited Closure := ⟨⟨[], [], ⟨0⟩⟩⟩

/-- One level of scope. -/
structure Frame where
  /-- The frame around it, if it is not a global one. -/
  outer : Option FrameRef
  /-- What is bound in this very frame. -/
  bindings : Bindings
deriving DecidableEq, Repr, Inhabited

/-- All pairs, closures and frames made so far. -/
structure Store where
  /-- The pairs, by number. -/
  pairs : Array Pair
  /-- The closures, by number. -/
  closures : Array Closure
  /-- The frames, by number. -/
  frames : Array Frame
deriving DecidableEq, Repr

namespace Store

/-- The store in which nothing has been made yet. -/
def empty : Store := ⟨#[], #[], #[]⟩

instance : Inhabited Store := ⟨empty⟩

/-! ## Pairs -/

/-- The pair at a place. -/
def pair (s : Store) (r : PairRef) : Pair := s.pairs.getD r.index default

/-- A new pair. -/
def cons (s : Store) (car cdr : Value) : Value × Store :=
  (.pair ⟨s.pairs.size⟩, { s with pairs := s.pairs.push ⟨car, cdr⟩ })

/-- Replaces the first component of a pair. -/
def setCar (s : Store) (r : PairRef) (v : Value) : Store :=
  { s with pairs := s.pairs.modify r.index fun p => { p with car := v } }

/-- Replaces the second component of a pair. -/
def setCdr (s : Store) (r : PairRef) (v : Value) : Store :=
  { s with pairs := s.pairs.modify r.index fun p => { p with cdr := v } }

/-- A new proper list of `items`. -/
def list (s : Store) : List Value → Value × Store
  | [] => (.nil, s)
  | item :: items =>
    let (tail, s) := s.list items
    s.cons item tail

/-- The same value again; a pair is copied, and shares its components with the
    copy. -/
def copy (s : Store) : Value → Value × Store
  | .pair r => s.cons (s.pair r).car (s.pair r).cdr
  | v => (v, s)

/-! ## Closures -/

/-- The closure at a place. -/
def closure (s : Store) (r : ClosureRef) : Closure := s.closures.getD r.index default

/-- A new closure. -/
def newClosure (s : Store) (c : Closure) : ClosureRef × Store :=
  (⟨s.closures.size⟩, { s with closures := s.closures.push c })

/-! ## Frames -/

/-- The frame at a place. -/
def frame (s : Store) (f : FrameRef) : Frame := s.frames.getD f.index default

/-- A new frame without bindings, inside `outer` if one is given. -/
def newFrame (s : Store) (outer : Option FrameRef) : FrameRef × Store :=
  (⟨s.frames.size⟩, { s with frames := s.frames.push ⟨outer, []⟩ })

/-- Binds `name` in the frame `f` itself, in the place of an earlier binding
    there. -/
def define (s : Store) (f : FrameRef) (name : String) (v : Value) : Store :=
  { s with frames := s.frames.modify f.index fun frame =>
      { frame with bindings := frame.bindings.insert name v } }

end Store

end SmallScheme
