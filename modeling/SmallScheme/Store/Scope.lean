import SmallScheme.Store

/-!
# Scopes

A frame stands in a chain: itself, the frame around it, and so on out to a
global one. A name means what the innermost frame of the chain that binds it
says. Definitions and assignments are not subject to this: both act on one
frame, and the frames around it are neither searched nor changed.

A frame is put inside one that is there already, so links lead to ever smaller
numbers, and a chain from frame number `n` has at most `n + 1` members.
-/

namespace SmallScheme.Store

/-- The frames from `f` outward, at most `n` of them. -/
def scopesUpTo (s : Store) : Nat → FrameRef → List FrameRef
  | 0, _ => []
  | n + 1, f =>
    f :: match (s.frame f).outer with
      | none => []
      | some outer => s.scopesUpTo n outer

/-- The frames from `f` outward. -/
def scopes (s : Store) (f : FrameRef) : List FrameRef := s.scopesUpTo (f.index + 1) f

/-- What `name` means in the scope `f`. -/
def lookup? (s : Store) (f : FrameRef) (name : String) : Option Value :=
  (s.scopes f).findSome? fun g => (s.frame g).bindings.lookup name

/-- Is `name` bound in the frame `f` itself? -/
def bindsLocally (s : Store) (f : FrameRef) (name : String) : Bool :=
  ((s.frame f).bindings.lookup name).isSome

/-- Replaces the value of `name` in the frame `f` itself, if it is bound
    there. -/
def assign? (s : Store) (f : FrameRef) (name : String) (v : Value) : Option Store :=
  if s.bindsLocally f name then some (s.define f name v) else none

/-- The names that mean something in the scope `f`, each as often as a frame of
    the chain binds it. -/
def identifiers (s : Store) (f : FrameRef) : List String :=
  (s.scopes f).flatMap fun g => (s.frame g).bindings.names

theorem scopesUpTo_congr {s t : Store} (houter : ∀ f, (t.frame f).outer = (s.frame f).outer) :
    ∀ (n : Nat) (f : FrameRef), t.scopesUpTo n f = s.scopesUpTo n f
  | 0, _ => rfl
  | n + 1, f => by simp only [scopesUpTo, houter, scopesUpTo_congr houter n]

/-- The listing of names goes the way of the search. -/
theorem mem_identifiers_iff {s : Store} {f : FrameRef} {name : String} :
    name ∈ s.identifiers f ↔ (s.lookup? f name).isSome := by
  simp only [identifiers, List.mem_flatMap, Bindings.mem_names_iff, lookup?,
    List.findSome?_isSome_iff]

end SmallScheme.Store
