import SmallScheme.Text.GraphemeBreak

/-!
# Characters as readers see them

A *grapheme* is a stretch of a text that a reader takes for one character, and
that a backspace takes away as one. A text falls into graphemes one after the
other, by the rules of Unicode for *extended grapheme clusters*: from left to
right, each character either goes on with the grapheme before it or starts a
new one.

Whether it goes on depends mostly on the two characters that meet. Three rules
look further back, but never beyond the start of the grapheme: flags are made of
letters taken two by two, pictographs are joined only if one comes before the
joiner, and consonants only if one comes before the sign that links them. What
they need of the past is the `ClusterState`.

`flatten_graphemes`: nothing is lost and nothing moved.
-/

namespace SmallScheme.Text

/-- How far a joining of pictographs has got. -/
inductive PictographState where
  /-- There is no pictograph to join to. -/
  | none
  /-- There is a pictograph, perhaps with marks after it. -/
  | base
  /-- After that, there is a joiner. -/
  | joined
deriving DecidableEq, Repr

/-- How far a conjunct of consonants has got. -/
inductive ConjunctState where
  /-- There is no consonant to link to. -/
  | none
  /-- There is a consonant. -/
  | base
  /-- After that, there is a linker. -/
  | linked
deriving DecidableEq, Repr

/-- What the rules need to know about a grapheme so far. -/
structure ClusterState where
  /-- The sort of its last character. -/
  last : GraphemeBreak
  /-- Does a flag lack its second letter? -/
  halfFlag : Bool
  /-- How far a joining of pictographs has got at its end. -/
  pictographs : PictographState
  /-- How far a conjunct of consonants has got at its end. -/
  conjunct : ConjunctState
deriving DecidableEq, Repr

namespace PictographState

/-- The state after a character of the given sort. -/
def after : PictographState → GraphemeBreak → PictographState
  | _, .pictograph => base
  | base, .extend => base
  | base, .joiner => joined
  | _, _ => none

end PictographState

namespace ConjunctState

/-- The state after a character that does `effect`. -/
def after : ConjunctState → ConjunctBreak → ConjunctState
  | _, .consonant => base
  | base, .linker => linked
  | linked, .linker => linked
  | state, .extend => state
  | _, _ => none

end ConjunctState

namespace ClusterState

/-- The state before a grapheme, in which there is nothing to go on with. -/
def initial : ClusterState := ⟨.control, false, .none, .none⟩

/-- The state after one more character. -/
def after (state : ClusterState) (c : Char) : ClusterState :=
  let sort := GraphemeBreak.ofChar c
  { last := sort
    halfFlag := sort == .regional && !state.halfFlag
    pictographs := state.pictographs.after sort
    conjunct := state.conjunct.after (ConjunctBreak.ofChar sort c) }

/-- Do two characters of these sorts hold together, whatever is before them? -/
def meet : GraphemeBreak → GraphemeBreak → Bool
  | .cr, .lf => true
  | .cr, _ | .lf, _ | .control, _ => false
  | _, .cr | _, .lf | _, .control => false
  | .leading, .leading | .leading, .vowel => true
  | .leading, .openSyllable | .leading, .closedSyllable => true
  | .openSyllable, .vowel | .openSyllable, .trailing => true
  | .vowel, .vowel | .vowel, .trailing => true
  | .closedSyllable, .trailing | .trailing, .trailing => true
  | _, .extend | _, .joiner | _, .spacingMark => true
  | .prepend, _ => true
  | _, _ => false

/-- Does `c` go on with the grapheme? -/
def accepts (state : ClusterState) (c : Char) : Bool :=
  let sort := GraphemeBreak.ofChar c
  meet state.last sort ||
    (state.halfFlag && sort == .regional) ||
    (state.pictographs == .joined && sort == .pictograph) ||
    (state.conjunct == .linked && ConjunctBreak.ofChar sort c == .consonant)

end ClusterState

/-- The graphemes of a text of which `cluster`, latest character first, is the
    first part of the first one, with `state` at its end. -/
def graphemesFrom (cluster : List Char) (state : ClusterState) : List Char → List (List Char)
  | [] => [cluster.reverse]
  | c :: cs =>
    if state.accepts c then graphemesFrom (c :: cluster) (state.after c) cs
    else cluster.reverse :: graphemesFrom [c] (ClusterState.initial.after c) cs

/-- The graphemes of a text. -/
def graphemes : List Char → List (List Char)
  | [] => []
  | c :: cs => graphemesFrom [c] (ClusterState.initial.after c) cs

theorem flatten_graphemesFrom (cluster : List Char) (state : ClusterState) (cs : List Char) :
    (graphemesFrom cluster state cs).flatten = cluster.reverse ++ cs := by
  induction cs generalizing cluster state with
  | nil => simp [graphemesFrom]
  | cons c cs ih =>
    rw [graphemesFrom]
    split
    · rw [ih]
      simp
    · rw [List.flatten_cons, ih]
      simp

theorem flatten_graphemes (cs : List Char) : (graphemes cs).flatten = cs := by
  cases cs with
  | nil => rfl
  | cons c cs => exact flatten_graphemesFrom [c] (ClusterState.initial.after c) cs

end SmallScheme.Text
