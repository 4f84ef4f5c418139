import SmallScheme.Proofs.Store.Update
import SmallScheme.Store.Scope

/-!
# Scopes and what happened to them

Frames are made, one inside the other, and names are defined and assigned in them,
in any order. This *history* says by itself what a name means in a scope, without a
store: which frame is around which, and what was stored last in a frame under a
name (`History.stored`). A scope is a chain of maps: a name means what the nearest
frame of the chain that has something stored under it has.

A store that has gone through a history (`Store.Lived`) shows just that
(`scopes_follow_history`). The invariant is that each frame by itself shows its own
part of the history (`Store.Recorded`).
-/

namespace SmallScheme

/-- Two searches that agree on all elements but one both come as far as that one, if they
    do not find the same thing. -/
theorem exists_append_of_findSome?_ne {α β : Type} {p q : α → Option β} {a : α} {l : List α}
    (helse : ∀ x ≠ a, p x = q x) (hne : l.findSome? p ≠ l.findSome? q) :
    ∃ nearer farther, l = nearer ++ a :: farther ∧ ∀ x ∈ nearer, q x = none := by
  induction l with
  | nil => exact absurd rfl hne
  | cons x l ih =>
    by_cases hx : x = a
    · exact ⟨[], l, by rw [hx, List.nil_append], by simp⟩
    · rw [List.findSome?_cons, List.findSome?_cons, helse x hx] at hne
      cases hq : q x with
      | some b => simp [hq] at hne
      | none =>
        simp only [hq] at hne
        obtain ⟨nearer, farther, rfl, hnearer⟩ := ih hne
        exact ⟨x :: nearer, farther, rfl, List.forall_mem_cons.2 ⟨hq, hnearer⟩⟩

/-- What can be done to scopes. -/
inductive ScopeAction where
  /-- A frame is made, inside `outer` if one is given. -/
  | newFrame (outer : Option FrameRef)
  /-- A name is bound in a frame. -/
  | define (f : FrameRef) (name : String) (v : Value)
  /-- A name is to be bound to another value in a frame. -/
  | assign (f : FrameRef) (name : String) (v : Value)

namespace ScopeAction

/-- What an action makes of a store. An assignment that fails makes nothing of it. -/
def apply (s : Store) : ScopeAction → Store
  | newFrame outer => (s.newFrame outer).2
  | define f name v => s.define f name v
  | assign f name v => (s.assign? f name v).getD s

/-- The frames that an action is about are there. -/
def Allowed (s : Store) : ScopeAction → Prop
  | newFrame outer => ∀ f, outer = some f → f.index < s.frames.size
  | define f _ _ | assign f _ _ => f.index < s.frames.size

end ScopeAction

/-- Actions one after another, the latest first. -/
abbrev History := List ScopeAction

namespace History

/-- The number of frames made. They are numbered in order of creation. -/
def frames : History → Nat
  | [] => 0
  | .newFrame _ :: h => frames h + 1
  | .define .. :: h | .assign .. :: h => frames h

/-- The frame inside which `f` was made. -/
def outer : History → FrameRef → Option FrameRef
  | [], _ => none
  | .newFrame outer' :: h, f => if f.index = frames h then outer' else outer h f
  | .define .. :: h, f | .assign .. :: h, f => outer h f

/-- What was stored last in the frame `f` under `name`. An assignment stores
    something only where there is something already. -/
def stored : History → FrameRef → String → Option Value
  | [], _, _ => none
  | .newFrame _ :: h, f, name => stored h f name
  | .define g other v :: h, f, name => if g = f ∧ other = name then some v else stored h f name
  | .assign g other v :: h, f, name =>
    if g = f ∧ other = name ∧ (stored h f name).isSome then some v else stored h f name

/-- The frames from `f` outward. -/
inductive Chain (h : History) : FrameRef → List FrameRef → Prop
  | last {f : FrameRef} (hf : h.outer f = none) : Chain h f [f]
  | link {f g : FrameRef} {fs : List FrameRef} (hf : h.outer f = some g) (hg : Chain h g fs) :
      Chain h f (f :: fs)

/-- From the scope `f`, the frame `g` is in sight: it is on the chain, and in no nearer
    frame there is something stored under `name`. -/
def InSight (h : History) (f : FrameRef) (name : String) (g : FrameRef) : Prop :=
  ∃ nearer farther, h.Chain f (nearer ++ g :: farther) ∧ ∀ k ∈ nearer, h.stored k name = none

/-- There is one chain from each frame. -/
theorem Chain.unique {h : History} {f : FrameRef} {fs gs : List FrameRef} (hfs : h.Chain f fs)
    (hgs : h.Chain f gs) : fs = gs := by
  induction hfs generalizing gs with
  | last hf =>
    cases hgs with
    | last => rfl
    | link hf' => cases hf.symm.trans hf'
  | link hf _ ih =>
    cases hgs with
    | last hf' => cases hf.symm.trans hf'
    | link hf' hg' =>
      obtain rfl := Option.some.inj (hf.symm.trans hf')
      rw [ih hg']

end History

namespace Store

/-- The store has gone through a history, from when it had no frames. -/
inductive Lived : Store → History → Prop
  | start {s : Store} (hs : s.frames = #[]) : Lived s []
  | act {s : Store} {h : History} {a : ScopeAction} (hs : Lived s h) (ha : a.Allowed s) :
      Lived (a.apply s) (a :: h)

/-- Every frame shows its part of the history. -/
structure Recorded (s : Store) (h : History) : Prop where
  /-- All frames are there. -/
  size_eq : s.frames.size = h.frames
  /-- Every frame has the frame around it. -/
  outer_eq : ∀ f, (s.frame f).outer = h.outer f
  /-- Every frame binds what was stored in it. -/
  lookup_eq : ∀ f name, (s.frame f).bindings.lookup name = h.stored f name
  /-- The frame around another was there before. -/
  outer_lt : ∀ f g, h.outer f = some g → g.index < f.index

variable {s : Store} {h : History}

/-! ## One action -/

theorem Recorded.newFrame (hs : s.Recorded h) {outer : Option FrameRef}
    (houter : ∀ f, outer = some f → f.index < s.frames.size) :
    (s.newFrame outer).2.Recorded (.newFrame outer :: h) where
  size_eq := by rw [size_frames_newFrame, hs.size_eq, History.frames]
  outer_eq f := by
    rw [History.outer, ← hs.size_eq]
    split
    · rename_i hf
      obtain rfl : f = ⟨s.frames.size⟩ := by rw [← hf]
      rw [frame_newFrame_self]
    · rename_i hf
      rw [frame_newFrame_of_ne hf, hs.outer_eq]
  lookup_eq f name := by
    rw [History.stored, ← hs.lookup_eq]
    by_cases hf : f.index = s.frames.size
    · -- Nothing has been stored in a frame that is not there yet.
      obtain rfl : f = ⟨s.frames.size⟩ := by rw [← hf]
      have hnone : s.frame ⟨s.frames.size⟩ = ⟨none, []⟩ := frame_of_le (Nat.le_refl _)
      rw [frame_newFrame_self, hnone]
    · rw [frame_newFrame_of_ne hf]
  outer_lt f g hg := by
    rw [History.outer, ← hs.size_eq] at hg
    split at hg
    · rename_i hf
      rw [hf]
      exact houter g hg
    · exact hs.outer_lt f g hg

theorem Recorded.define (hs : s.Recorded h) {f : FrameRef} (hf : f.index < s.frames.size)
    (name : String) (v : Value) : (s.define f name v).Recorded (.define f name v :: h) where
  size_eq := by rw [size_frames_define, hs.size_eq, History.frames]
  outer_eq g := by rw [outer_frame_define, hs.outer_eq, History.outer]
  lookup_eq g other := by
    rw [History.stored, ← hs.lookup_eq]
    split
    · rename_i heq
      obtain ⟨rfl, rfl⟩ := heq
      exact lookup_define_self hf
    · rename_i hne
      by_cases hg : g = f
      · exact lookup_define_of_ne fun heq => hne ⟨hg.symm, heq.symm⟩
      · rw [frame_define_of_ne hg]
  outer_lt := hs.outer_lt

theorem Recorded.bindsLocally_eq (hs : s.Recorded h) (f : FrameRef) (name : String) :
    s.bindsLocally f name = (h.stored f name).isSome := by
  rw [bindsLocally, hs.lookup_eq]

theorem Recorded.assign?_eq (hs : s.Recorded h) (f : FrameRef) (name : String) (v : Value) :
    s.assign? f name v =
      if (h.stored f name).isSome then some (s.define f name v) else none := by
  rw [assign?, hs.bindsLocally_eq]

/-- An assignment that succeeds is a definition, and one that fails is nothing. -/
theorem Recorded.assign (hs : s.Recorded h) {f : FrameRef} (hf : f.index < s.frames.size)
    (name : String) (v : Value) :
    ((s.assign? f name v).getD s).Recorded (.assign f name v :: h) := by
  rw [hs.assign?_eq]
  by_cases hstored : (h.stored f name).isSome
  · have hdef := hs.define hf name v
    rw [if_pos hstored, Option.getD_some]
    refine ⟨hdef.size_eq, hdef.outer_eq, fun g other => ?_, hdef.outer_lt⟩
    rw [hdef.lookup_eq, History.stored, History.stored]
    by_cases heq : f = g ∧ name = other
    · obtain ⟨rfl, rfl⟩ := heq
      simp [hstored]
    · rw [if_neg heq, if_neg fun hall => heq ⟨hall.1, hall.2.1⟩]
  · rw [if_neg hstored, Option.getD_none]
    refine ⟨hs.size_eq, hs.outer_eq, fun g other => ?_, hs.outer_lt⟩
    rw [hs.lookup_eq, History.stored, if_neg]
    rintro ⟨rfl, rfl, hsome⟩
    exact hstored hsome

theorem Recorded.apply (hs : s.Recorded h) {a : ScopeAction} (ha : a.Allowed s) :
    (a.apply s).Recorded (a :: h) := by
  cases a with
  | newFrame outer => exact hs.newFrame ha
  | define f name v => exact hs.define ha name v
  | assign f name v => exact hs.assign ha name v

theorem Lived.recorded (hs : s.Lived h) : s.Recorded h := by
  induction hs with
  | @start s hs =>
    have hframe : ∀ f, s.frame f = ⟨none, []⟩ := fun f => frame_of_le (by simp [hs])
    exact ⟨by simp [hs, History.frames], fun f => by rw [hframe, History.outer],
      fun f name => by rw [hframe, History.stored, List.lookup_nil], fun f g hg => by cases hg⟩
  | act _ ha ih => exact ih.apply ha

/-! ## Chains -/

namespace Recorded

theorem chain_scopesUpTo (hs : s.Recorded h) {n : Nat} {f : FrameRef} (hf : f.index < n) :
    h.Chain f (s.scopesUpTo n f) := by
  induction n generalizing f with
  | zero => exact absurd hf (Nat.not_lt_zero _)
  | succ n ih =>
    rw [scopesUpTo, hs.outer_eq]
    cases houter : h.outer f with
    | none => exact .last houter
    | some g =>
      have hlt := hs.outer_lt f g houter
      exact .link houter (ih (Nat.lt_of_lt_of_le hlt (Nat.le_of_lt_succ hf)))

/-- The search has enough fuel for every chain. -/
theorem chain_scopes (hs : s.Recorded h) (f : FrameRef) : h.Chain f (s.scopes f) :=
  hs.chain_scopesUpTo (Nat.lt_succ_self _)

theorem chain_iff (hs : s.Recorded h) {f : FrameRef} {fs : List FrameRef} :
    h.Chain f fs ↔ fs = s.scopes f :=
  ⟨fun hfs => hfs.unique (hs.chain_scopes f), fun heq => heq ▸ hs.chain_scopes f⟩

theorem inSight_iff (hs : s.Recorded h) {f g : FrameRef} {name : String} :
    h.InSight f name g ↔ ∃ nearer farther, s.scopes f = nearer ++ g :: farther ∧
      ∀ k ∈ nearer, h.stored k name = none := by
  simp only [History.InSight, hs.chain_iff, eq_comm]

theorem lookup?_eq (hs : s.Recorded h) (f : FrameRef) (name : String) :
    s.lookup? f name = (s.scopes f).findSome? (h.stored · name) := by
  simp only [lookup?, hs.lookup_eq]

theorem lookup?_eq_some_iff (hs : s.Recorded h) {f : FrameRef} {name : String} {v : Value} :
    s.lookup? f name = some v ↔ ∃ g, h.InSight f name g ∧ h.stored g name = some v := by
  simp only [hs.lookup?_eq, hs.inSight_iff, List.findSome?_eq_some_iff]
  constructor
  · rintro ⟨nearer, g, farther, hsplit, hg, hnearer⟩
    exact ⟨g, ⟨nearer, farther, hsplit, hnearer⟩, hg⟩
  · rintro ⟨g, ⟨nearer, farther, hsplit, hnearer⟩, hg⟩
    exact ⟨nearer, g, farther, hsplit, hg, hnearer⟩

theorem lookup?_eq_none_iff (hs : s.Recorded h) {f : FrameRef} {name : String} :
    s.lookup? f name = none ↔
      ∀ fs, h.Chain f fs → ∀ g ∈ fs, h.stored g name = none := by
  simp only [hs.lookup?_eq, hs.chain_iff, forall_eq, List.findSome?_eq_none_iff]

/-- A definition shows in no scope but those from which its frame is in sight, and under
    no other name. -/
theorem inSight_of_lookup?_define_ne (hs : s.Recorded h) {f g : FrameRef}
    {name other : String} {v : Value}
    (hne : (s.define f name v).lookup? g other ≠ s.lookup? g other) :
    other = name ∧ h.InSight g name f := by
  have hscopes : (s.define f name v).scopes g = s.scopes g :=
    scopesUpTo_congr (fun _ => outer_frame_define) _ _
  have helse : ∀ k ≠ f, ((s.define f name v).frame k).bindings.lookup other =
      (s.frame k).bindings.lookup other := fun k hk => by rw [frame_define_of_ne hk]
  rw [lookup?, lookup?, hscopes] at hne
  obtain ⟨nearer, farther, hsplit, hnearer⟩ := exists_append_of_findSome?_ne helse hne
  by_cases hname : other = name
  · subst hname
    refine ⟨rfl, hs.inSight_iff.2 ⟨nearer, farther, hsplit, fun k hk => ?_⟩⟩
    rw [← hs.lookup_eq]
    exact hnearer k hk
  · -- Under another name the frame shows what it did.
    refine absurd (congrArg (List.findSome? · _) (funext fun k => ?_)) hne
    exact lookup_define_of_ne hname

/-- So does an assignment. -/
theorem inSight_of_assign? (hs : s.Recorded h) {s' : Store} {f g : FrameRef}
    {name other : String} {v : Value} (hassign : s.assign? f name v = some s')
    (hne : s'.lookup? g other ≠ s.lookup? g other) : other = name ∧ h.InSight g name f := by
  rw [assign?] at hassign
  split at hassign
  · obtain rfl := Option.some.inj hassign
    exact hs.inSight_of_lookup?_define_ne hne
  · cases hassign

theorem assign?_eq_none_iff (hs : s.Recorded h) {f : FrameRef} {name : String} {v : Value} :
    s.assign? f name v = none ↔ h.stored f name = none := by
  rw [hs.assign?_eq]
  cases h.stored f name <;> simp

end Recorded

end Store

/-- Scopes are chains of maps. In a store that has gone through a history, frames are
    numbered as they are made, every frame lies inside an older one or inside none, and
    the search goes along the chain of frames; a name means what was stored last under it
    in the frame in sight, and it means nothing if there is no such frame; what is stored
    in a frame shows under its own name and where that frame is in sight, and nowhere
    else; an assignment fails just where the frame itself has nothing under the name, and
    then it changes nothing; and the names listed are those that mean something. -/
theorem scopes_follow_history {s : Store} {h : History} (hs : s.Lived h) :
    (∀ outer, (s.newFrame outer).1 = ⟨h.frames⟩) ∧
    (∀ f g, (s.frame f).outer = some g → g.index < f.index) ∧
    (∀ f, h.Chain f (s.scopes f)) ∧
    (∀ f name v, s.lookup? f name = some v ↔
      ∃ g, h.InSight f name g ∧ h.stored g name = some v) ∧
    (∀ f name, s.lookup? f name = none ↔
      ∀ fs, h.Chain f fs → ∀ g ∈ fs, h.stored g name = none) ∧
    (∀ f name v g other, (s.define f name v).lookup? g other ≠ s.lookup? g other →
      other = name ∧ h.InSight g name f) ∧
    (∀ f name v s', s.assign? f name v = some s' →
      ∀ g other, s'.lookup? g other ≠ s.lookup? g other → other = name ∧ h.InSight g name f) ∧
    (∀ f name v, s.assign? f name v = none ↔ h.stored f name = none) ∧
    (∀ f name v, s.assign? f name v = none → (ScopeAction.assign f name v).apply s = s) ∧
    (∀ f name, name ∈ s.identifiers f ↔ ∃ v, s.lookup? f name = some v) := by
  have hrec := hs.recorded
  refine ⟨fun _ => congrArg FrameRef.mk hrec.size_eq, fun f g hg => ?_, hrec.chain_scopes,
    fun _ _ _ => hrec.lookup?_eq_some_iff, fun _ _ => hrec.lookup?_eq_none_iff,
    fun _ _ _ _ _ => hrec.inSight_of_lookup?_define_ne,
    fun _ _ _ _ hassign _ _ => hrec.inSight_of_assign? hassign,
    fun _ _ _ => hrec.assign?_eq_none_iff, fun f name v hfail => ?_, fun _ _ => ?_⟩
  · exact hrec.outer_lt f g (hrec.outer_eq f ▸ hg)
  · rw [ScopeAction.apply, hfail, Option.getD_none]
  · rw [Store.mem_identifiers_iff, Option.isSome_iff_exists]

/-- A frame inside a global one, in which `x` is hidden by a binding of its own. The
    assignment to `y` there fails, since `y` is bound in the global frame only. -/
theorem scopes_follow_history_shadowing :
    let h : History :=
      [.assign ⟨1⟩ "y" (.symbol "lost"), .define ⟨1⟩ "x" (.symbol "near"),
        .define ⟨0⟩ "y" (.symbol "late"), .define ⟨0⟩ "x" (.symbol "far"),
        .newFrame (some ⟨0⟩), .newFrame none]
    ∃ s : Store, s.Lived h ∧ s.lookup? ⟨1⟩ "x" = some (.symbol "near") ∧
      s.lookup? ⟨0⟩ "x" = some (.symbol "far") ∧ s.lookup? ⟨1⟩ "y" = some (.symbol "late") ∧
      s.assign? ⟨1⟩ "y" (.symbol "lost") = none ∧ "y" ∈ s.identifiers ⟨1⟩ := by
  intro h
  have hs : ∃ s : Store, s.Lived h := by
    refine ⟨_, .act (.act (.act (.act (.act (.act (s := .empty) (.start rfl) ?_) ?_) ?_) ?_) ?_) ?_⟩
    all_goals simp [ScopeAction.Allowed, ScopeAction.apply, Store.empty, Store.newFrame]
  obtain ⟨s, hs⟩ := hs
  obtain ⟨_, _, _, hlookup, _, _, _, hfail, _, hnames⟩ := scopes_follow_history hs
  have hglobal : h.Chain ⟨0⟩ [⟨0⟩] := .last rfl
  have hlocal : h.Chain ⟨1⟩ [⟨1⟩, ⟨0⟩] := .link rfl hglobal
  have hy : s.lookup? ⟨1⟩ "y" = some (.symbol "late") :=
    (hlookup ..).2 ⟨⟨0⟩, ⟨[⟨1⟩], [], hlocal, by simp [h, History.stored]⟩, rfl⟩
  refine ⟨s, hs, ?_, ?_, hy, (hfail ..).2 rfl, (hnames ..).2 ⟨_, hy⟩⟩
  · exact (hlookup ..).2 ⟨⟨1⟩, ⟨[], [⟨0⟩], hlocal, by simp⟩, rfl⟩
  · exact (hlookup ..).2 ⟨⟨0⟩, ⟨[], [], hglobal, by simp⟩, rfl⟩

end SmallScheme
