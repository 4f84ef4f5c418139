import SmallScheme.Proofs.Machine.Start
import SmallScheme.Proofs.Primitive.Effect
import SmallScheme.Proofs.Store.Update

/-!
# What a step does to frames

A step of the evaluation machine either leaves all frames alone, or binds one
name in a frame in which something is being done, or makes the frame of a call
and binds the parameters there (`FrameEffect`). Nothing else is ever done to a
frame, and nothing comes to be done in a frame other than these.

A frame in which nothing is being done (`Machine.Spares`) is therefore left alone
for as long as the machine runs (`Reaches.spares`), and outward links are never
changed at all (`Reaches.outer_eq`).
-/

namespace SmallScheme

open StoreM

/-- The frame in which what waits is going to be done. -/
def Pending.scope : Pending → FrameRef
  | operand _ scope _ _ | body scope _ | define scope _ | assign scope _ | branch scope _ _
  | junction scope _ _ => scope

/-- The frame in which something is being done, if there is one. -/
def Control.scopes : Control → List FrameRef
  | evaluate _ scope => [scope]
  | apply _ _ | value _ | error _ => []

/-- The frames in which something is done next. -/
def Move.scopes (move : Move) : List FrameRef := move.1.scopes ++ move.2.map Pending.scope

/-- The frames in which something is being done. -/
def Machine.scopes (m : Machine) : List FrameRef := m.control.scopes ++ m.pending.map Pending.scope

/-- What may become of the frames of the store `s` where something is done in the
    frames `old`; in the store `t`, something is done in the frames `new`. -/
inductive FrameEffect (s t : Store) (old new : List FrameRef) : Prop
  | kept : t.frames = s.frames → new ⊆ old → FrameEffect s t old new
  | defined {f : FrameRef} (name : String) (v : Value) : f ∈ old →
      t.frames = (s.define f name v).frames → new ⊆ old → FrameEffect s t old new
  | called (outer : FrameRef) (params : Bindings) :
      t.frames = ((s.newFrame (some outer)).2.bind ⟨s.frames.size⟩ params).frames →
      new ⊆ ⟨s.frames.size⟩ :: old → FrameEffect s t old new

namespace FrameEffect

variable {s t : Store} {old new : List FrameRef} {f : FrameRef}

theorem size_le (h : FrameEffect s t old new) : s.frames.size ≤ t.frames.size := by
  obtain ⟨h, _⟩ | ⟨_, _, _, h, _⟩ | ⟨_, _, h, _⟩ := h
  · exact Nat.le_of_eq (congrArg _ h.symm)
  · exact Nat.le_of_eq (by rw [h, Store.size_frames_define])
  · rw [h, Store.size_frames_bind, Store.size_frames_newFrame]
    exact Nat.le_succ _

/-- A frame in which nothing is being done stays as it is. -/
theorem frame_eq (h : FrameEffect s t old new) (hf : f.index < s.frames.size) (hold : f ∉ old) :
    t.frame f = s.frame f := by
  obtain ⟨h, _⟩ | ⟨_, _, hmem, h, _⟩ | ⟨_, _, h, _⟩ := h
  · exact Store.frame_congr h f
  · -- A name is bound only where something is being done.
    rw [Store.frame_congr h, Store.frame_define_of_ne]
    rintro rfl
    exact hold hmem
  · -- Parameters are bound only in the frame that is new.
    rw [Store.frame_congr h, Store.frame_bind_of_ne, Store.frame_newFrame_of_ne (Nat.ne_of_lt hf)]
    rintro rfl
    exact Nat.lt_irrefl _ hf

/-- Every frame keeps its place among the others. -/
theorem outer_eq (h : FrameEffect s t old new) (hf : f.index < s.frames.size) :
    (t.frame f).outer = (s.frame f).outer := by
  obtain ⟨h, _⟩ | ⟨_, _, _, h, _⟩ | ⟨_, _, h, _⟩ := h
  · rw [Store.frame_congr h]
  · rw [Store.frame_congr h, Store.outer_frame_define]
  · rw [Store.frame_congr h, Store.outer_frame_bind, Store.frame_newFrame_of_ne (Nat.ne_of_lt hf)]

/-- What is done next is done in the same frames, or in that of a call just
    begun. -/
theorem mem_new (h : FrameEffect s t old new) (hf : f ∈ new) :
    f ∈ old ∨ f = ⟨s.frames.size⟩ ∧ s.frames.size < t.frames.size := by
  obtain ⟨_, hsub⟩ | ⟨_, _, _, _, hsub⟩ | ⟨_, _, h, hsub⟩ := h
  · exact .inl (hsub hf)
  · exact .inl (hsub hf)
  · rcases List.mem_cons.1 (hsub hf) with rfl | hmem
    · refine .inr ⟨rfl, ?_⟩
      rw [h, Store.size_frames_bind, Store.size_frames_newFrame]
      exact Nat.lt_succ_self _
    · exact .inl hmem

/-- What waits besides makes no difference. -/
theorem append (h : FrameEffect s t old new) (rest : List FrameRef) :
    FrameEffect s t (old ++ rest) (new ++ rest) := by
  have sub : ∀ {a b : List FrameRef}, a ⊆ b → a ++ rest ⊆ b ++ rest := by
    intro a b h
    exact List.append_subset.2
      ⟨fun _ hx => List.mem_append_left _ (h hx), List.subset_append_right _ _⟩
  obtain ⟨h, hsub⟩ | ⟨name, v, hmem, h, hsub⟩ | ⟨outer, params, h, hsub⟩ := h
  · exact .kept h (sub hsub)
  · exact .defined name v (List.mem_append_left _ hmem) h (sub hsub)
  · exact .called outer params h (sub hsub)

end FrameEffect

/-! ## Moves -/

namespace Move

/-- The move affects frames as a move out of `old` does. -/
abbrev AffectsFrames (move : Eval Move) (s : Store) (old : List FrameRef) : Prop :=
  (move.run s).Satisfies (fun move t => FrameEffect s t old move.scopes)
    fun _ t => FrameEffect s t old []

theorem scopes_operands (callee : Callee) (scope : FrameRef) (values forms : List Value) :
    (operands callee scope values forms).scopes ⊆ [scope] := by
  cases forms <;> simp [operands, scopes, Control.scopes, Pending.scope]

theorem scopes_body (scope : FrameRef) (last : Value) (forms : List Value) :
    (body scope last forms).scopes ⊆ [scope] := by
  cases forms <;> simp [body, scopes, Control.scopes, Pending.scope]

theorem scopes_junction (scope : FrameRef) (goesOn : Value → Bool) (last : Value)
    (forms : List Value) : (junction scope goesOn last forms).scopes ⊆ [scope] := by
  cases forms <;> simp [junction, scopes, Control.scopes, Pending.scope]

theorem affectsFrames_evaluate (v : Value) (scope : FrameRef) (s : Store) :
    AffectsFrames (evaluate v scope) s [scope] := by
  have done : ∀ v, scopes (.value v, []) ⊆ [scope] := fun _ => List.nil_subset _
  have one : ∀ form p, p.scope = scope → scopes (.evaluate form scope, [p]) ⊆ [scope] := by
    rintro form p rfl
    simp [scopes, Control.scopes]
  have h := start_evaluate v scope s
  unfold AffectsFrames
  generalize (evaluate v scope).run s = outcome at h ⊢
  cases h with
  | unfinished _ => trivial
  | error e => exact .kept rfl (List.nil_subset _)
  | self | bound | quote => exact .kept rfl (done _)
  | define | assign | conditional => exact .kept rfl (one _ _ rfl)
  | lambda => exact .kept rfl (done _)
  | junction goesOn last => exact .kept rfl (scopes_junction _ _ _ _)
  | primitive | closure | inline => exact .kept rfl (scopes_operands _ _ _ _)
  | inlineError => exact .kept rfl (List.nil_subset _)

theorem affectsFrames_primitive (op : Primitive) (args : List Value) (s : Store) :
    ((op.apply args).run s).Leaves fun t => t.frames = s.frames := by
  have h := op.effect_apply args s
  generalize (op.apply args).run s = outcome at h ⊢
  cases h with
  | error | plain | part | cons | setCar | setCdr => rfl
  | list =>
    induction args with
    | nil => rfl
    | cons v args ih => exact ih

theorem affectsFrames_apply (callee : Callee) (args : List Value) (s : Store) :
    AffectsFrames (apply callee args) s [] := by
  cases callee with
  | primitive op =>
    simp only [AffectsFrames, apply, satisfies_bind]
    exact (affectsFrames_primitive op args s).imp (fun _ _ h => .kept h (List.nil_subset _))
      fun _ _ h => .kept h (List.nil_subset _)
  | closure c =>
    simp only [AffectsFrames, apply, satisfies_bind, run_read, Outcome.satisfies_value]
    split
    · exact .called (s.closure c).scope ((s.closure c).params.zip args) rfl (scopes_body _ _ _)
    · exact .kept rfl (List.nil_subset _)

theorem affectsFrames_resume (v : Value) (p : Pending) (s : Store) :
    AffectsFrames (resume v p) s [p.scope] := by
  cases p with
  | operand callee scope values forms => exact .kept rfl (scopes_operands _ _ _ _)
  | body scope forms => exact .kept rfl (scopes_body _ _ _)
  | define scope name =>
    exact .defined name v (List.mem_singleton_self _) rfl (List.nil_subset _)
  | assign scope name =>
    simp only [AffectsFrames, resume, satisfies_bind]
    refine (Eval.assign_satisfies scope name v).imp ?_ ?_
    · rintro _ _ ⟨rfl, rfl⟩
      exact .defined name v (List.mem_singleton_self _) rfl (List.nil_subset _)
    · rintro _ _ rfl
      exact .kept rfl (List.nil_subset _)
  | branch scope consequent alternative =>
    have chosen : ∀ form, scopes (.evaluate form scope, []) ⊆ [scope] := by
      simp [scopes, Control.scopes]
    simp only [AffectsFrames, resume]
    split
    · split
      · cases alternative with
        | none => exact .kept rfl (List.nil_subset _)
        | some alternative => exact .kept rfl (chosen _)
      · exact .kept rfl (chosen _)
    · simp only [Eval.render, satisfies_bind, satisfies_find]
      exact fun _ _ => .kept rfl (List.nil_subset _)
  | junction scope goesOn forms =>
    refine .kept rfl ?_
    split
    · exact scopes_junction _ _ _ _
    · exact List.nil_subset _

end Move

/-! ## Machines -/

namespace Machine

variable {m m' : Machine} {f : FrameRef}

theorem frameEffect_follow {move : Eval Move} {waiting : List Pending} (old : List FrameRef)
    (hscopes : m.scopes = old ++ waiting.map Pending.scope)
    (h : Move.AffectsFrames move m.store old) :
    FrameEffect m.store (m.follow move waiting).store m.scopes (m.follow move waiting).scopes := by
  rw [hscopes]
  unfold follow
  rcases hmove : move.run m.store with ⟨⟨control, added⟩, t⟩ | ⟨e, t⟩ | _ <;>
    rw [Move.AffectsFrames, hmove] at h
  -- Before and after, the frames of what waits come after the others.
  · have happend := h.append (waiting.map Pending.scope)
    simpa [scopes, Move.scopes] using happend
  · have happend := h.append (waiting.map Pending.scope)
    simpa [scopes, Control.scopes] using happend
  · exact .kept rfl (hscopes ▸ List.Subset.refl _)

/-- What a step does to frames. -/
theorem frameEffect_step (h : m.step = some m') :
    FrameEffect m.store m'.store m.scopes m'.scopes := by
  obtain ⟨control, pending, s⟩ := m
  cases control with
  | evaluate v scope =>
    obtain rfl := Option.some.inj h
    exact frameEffect_follow [scope] rfl (Move.affectsFrames_evaluate v scope s)
  | apply callee args =>
    obtain rfl := Option.some.inj h
    exact frameEffect_follow [] rfl (Move.affectsFrames_apply callee args s)
  | value v =>
    cases pending with
    | nil => cases h
    | cons p waiting =>
      obtain rfl := Option.some.inj h
      exact frameEffect_follow [p.scope] rfl (Move.affectsFrames_resume v p s)
  | error e =>
    cases pending with
    | nil => cases h
    | cons p waiting =>
      obtain rfl := Option.some.inj h
      exact .kept rfl (List.subset_cons_self _ _)

/-- The frame is there, and nothing is being done in it. -/
structure Spares (m : Machine) (f : FrameRef) : Prop where
  lt : f.index < m.store.frames.size
  not_mem : f ∉ m.scopes

/-- Nothing comes to be done in a frame by itself, and one in which nothing is
    done stays as it is. -/
theorem Spares.step (hf : m.Spares f) (h : m.step = some m') :
    m'.Spares f ∧ m'.store.frame f = m.store.frame f := by
  have he := frameEffect_step h
  refine ⟨⟨Nat.lt_of_lt_of_le hf.lt he.size_le, fun hmem => ?_⟩, he.frame_eq hf.lt hf.not_mem⟩
  rcases he.mem_new hmem with hmem | ⟨rfl, _⟩
  · exact hf.not_mem hmem
  · -- The frame of a call just begun was not there before.
    exact Nat.lt_irrefl _ hf.lt

theorem Spares.reaches (hf : m.Spares f) (h : m.Reaches m') :
    m'.Spares f ∧ m'.store.frame f = m.store.frame f := by
  induction h with
  | refl => exact ⟨hf, rfl⟩
  | tail _ hstep ih =>
    obtain ⟨hspares, heq⟩ := ih.1.step hstep
    exact ⟨hspares, heq.trans ih.2⟩

theorem Reaches.outer_eq (h : m.Reaches m') (hf : f.index < m.store.frames.size) :
    f.index < m'.store.frames.size ∧ (m'.store.frame f).outer = (m.store.frame f).outer := by
  induction h with
  | refl => exact ⟨hf, rfl⟩
  | tail _ hstep ih =>
    have he := frameEffect_step hstep
    exact ⟨Nat.lt_of_lt_of_le ih.1 he.size_le, (he.outer_eq ih.1).trans ih.2⟩

/-- All that is being done is done in frames that are there. -/
def Framed (m : Machine) : Prop := ∀ f ∈ m.scopes, f.index < m.store.frames.size

theorem Framed.step (hm : m.Framed) (h : m.step = some m') : m'.Framed := by
  have he := frameEffect_step h
  intro f hf
  rcases he.mem_new hf with hmem | ⟨rfl, hlt⟩
  · exact Nat.lt_of_lt_of_le (hm f hmem) he.size_le
  · exact hlt

end Machine

end SmallScheme
