import SmallScheme.Proofs.Outcome
import SmallScheme.Proofs.World.Read
import SmallScheme.Store.Load

/-!
# Computations on both sides

Two computations, one on each side of a world, are the same if they end alike: both
with a result, both with the same error, or both not at all; and with a world
that comes of the first one, in which the results are the same
(`World.Simulates`). This is proved for each way of making a computation and for
each change of a store, and so carries over to whatever is made of them.
-/

namespace SmallScheme

open StoreM

variable {ε δ α β γ α' β' : Type}

namespace World

variable {W : World} {R : World → α → α' → Prop} {Q : World → β → β' → Prop}

/-- Two computations that began in the world `W` have ended alike, with results that
    are in the relation `R`. -/
inductive Ends (W : World) (R : World → α → α' → Prop) : Outcome ε α → Outcome ε α' → Prop
  | value {W' : World} {a : α} {b : α'} (h : W.Extends W') (hR : R W' a b) :
      Ends W R (.value a W'.left) (.value b W'.right)
  | error {W' : World} (e : ε) (h : W.Extends W') :
      Ends W R (.error e W'.left) (.error e W'.right)
  | unfinished : Ends W R .unfinished .unfinished

/-- Two computations that begin in the world `W` end alike, with results that are in
    the relation `R`. -/
def Simulates (W : World) (R : World → α → α' → Prop) (c : StoreM ε α) (d : StoreM ε α') : Prop :=
  W.Ends R (c.run W.left) (d.run W.right)

/-! ## Ways of making a computation -/

theorem simulates_pure {a : α} {b : α'} (h : R W a b) :
    W.Simulates R (pure a : StoreM ε α) (pure b) :=
  .value (.refl W) h

theorem simulates_fail (e : ε) : W.Simulates R (fail e) (fail e) := .error e (.refl W)

theorem simulates_read {f : Store → α} {g : Store → α'} (h : R W (f W.left) (g W.right)) :
    W.Simulates R (read f : StoreM ε α) (read g) :=
  .value (.refl W) h

theorem simulates_find {f : Store → Option α} {g : Store → Option α'}
    (h : Option.Rel (R W) (f W.left) (g W.right)) :
    W.Simulates R (find f : StoreM ε α) (find g) := by
  rw [Simulates, run_find, run_find]
  generalize f W.left = o at h
  generalize g W.right = o' at h
  cases h with
  | some h => exact .value (.refl W) h
  | none => exact .unfinished

theorem Ends.trans {W' : World} {o : Outcome ε α} {o' : Outcome ε α'} (h : W.Extends W')
    (h' : W'.Ends R o o') : W.Ends R o o' := by
  cases h' with
  | value h' hR => exact .value (h.trans h') hR
  | error e h' => exact .error e (h.trans h')
  | unfinished => exact .unfinished

theorem Simulates.imp {R' : World → α → α' → Prop} {c : StoreM ε α} {d : StoreM ε α'}
    (h : W.Simulates R c d) (hR : ∀ W' a b, W.Extends W' → R W' a b → R' W' a b) :
    W.Simulates R' c d := by
  rw [Simulates] at h ⊢
  generalize c.run W.left = o at h
  generalize d.run W.right = o' at h
  cases h with
  | value h hab => exact .value h (hR _ _ _ h hab)
  | error e h => exact .error e h
  | unfinished => exact .unfinished

/-- One computation after another: the second ones begin in the world to which the
    first ones lead. -/
theorem simulates_bind {c : StoreM ε α} {d : StoreM ε α'} {f : α → StoreM ε β}
    {g : α' → StoreM ε β'} (h : W.Simulates R c d)
    (hf : ∀ W' a b, W.Extends W' → R W' a b → W'.Simulates Q (f a) (g b)) :
    W.Simulates Q (c >>= f) (d >>= g) := by
  rw [Simulates] at h ⊢
  rw [run_bind, run_bind]
  generalize c.run W.left = o at h
  generalize d.run W.right = o' at h
  cases h with
  | value h hab => exact (hf _ _ _ h hab).trans h
  | error e h => exact .error e h
  | unfinished => exact .unfinished

theorem simulates_map {c : StoreM ε α} {d : StoreM ε α'} {f : α → β} {g : α' → β'}
    (h : W.Simulates R c d) (hf : ∀ W' a b, W.Extends W' → R W' a b → Q W' (f a) (g b)) :
    W.Simulates Q (f <$> c) (g <$> d) := by
  rw [map_eq_pure_bind, map_eq_pure_bind]
  exact simulates_bind h fun W' a b hW hab => simulates_pure (hf W' a b hW hab)

theorem simulates_mapError {c : StoreM ε α} {d : StoreM ε α'} (f : ε → δ)
    (h : W.Simulates R c d) : W.Simulates R (mapError f c) (mapError f d) := by
  rw [Simulates] at h ⊢
  rw [run_mapError, run_mapError]
  generalize c.run W.left = o at h
  generalize d.run W.right = o' at h
  cases h with
  | value h hab => exact .value h hab
  | error e h => exact .error (f e) h
  | unfinished => exact .unfinished

/-- What holds in a world goes on to hold. -/
def Lasting (R : World → α → α' → Prop) : Prop :=
  ∀ (W W' : World) (a : α) (b : α'), W.Extends W' → R W a b → R W' a b

theorem lasting_onValue : Lasting fun W => W.rel.OnValue := fun _ _ _ _ h hv => hv.mono h.le

theorem lasting_eq : Lasting fun _ => @Eq α := fun _ _ _ _ _ h => h

theorem Lasting.forall₂ (hR : Lasting R) : Lasting fun W => List.Forall₂ (R W) :=
  fun _ _ _ _ h hab => hab.imp fun _ _ => hR _ _ _ _ h

/-- A list of computations that end alike, wherever those before them have led. -/
theorem simulates_mapM {S : World → γ → γ → Prop} {f : γ → StoreM ε α} {g : γ → StoreM ε α'}
    (hS : Lasting S) (hR : Lasting R) {xs ys : List γ} (h : List.Forall₂ (S W) xs ys)
    (hf : ∀ W' x y, W.Extends W' → S W' x y → W'.Simulates R (f x) (g y)) :
    W.Simulates (fun W => List.Forall₂ (R W)) (xs.mapM f) (ys.mapM g) := by
  induction xs generalizing W ys with
  | nil =>
    cases h
    exact simulates_pure .nil
  | cons x xs ih =>
    cases h with
    | @cons _ y _ ys hxy hrest =>
      rw [List.mapM_cons, List.mapM_cons]
      refine simulates_bind (hf W x y (.refl W) hxy) fun W₁ a b h₁ hab => ?_
      have hrest := ih (hS.forall₂ _ _ _ _ h₁ hrest) fun W' x y h' => hf W' x y (h₁.trans h')
      exact simulates_bind hrest fun W₂ as bs h₂ hrest =>
        simulates_pure (.cons (hR _ _ _ _ h₂ hab) hrest)

/-! ## Changes of the store -/

section Changes

variable {v w v' w' : Value}

theorem simulates_modify {f g : Store → Store} {W' : World} (h : W.Extends W')
    (hleft : W'.left = f W.left) (hright : W'.right = g W.right) :
    W.Simulates (fun _ => Eq) (modify f : StoreM ε Unit) (modify g) := by
  rw [Simulates, run_modify, run_modify, ← hleft, ← hright]
  exact .value h rfl

theorem simulates_create {f : Store → α × Store} {g : Store → α' × Store} {W' : World}
    (h : W.Extends W') (hleft : W'.left = (f W.left).2) (hright : W'.right = (g W.right).2)
    (hR : R W' (f W.left).1 (g W.right).1) :
    W.Simulates R (create f : StoreM ε α) (create g) := by
  rw [Simulates, run_create, run_create, ← hleft, ← hright]
  exact .value h hR

theorem simulates_cons (hv : W.rel.OnValue v v') (hw : W.rel.OnValue w w') :
    W.Simulates (fun W => W.rel.OnValue) (create fun s => s.cons v w : StoreM ε Value)
      (create fun s => s.cons v' w') :=
  have hleft := Store.adds_cons (s := W.left) v w
  have hright := Store.adds_cons (s := W.right) v' w'
  simulates_create (extends_add hleft hright (.pair ⟨hv, hw⟩)) rfl rfl (.pair (.inr ⟨rfl, rfl⟩))

theorem simulates_newClosure {c d : Closure} (h : W.rel.OnClosure c d) :
    W.Simulates (fun W c d => W.rel (.closure c) (.closure d))
      (create fun s => s.newClosure c : StoreM ε ClosureRef) (create fun s => s.newClosure d) :=
  have hleft := Store.adds_newClosure (s := W.left) c
  have hright := Store.adds_newClosure (s := W.right) d
  simulates_create (extends_add hleft hright (.closure h)) rfl rfl (.inr ⟨rfl, rfl⟩)

theorem simulates_newFrame {o o' : Option FrameRef}
    (h : Option.Rel (fun f g => W.rel (.frame f) (.frame g)) o o') :
    W.Simulates (fun W f g => W.rel (.frame f) (.frame g))
      (create fun s => s.newFrame o : StoreM ε FrameRef) (create fun s => s.newFrame o') :=
  have hleft := Store.adds_newFrame (s := W.left) o
  have hright := Store.adds_newFrame (s := W.right) o'
  simulates_create (extends_add hleft hright (.frame ⟨h, .nil⟩)) rfl rfl (.inr ⟨rfl, rfl⟩)

variable {r q : PairRef}

theorem simulates_setCar (h : W.rel (.pair r) (.pair q)) (hv : W.rel.OnValue v w) :
    W.Simulates (fun _ => Eq) (modify fun s => s.setCar r v : StoreM ε Unit)
      (modify fun s => s.setCar q w) := by
  by_cases hr : W.left.Has (.pair r)
  · have hleft := Store.replaces_setCar hr v
    have hright := Store.replaces_setCar ((has_iff h).1 hr) w
    exact simulates_modify (extends_replace h hleft hright (.pair ⟨hv, (onPair h).cdr⟩)) rfl rfl
  · exact simulates_modify (.refl W) (Store.setCar_of_not_has hr v).symm
      (Store.setCar_of_not_has (mt (has_iff h).2 hr) w).symm

theorem simulates_setCdr (h : W.rel (.pair r) (.pair q)) (hv : W.rel.OnValue v w) :
    W.Simulates (fun _ => Eq) (modify fun s => s.setCdr r v : StoreM ε Unit)
      (modify fun s => s.setCdr q w) := by
  by_cases hr : W.left.Has (.pair r)
  · have hleft := Store.replaces_setCdr hr v
    have hright := Store.replaces_setCdr ((has_iff h).1 hr) w
    exact simulates_modify (extends_replace h hleft hright (.pair ⟨(onPair h).car, hv⟩)) rfl rfl
  · exact simulates_modify (.refl W) (Store.setCdr_of_not_has hr v).symm
      (Store.setCdr_of_not_has (mt (has_iff h).2 hr) w).symm

variable {f g : FrameRef}

theorem simulates_define (h : W.rel (.frame f) (.frame g)) (name : String)
    (hv : W.rel.OnValue v w) :
    W.Simulates (fun _ => Eq) (modify fun s => s.define f name v : StoreM ε Unit)
      (modify fun s => s.define g name w) := by
  by_cases hf : W.left.Has (.frame f)
  · have hleft := Store.replaces_define hf name v
    have hright := Store.replaces_define ((has_iff h).1 hf) name w
    have hframe := onFrame h
    exact simulates_modify (extends_replace h hleft hright
      (.frame ⟨hframe.outer, Renaming.insert_onEntries hframe.bindings name hv⟩)) rfl rfl
  · exact simulates_modify (.refl W) (Store.define_of_not_has hf name v).symm
      (Store.define_of_not_has (mt (has_iff h).2 hf) name w).symm

theorem simulates_list {vs ws : List Value} (h : List.Forall₂ W.rel.OnValue vs ws) :
    W.Simulates (fun W => W.rel.OnValue) (create fun s => s.list vs : StoreM ε Value)
      (create fun s => s.list ws) := by
  induction vs generalizing ws with
  | nil =>
    cases h
    exact simulates_create (.refl W) rfl rfl .nil
  | cons v vs ih =>
    cases h with
    | @cons _ w _ ws hv hrest =>
      exact simulates_bind (c := create fun s => s.list vs) (d := create fun s => s.list ws)
        (f := fun tail => create fun s => s.cons v tail)
        (g := fun tail => create fun s => s.cons w tail) (ih hrest)
        fun W' tail tail' h htail => simulates_cons (hv.mono h.le) htail

/-- Names bound one after another. -/
theorem simulates_bindAll (h : W.rel (.frame f) (.frame g)) {b b' : Bindings}
    (hb : List.Forall₂ W.rel.OnEntry b b') :
    W.Simulates (fun _ => Eq)
      (modify fun s => b.foldl (fun s (name, v) => s.define f name v) s : StoreM ε Unit)
      (modify fun s => b'.foldl (fun s (name, v) => s.define g name v) s) := by
  induction b generalizing W b' with
  | nil =>
    cases hb
    exact simulates_modify (.refl W) rfl rfl
  | cons entry b ih =>
    obtain ⟨name, v⟩ := entry
    cases hb with
    | @cons _ entry' _ b' hentry hrest =>
      obtain ⟨name', w⟩ := entry'
      obtain ⟨rfl, hv⟩ : name = name' ∧ W.rel.OnValue v w := hentry
      exact simulates_bind (c := modify fun s => s.define f name v)
        (d := modify fun s => s.define g name w)
        (f := fun _ => modify fun s => b.foldl (fun s (name, v) => s.define f name v) s)
        (g := fun _ => modify fun s => b'.foldl (fun s (name, v) => s.define g name v) s)
        (simulates_define h name hv)
        fun W' _ _ h' _ => ih (h'.le _ _ h) (hrest.imp fun _ _ he => ⟨he.1, he.2.mono h'.le⟩)

/-- A datum stored on both sides. -/
theorem simulates_load (d : Datum) :
    W.Simulates (fun W => W.rel.OnValue) (create fun s => s.load d : StoreM ε Value)
      (create fun s => s.load d) := by
  induction d generalizing W with
  | nil => exact simulates_create (.refl W) rfl rfl .nil
  | integer n => exact simulates_create (.refl W) rfl rfl (.integer n)
  | symbol name => exact simulates_create (.refl W) rfl rfl (.symbol name)
  | pair car cdr ihcar ihcdr =>
    refine simulates_bind (c := create fun s => s.load car) (d := create fun s => s.load car)
      (f := fun first => create (fun s => s.load cdr) >>= fun second =>
        create fun s => s.cons first second)
      (g := fun first => create (fun s => s.load cdr) >>= fun second =>
        create fun s => s.cons first second) ihcar fun W₁ first first' h₁ hfirst => ?_
    exact simulates_bind ihcdr fun W₂ second second' h₂ hsecond =>
      simulates_cons (hfirst.mono h₂.le) hsecond

end Changes

end World

end SmallScheme
