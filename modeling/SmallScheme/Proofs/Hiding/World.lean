import SmallScheme.Proofs.Hiding
import SmallScheme.Proofs.RoundTrip
import SmallScheme.Proofs.World.Growth

/-!
# Worlds without a name

If places of two stores stand for each other, they still do when a name is taken out
of both (`World.without`). If the name is neither a symbol nor a parameter at any of these
places (`World.Omits`), both stores avoid it: what is live is what stands for something
(`World.Omits.avoids_left`, `World.Omits.avoids_right`). This goes on to hold when the
stores grow, and when data and closures without the name are made on both sides.
-/

namespace SmallScheme

variable {name : String} {s : Store} {v w : Value}

/-! ## Renamings -/

namespace Renaming

variable {ρ : Renaming}

theorem without_onEntries {b b' : Bindings} (h : List.Forall₂ ρ.OnEntry b b') (name : String) :
    List.Forall₂ ρ.OnEntry (b.without name) (b'.without name) := by
  induction h with
  | nil => exact .nil
  | @cons entry entry' rest rest' h _ ih =>
    obtain ⟨other, v⟩ := entry
    obtain ⟨other', v'⟩ := entry'
    obtain ⟨rfl, hv⟩ : other = other' ∧ ρ.OnValue v v' := h
    by_cases hother : other = name
    · subst hother
      rwa [Bindings.without_cons_self, Bindings.without_cons_self]
    · rw [Bindings.without_cons_of_ne hother, Bindings.without_cons_of_ne hother]
      exact .cons ⟨rfl, hv⟩ ih

theorem OnCell.without {c d : Cell} (h : ρ.OnCell c d) (name : String) :
    ρ.OnCell (c.without name) (d.without name) := by
  cases h with
  | pair h => exact .pair h
  | closure h => exact .closure h
  | frame h => exact .frame ⟨h.outer, without_onEntries h.bindings name⟩

theorem OnValue.flip (h : ρ.OnValue v w) : OnValue (flip ρ) w v := by
  cases h with
  | nil => exact .nil
  | integer n => exact .integer n
  | symbol name => exact .symbol name
  | pair h => exact .pair h
  | closure h => exact .closure h

theorem OnCell.flip {c d : Cell} (h : ρ.OnCell c d) : OnCell (flip ρ) d c := by
  cases h with
  | pair h => exact .pair ⟨h.car.flip, h.cdr.flip⟩
  | closure h =>
    exact .closure ⟨h.params.symm, (h.body.imp fun _ _ h => h.flip).flip, h.scope⟩
  | @frame f g h =>
    refine .frame ⟨?_, (h.bindings.imp fun _ _ h => ⟨h.1.symm, h.2.flip⟩).flip⟩
    obtain ⟨outer, _⟩ := f
    obtain ⟨outer', _⟩ := g
    cases h.outer with
    | some hrel => exact .some hrel
    | none => exact .none

/-- What holds of all elements of a list holds of all that stand for them. -/
theorem forall_mem_of_forall₂ {α β : Type} {R : α → β → Prop} {P : α → Prop} {Q : β → Prop}
    (hPQ : ∀ a b, R a b → P a → Q b) {l : List α} {l' : List β} (h : List.Forall₂ R l l')
    (hl : ∀ a ∈ l, P a) : ∀ b ∈ l', Q b := by
  induction h with
  | nil => exact fun _ hb => nomatch hb
  | cons hab _ ih =>
    obtain ⟨ha, hrest⟩ := List.forall_mem_cons.1 hl
    exact List.forall_mem_cons.2 ⟨hPQ _ _ hab ha, ih hrest⟩

theorem OnCell.omits {c d : Cell} (h : ρ.OnCell c d) (hc : c.Omits name) : d.Omits name := by
  have hvalue : ∀ v w, ρ.OnValue v w → v ≠ .symbol name → w ≠ .symbol name := fun v w h =>
    mt (h.eq_symbol_iff name).2
  cases h with
  | pair h => exact ⟨hvalue _ _ h.car hc.1, hvalue _ _ h.cdr hc.2⟩
  | closure h => exact ⟨h.params ▸ hc.1, forall_mem_of_forall₂ hvalue h.body hc.2⟩
  | frame h => exact forall_mem_of_forall₂ (fun _ _ h => hvalue _ _ h.2) h.bindings hc

end Renaming

/-! ## Stores -/

namespace Store

/-- Where there is nothing, no name is read, and no place but that of the first frame. -/
theorem cell_of_not_has {p : Place} (h : ¬s.Has p) :
    (s.cell p).Omits name ∧ ∀ q, (s.cell p).Mentions q → q = .frame ⟨0⟩ := by
  have hle : s.count p.kind ≤ p.index := Nat.le_of_not_lt h
  cases p with
  | pair r =>
    rw [cell, pair_of_le hle]
    exact ⟨⟨nofun, nofun⟩, fun q hq => by cases hq <;> contradiction⟩
  | closure c =>
    have hdefault : s.closure c = default := by
      have hnone : s.closures[c.index]? = none := Array.getElem?_eq_none hle
      rw [closure, Array.getD_eq_getD_getElem?, hnone, Option.getD_none]
    rw [cell, hdefault]
    refine ⟨⟨List.not_mem_nil, List.forall_mem_nil _⟩, fun q hq => ?_⟩
    obtain ⟨form, hform, -⟩ | rfl := hq
    · exact absurd hform List.not_mem_nil
    · rfl
  | frame f =>
    rw [cell, frame_of_le hle]
    refine ⟨List.forall_mem_nil _, fun q hq => ?_⟩
    obtain ⟨entry, hentry, -⟩ | ⟨g, hg, -⟩ := hq
    · exact absurd hentry List.not_mem_nil
    · cases hg

/-- A store avoids a name that a set of places omits which mention nothing else. -/
theorem avoids_of_closed {A : Place → Prop} (homits : ∀ p, A p → (s.cell p).Omits name)
    (hclosed : ∀ p, A p → ∀ q, (s.cell p).Mentions q → A q) (hscope : A (.frame ⟨0⟩)) :
    s.Avoids name fun p => A p ∨ ¬s.Has p where
  fresh _ := .inr
  cell p hp := by
    obtain hp | hp := hp
    · exact ⟨homits p hp, fun q hq => .inl (hclosed p hp q hq)⟩
    · obtain ⟨hnone, hmentions⟩ := cell_of_not_has hp
      exact ⟨hnone, fun q hq => .inl (hmentions q hq ▸ hscope)⟩

variable {d : Datum}

theorem load_ne_symbol (h : name ∉ d.symbols) : (s.load d).1 ≠ .symbol name := by
  cases d with
  | symbol other =>
    intro heq
    exact h (List.mem_singleton.2 (Value.symbol.inj heq).symm)
  | nil | integer | pair => exact nofun

/-- The pairs of a datum omit a name that does not occur in it. -/
theorem omits_load (h : name ∉ d.symbols) {p : Place} (hp : ¬s.Has p)
    (hp' : (s.load d).2.Has p) : ((s.load d).2.cell p).Omits name := by
  induction d generalizing s with
  | nil | integer | symbol => exact absurd hp' hp
  | pair car cdr ihcar ihcdr =>
    obtain ⟨hcar, hcdr⟩ : name ∉ car.symbols ∧ name ∉ cdr.symbols :=
      not_or.1 (mt List.mem_append.2 h)
    have hadds := adds_cons (s := ((s.load car).2.load cdr).2) (s.load car).1
      ((s.load car).2.load cdr).1
    rw [load] at hp' ⊢
    by_cases hnew : p = .pair ⟨((s.load car).2.load cdr).2.pairs.size⟩
    · rw [hnew, hadds.cell_self]
      exact ⟨load_ne_symbol hcar, load_ne_symbol hcdr⟩
    · -- The pair is one of those of the two components.
      have hold := hadds.has_of_ne hp' hnew
      rw [hadds.cell_of_ne _ hnew]
      by_cases hfirst : (s.load car).2.Has p
      · rw [(grows_load cdr).cell p hfirst]
        exact ihcar hcar hp hfirst
      · exact ihcdr hcdr hfirst hold

end Store

/-! ## Worlds -/

namespace World

variable {W W' : World}

/-- The world in which a name is taken out on both sides. -/
def without (W : World) (name : String) : World where
  left := W.left.without name
  right := W.right.without name
  rel := W.rel
  unique := W.unique
  alike h := by
    rw [Store.cell_without, Store.cell_without]
    exact (W.alike h).without name
  beyond h k := by
    rw [Store.count_without, Store.count_without]
    exact W.beyond h k
  exact_or_nested := by
    have hnested : ∀ {s : Store} {f : FrameRef}, s.Nested f → (s.without name).Nested f :=
      fun hf => ⟨Store.has_without.2 hf.1, fun g hg => hf.2 g (by rwa [Store.frame_without] at hg)⟩
    refine W.exact_or_nested.imp (fun h => ⟨h.eq, fun k => ?_⟩)
      fun h f g hfg => ⟨hnested (h f g hfg).1, hnested (h f g hfg).2⟩
    rw [Store.count_without, Store.count_without, h.count]

theorem leads_without (W : World) (name : String) : W.Leads (W.without name) where
  le := le_refl _
  new _ _ := .inl
  left_count _ := Nat.le_of_eq (Store.count_without _).symm
  right_count _ := Nat.le_of_eq (Store.count_without _).symm

/-- The name is neither a symbol nor a parameter where places stand for each other. -/
def Omits (W : World) (name : String) : Prop := ∀ p q, W.rel p q → (W.left.cell p).Omits name

namespace Omits

variable (h : W.Omits name) (hscope : W.rel (.frame ⟨0⟩) (.frame ⟨0⟩))

include h hscope

theorem avoids_left : W.left.Avoids name fun p => (∃ q, W.rel p q) ∨ ¬W.left.Has p :=
  Store.avoids_of_closed (fun p ⟨q, hpq⟩ => h p q hpq)
    (fun _ ⟨_, hpq⟩ _ hmentions => (W.alike hpq).exists_rel hmentions) ⟨_, hscope⟩

theorem avoids_right : W.right.Avoids name fun q => (∃ p, W.rel p q) ∨ ¬W.right.Has q :=
  Store.avoids_of_closed (fun q ⟨p, hpq⟩ => (W.alike hpq).omits (h p q hpq))
    (fun _ ⟨_, hpq⟩ _ hmentions => (W.alike hpq).flip.exists_rel hmentions) ⟨_, hscope⟩

end Omits

/-- A settled world that omits the name. -/
structure Clean (W : World) (name : String) : Prop extends W.Settled where
  /-- The name is neither a symbol nor a parameter. -/
  omits : W.Omits name

namespace Clean

variable (h : W.Clean name)

include h

theorem grow {s t : Store} (hs : W.left.Grows s) (ht : W.right.Grows t) :
    ∃ W' : World, W'.left = s ∧ W'.right = t ∧ W'.rel = W.rel ∧ W.Leads W' ∧ W'.Clean name := by
  obtain ⟨W', rfl, rfl, hrel, hsettled, hleads⟩ := exists_grown h.toSettled hs ht
  refine ⟨W', rfl, rfl, hrel, hleads, hsettled, fun p q hpq => ?_⟩
  rw [hrel] at hpq
  rw [hs.cell p (h.inside p q hpq).1]
  exact h.omits p q hpq

/-- It is still clean if nothing is changed and what is new omits the name. -/
theorem of_extends (hW : W.Extends W') (hgrows : W.left.Grows W'.left)
    (hnew : ∀ p, ¬W.left.Has p → W'.left.Has p → (W'.left.cell p).Omits name) :
    W'.Clean name where
  toSettled := hW.settled h.toSettled
  omits p q hpq := by
    obtain hpq | ⟨⟨hp, hp'⟩, -⟩ := hW.new p q hpq
    · rw [hgrows.cell p (h.inside p q hpq).1]
      exact h.omits p q hpq
    · exact hnew p hp hp'

/-- A datum stored on both sides. -/
theorem load {d : Datum} (hd : name ∉ d.symbols) :
    ∃ W' : World, W'.left = (W.left.load d).2 ∧ W'.right = (W.right.load d).2 ∧ W.Leads W' ∧
      W'.Clean name ∧ W'.rel.OnValue (W.left.load d).1 (W.right.load d).1 := by
  obtain ⟨W', hleft, hright, hW, hv⟩ := (simulates_load (W := W) (ε := EvalError) d).exists_created
  refine ⟨W', hleft, hright, hW.leads, h.of_extends hW ?_ ?_, hv⟩
  · rw [hleft]
    exact Store.grows_load d
  · rw [hleft]
    exact fun p hp hp' => Store.omits_load hd hp hp'

/-- A closure made on both sides. -/
theorem newClosure {c d : Closure} (hcd : W.rel.OnClosure c d) (hc : (Cell.closure c).Omits name) :
    ∃ W' : World, W'.left = (W.left.newClosure c).2 ∧ W'.right = (W.right.newClosure d).2 ∧
      W.Leads W' ∧ W'.Clean name ∧
      W'.rel (.closure ⟨W.left.closures.size⟩) (.closure ⟨W.right.closures.size⟩) := by
  obtain ⟨W', hleft, hright, hW, hrel⟩ :=
    (simulates_newClosure (ε := EvalError) hcd).exists_created
  have hadds := Store.adds_newClosure (s := W.left) c
  refine ⟨W', hleft, hright, hW.leads, h.of_extends hW ?_ ?_, hrel⟩
  · rw [hleft]
    exact hadds.grows
  · rw [hleft]
    intro p hp hp'
    have hnew : p = .closure (W.left.newClosure c).1 := by
      by_contra hne
      exact hp (hadds.has_of_ne hp' hne)
    rw [hnew, hadds.cell_self]
    exact hc

end Clean

end World

end SmallScheme
