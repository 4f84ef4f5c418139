import SmallScheme.Proofs.Reader.Grammar
import SmallScheme.Proofs.Reader.Scan
import SmallScheme.Proofs.Store.Display

/-!
# Printing and reading back

The printer leaves out what comes after an empty list in a chain. Apart from
this, what it prints is read as the value that was printed: the reader makes of
a rendering the datum that the value looks like, cut after each empty list
(`Datum.cut`, `parse_render`). Closures have no form that can be read, and
symbols must be such as can be written.

A rendering is made of tokens that write the cut datum (`Datum.Rendered`), and
the display of a pair of items that make it when brackets stand around them
(`Datum.Listed`). Both are found at once by induction on the datum.
-/

namespace SmallScheme

namespace Datum

/-- The datum without what comes after an empty list, in all chains in it. -/
def cut : Datum → Datum
  | nil => nil
  | integer n => integer n
  | symbol name => symbol name
  | pair car cdr => if car = nil then pair nil nil else pair car.cut cdr.cut

/-- The names of the symbols in it. -/
def symbols : Datum → List String
  | nil | integer _ => []
  | symbol name => [name]
  | pair car cdr => car.symbols ++ cdr.symbols

/-- The rendering is made of tokens that write the datum, cut. -/
def Rendered (d : Datum) : Prop :=
  ∃ ks, ks ≠ [.dot] ∧ Writes ks d.cut ∧
    ∀ rest, Closed rest → Scans (d.tree.render.toList ++ rest) ks rest

/-- The display is made of items, and the list of these is the datum, cut. -/
def Listed (d : Datum) : Prop :=
  ∃ items : List Item, (∀ item ∈ items, Writes item.1 item.2) ∧ ListOf items d.cut ∧
    ∀ rest, Closed rest → Scans (d.tree.display.toList ++ rest) (items.flatMap (·.1)) rest

variable {car cdr d : Datum}

theorem tree_eq_nil_iff : d.tree = .nil ↔ d = nil := by cases d <;> simp [tree]

theorem cut_pair (h : car ≠ nil) (cdr : Datum) : (pair car cdr).cut = pair car.cut cdr.cut :=
  if_neg h

theorem display_pair (h : car ≠ nil) (cdr : Datum) :
    (pair car cdr).tree.display = car.tree.render ++ cdr.tree.linked cdr.tree.display :=
  if_neg fun hnil => h (tree_eq_nil_iff.1 hnil)

theorem not_mem_symbols_chain {name : String} {items : List Datum}
    (h : ∀ d ∈ items, name ∉ d.symbols) : name ∉ (chain items nil).symbols := by
  induction items with
  | nil => exact List.not_mem_nil
  | cons d items ih =>
    obtain ⟨hd, hrest⟩ := List.forall_mem_cons.1 h
    exact fun hmem => (List.mem_append.1 hmem).elim hd (ih hrest)

end Datum

theorem ListOf.cons {items : List Item} {d : Datum} (h : ListOf items d) {item : Item}
    (hitem : item.1 ≠ [.dot]) : ListOf (item :: items) (.pair item.2 d) := by
  cases h with
  | proper hne => exact .proper (List.forall_mem_cons.2 ⟨hitem, hne⟩)
  | dotted front last heq hfront hne =>
    subst heq
    exact .dotted (item :: front) last rfl (List.cons_ne_nil _ _)
      (List.forall_mem_cons.2 ⟨hitem, hne⟩)

namespace Datum

variable {car cdr d : Datum}

/-! ## One datum after another -/

theorem rendered_nil : nil.Rendered := by
  refine ⟨[.openParen, .closeParen], by decide, .list (List.forall_mem_nil _)
    (.proper (List.forall_mem_nil _)), fun rest _ => ?_⟩
  exact (Scans.openParen _).trans (Scans.closeParen rest)

theorem rendered_integer (n : Fixnum) : (integer n).Rendered :=
  ⟨[.integer n], by simp, .integer n, fun _ => Scans.integer n⟩

theorem rendered_symbol {name : String} (h : IsSymbol name.toList) : (symbol name).Rendered :=
  ⟨[.symbol name], by simp, .symbol name, fun _ => Scans.symbol h⟩

/-- The brackets of a pair stand around the items of its display. -/
theorem Listed.rendered (h : (pair car cdr).Listed) : (pair car cdr).Rendered := by
  obtain ⟨items, hitems, hlist, hscans⟩ := h
  refine ⟨_, by simp, .list hitems hlist, fun rest _ => ?_⟩
  have hchars : (pair car cdr).tree.render.toList ++ rest =
      '(' :: ((pair car cdr).tree.display.toList ++ ')' :: rest) := by
    simp [Tree.render, Tree.enclosed, tree]
  rw [hchars, List.cons_append]
  exact (Scans.openParen _).trans ((hscans _ (closed_cons rfl rest)).trans (Scans.closeParen rest))

/-- Nothing comes after an empty list. -/
theorem listed_nil_pair (cdr : Datum) : (pair nil cdr).Listed := by
  obtain ⟨ks, hne, hwrites, hscans⟩ := rendered_nil
  refine ⟨[(ks, nil)], List.forall_mem_singleton.2 hwrites,
    .proper (List.forall_mem_singleton.2 hne), fun rest hrest => ?_⟩
  have htext : (pair nil cdr).tree.display = nil.tree.render := rfl
  simpa [htext] using hscans rest hrest

/-- A last element. -/
theorem Rendered.listed_pair_nil (h : car.Rendered) (hcar : car ≠ nil) :
    (pair car nil).Listed := by
  obtain ⟨ks, hne, hwrites, hscans⟩ := h
  refine ⟨[(ks, car.cut)], List.forall_mem_singleton.2 hwrites, ?_, fun rest hrest => ?_⟩
  · rw [cut_pair hcar]
    exact .proper (List.forall_mem_singleton.2 hne)
  · have hlinked : nil.tree.linked nil.tree.display = "" := rfl
    rw [display_pair hcar, hlinked, String.append_empty]
    simpa using hscans rest hrest

/-- An element before others. -/
theorem Rendered.listed_pair_pair {first rest : Datum} (h : car.Rendered) (hcar : car ≠ nil)
    (hcdr : (pair first rest).Listed) : (pair car (pair first rest)).Listed := by
  obtain ⟨ks, hne, hwrites, hscans⟩ := h
  obtain ⟨items, hitems, hlist, hscans'⟩ := hcdr
  refine ⟨(ks, car.cut) :: items, List.forall_mem_cons.2 ⟨hwrites, hitems⟩, ?_,
    fun rest' hrest => ?_⟩
  · rw [cut_pair hcar]
    exact hlist.cons hne
  · have hlinked : (pair first rest).tree.linked (pair first rest).tree.display =
        " " ++ (pair first rest).tree.display := rfl
    have hchars : (pair car (pair first rest)).tree.display.toList ++ rest' =
        car.tree.render.toList ++ ' ' :: ((pair first rest).tree.display.toList ++ rest') := by
      rw [display_pair hcar, hlinked]
      simp
    rw [hchars]
    exact (hscans _ (closed_cons rfl _)).trans ((Scans.blank rfl _).trans (hscans' rest' hrest))

/-- An element before a tail that is not a list. -/
theorem Rendered.listed_pair_tail (h : car.Rendered) (hcar : car ≠ nil) (hcdr : cdr.Rendered)
    (htail : cdr.tree.linked cdr.tree.display = " . " ++ cdr.tree.render) :
    (pair car cdr).Listed := by
  obtain ⟨ks, hne, hwrites, hscans⟩ := h
  obtain ⟨ks', hne', hwrites', hscans'⟩ := hcdr
  refine ⟨[(ks, car.cut), ([.dot], .dot), (ks', cdr.cut)], ?_, ?_, fun rest hrest => ?_⟩
  · simp [hwrites, hwrites', Writes.dot]
  · rw [cut_pair hcar]
    exact .dotted [(ks, car.cut)] (ks', cdr.cut) rfl (List.cons_ne_nil _ _)
      (List.forall_mem_singleton.2 hne)
  · have hchars : (pair car cdr).tree.display.toList ++ rest =
        car.tree.render.toList ++ ' ' :: '.' :: ' ' :: (cdr.tree.render.toList ++ rest) := by
      rw [display_pair hcar, htail]
      simp
    -- The dot is an item of its own.
    have hdot : Scans (' ' :: '.' :: ' ' :: (cdr.tree.render.toList ++ rest)) (.dot :: ks') rest :=
      (Scans.blank rfl _).trans ((Scans.dot _).trans
        ((Scans.blank rfl _).trans (hscans' rest hrest)))
    rw [hchars]
    simpa using (hscans _ (closed_cons rfl _)).trans hdot

/-! ## All data -/

theorem rendered_and_listed (h : ∀ name ∈ d.symbols, IsSymbol name.toList) :
    d.Rendered ∧ ∀ car cdr, d = pair car cdr → d.Listed := by
  induction d with
  | nil => exact ⟨rendered_nil, by simp⟩
  | integer n => exact ⟨rendered_integer n, by simp⟩
  | symbol name => exact ⟨rendered_symbol (h name List.mem_cons_self), by simp⟩
  | pair car cdr ihcar ihcdr =>
    obtain ⟨hcar, -⟩ := ihcar fun name hmem => h name (List.mem_append_left _ hmem)
    obtain ⟨hcdr, hinside⟩ := ihcdr fun name hmem => h name (List.mem_append_right _ hmem)
    have hlisted : (pair car cdr).Listed := by
      by_cases hnil : car = nil
      · subst hnil
        exact listed_nil_pair cdr
      · -- How the display goes on is decided by the second component.
        cases cdr with
        | nil => exact hcar.listed_pair_nil hnil
        | integer | symbol => exact hcar.listed_pair_tail hnil hcdr rfl
        | pair first rest => exact hcar.listed_pair_pair hnil (hinside first rest rfl)
    exact ⟨hlisted.rendered, fun _ _ _ => hlisted⟩

theorem parse_render_tree (h : ∀ name ∈ d.symbols, IsSymbol name.toList) :
    parse d.tree.render = .ok d.cut := by
  obtain ⟨⟨ks, -, hwrites, hscans⟩, -⟩ := rendered_and_listed h
  have hall := hscans [] closed_nil
  rw [List.append_nil] at hall
  obtain ⟨ts, hts, rfl⟩ := hall.tokenize
  exact hwrites.parse hts

end Datum

/-! ## Values -/

namespace Store

variable {s : Store} {v w : Value} {tree : Tree} {d : Datum}

/-- A value without closures looks like a datum. -/
theorem Unfolds.exists_datum (h : s.Unfolds v tree) (hclosure : ∀ c, ¬ s.Reaches v (.closure c)) :
    ∃ d : Datum, tree = d.tree := by
  induction h with
  | nil => exact ⟨.nil, rfl⟩
  | integer n => exact ⟨.integer n, rfl⟩
  | symbol name => exact ⟨.symbol name, rfl⟩
  | closure c => exact absurd (.refl _) (hclosure c)
  | @pair r _ _ _ _ ihcar ihcdr =>
    obtain ⟨car, rfl⟩ := ihcar fun c hc => hclosure c ((reaches_car r).trans hc)
    obtain ⟨cdr, rfl⟩ := ihcdr fun c hc => hclosure c ((reaches_cdr r).trans hc)
    exact ⟨.pair car cdr, rfl⟩

theorem Unfolds.reaches_symbol (h : s.Unfolds v d.tree) {name : String} (hname : name ∈ d.symbols) :
    s.Reaches v (.symbol name) := by
  induction d generalizing v with
  | nil | integer => exact absurd hname List.not_mem_nil
  | symbol other =>
    cases h
    rw [List.mem_singleton.1 hname]
    exact .refl _
  | pair car cdr ihcar ihcdr =>
    cases h with
    | @pair r _ _ hcar hcdr =>
      rcases List.mem_append.1 hname with hmem | hmem
      · exact (reaches_car r).trans (ihcar hcar hmem)
      · exact (reaches_cdr r).trans (ihcdr hcdr hmem)

/-- All that can be reached from what looks like a datum looks like a part of
    it. -/
theorem Unfolds.datum_of_reaches (h : s.Unfolds v d.tree) (hw : s.Reaches v w) :
    ∃ e : Datum, s.Unfolds w e.tree ∧ e.symbols ⊆ d.symbols := by
  induction hw with
  | refl => exact ⟨d, h, List.Subset.refl _⟩
  | tail _ hlink ih =>
    obtain ⟨e, he, hsub⟩ := ih
    cases e with
    | nil | integer | symbol =>
      cases he
      cases hlink
    | pair car cdr =>
      cases he with
      | pair hcar hcdr =>
        cases hlink with
        | car => exact ⟨car, hcar, List.Subset.trans (List.subset_append_left _ _) hsub⟩
        | cdr => exact ⟨cdr, hcdr, List.Subset.trans (List.subset_append_right _ _) hsub⟩

theorem Unfolds.not_reaches_closure (h : s.Unfolds v d.tree) (c : ClosureRef) :
    ¬ s.Reaches v (.closure c) := by
  intro hc
  obtain ⟨e, he, -⟩ := h.datum_of_reaches hc
  cases e <;> cases he

theorem Unfolds.mem_symbols (h : s.Unfolds v d.tree) {name : String}
    (hname : s.Reaches v (.symbol name)) : name ∈ d.symbols := by
  obtain ⟨e, he, hsub⟩ := h.datum_of_reaches hname
  cases e with
  | symbol other =>
    cases he
    exact hsub List.mem_cons_self
  | nil | integer | pair => cases he

/-- Where no element is the empty list, nothing is cut. -/
theorem Unfolds.cut_eq_self (h : s.Unfolds v d.tree)
    (hcar : ∀ r, s.Reaches v (.pair r) → (s.pair r).car ≠ .nil) : d.cut = d := by
  induction d generalizing v with
  | nil | integer | symbol => rfl
  | pair car cdr ihcar ihcdr =>
    cases h with
    | @pair r _ _ hfirst hsecond =>
      have hne : car ≠ .nil := fun hnil =>
        hcar r (.refl _) (hfirst.eq_nil_iff.2 (Datum.tree_eq_nil_iff.2 hnil))
      rw [Datum.cut_pair hne, ihcar hfirst fun q hq => hcar q ((reaches_car r).trans hq),
        ihcdr hsecond fun q hq => hcar q ((reaches_cdr r).trans hq)]

end Store

/-- An acyclic value without closures, all symbols in which are texts of one token,
    this very symbol, is read back from its rendering: what is read, and what is
    stored for it anywhere, looks like the value, but cut after each element
    that is the empty list; and just like the value if there is none. -/
theorem parse_render {s : Store} {v : Value} (hv : s.Acyclic v)
    (hclosure : ∀ c, ¬ s.Reaches v (.closure c))
    (hname : ∀ name, s.Reaches v (.symbol name) →
      ∃ span, tokenize name = .ok [⟨.symbol name, span⟩]) :
    ∃ (d : Datum) (text : String), s.Unfolds v d.tree ∧ s.render? v = some text ∧
      Datum.parse text = .ok d.cut ∧
      (∀ t : Store, (t.load d.cut).2.Unfolds (t.load d.cut).1 d.cut.tree) ∧
      ((∀ r, s.Reaches v (.pair r) → (s.pair r).car ≠ .nil) → d.cut = d) := by
  obtain ⟨tree, hunfold, hheight⟩ := Store.exists_unfolds_of_acyclic hv
  obtain ⟨d, rfl⟩ := hunfold.exists_datum hclosure
  have hplain : ∀ name ∈ d.symbols, IsSymbol name.toList := by
    intro name hmem
    obtain ⟨span, hspan⟩ := hname name (hunfold.reaches_symbol hmem)
    exact isSymbol_of_tokenize hspan List.mem_cons_self
  exact ⟨d, d.tree.render, hunfold, Store.render?_eq_some hunfold hheight,
    Datum.parse_render_tree hplain, fun t => t.unfolds_load d.cut, hunfold.cut_eq_self⟩

/-- The value `(a (() . b) . -5)` is printed without its `b`, and read back so. -/
theorem parse_render_dotted : ∃ (s : Store) (v : Value), s.Acyclic v ∧
    (∀ c, ¬ s.Reaches v (.closure c)) ∧
    (∀ name, s.Reaches v (.symbol name) → ∃ span, tokenize name = .ok [⟨.symbol name, span⟩]) ∧
    s.Unfolds v (Datum.tree (.pair (.symbol "a")
      (.pair (.pair .nil (.symbol "b")) (.integer ⟨-5, by decide⟩)))) ∧
    s.render? v = some "(a (()) . -5)" ∧
    Datum.parse "(a (()) . -5)" = .ok (.pair (.symbol "a")
      (.pair (.pair .nil .nil) (.integer ⟨-5, by decide⟩))) := by
  have hunfold := Store.empty.unfolds_load (.pair (.symbol "a")
    (.pair (.pair .nil (.symbol "b")) (.integer ⟨-5, by decide⟩)))
  have hname : ∀ name, Store.Reaches _ _ (.symbol name) →
      ∃ span, tokenize name = .ok [⟨.symbol name, span⟩] := fun name hreach => by
    obtain rfl | rfl : name = "a" ∨ name = "b" := by
      simpa [Datum.symbols] using hunfold.mem_symbols hreach
    · exact ⟨⟨0, 1⟩, by cbv⟩
    · exact ⟨⟨0, 1⟩, by cbv⟩
  obtain ⟨d, text, hd, hrender, hparse, -, -⟩ :=
    parse_render hunfold.acyclic hunfold.not_reaches_closure hname
  obtain rfl := Datum.tree_injective (hd.unique hunfold)
  obtain rfl : text = "(a (()) . -5)" := by
    have htext : Store.render? _ _ = some "(a (()) . -5)" :=
      Store.render?_eq_some hunfold (by decide)
    exact Option.some.inj (hrender.symm.trans htext)
  exact ⟨_, _, hunfold.acyclic, hunfold.not_reaches_closure, hname, hunfold, hrender, hparse⟩

end SmallScheme
