import SmallScheme.Value

/-!
# Bindings

The bindings of one frame: names with their values, in the order in which the
names were first bound. A name is bound at most once; binding it again replaces
its value.
-/

namespace SmallScheme

/-- Names with their values. -/
abbrev Bindings := List (String × Value)

namespace Bindings

/-- Binds `name` to `v`, in the place of what it was bound to. -/
def insert (name : String) (v : Value) : Bindings → Bindings
  | [] => [(name, v)]
  | (other, w) :: rest =>
    if other = name then (name, v) :: rest else (other, w) :: insert name v rest

/-- The names bound. -/
def names (b : Bindings) : List String := b.map (·.1)

theorem mem_names_iff {name : String} {b : Bindings} :
    name ∈ b.names ↔ (b.lookup name).isSome := by
  simp [names, List.lookup_isSome_iff]

theorem lookup_insert_self (name : String) (v : Value) (b : Bindings) :
    (insert name v b).lookup name = some v := by
  induction b with
  | nil => simp [insert]
  | cons entry rest ih =>
    obtain ⟨other, w⟩ := entry
    by_cases h : other = name
    · simp [insert, h]
    · have h' : (name == other) = false := by simpa using Ne.symm h
      simp [insert, h, List.lookup_cons, h', ih]

theorem lookup_insert_of_ne {name other : String} (v : Value) (b : Bindings) (h : other ≠ name) :
    (insert name v b).lookup other = b.lookup other := by
  have h' : (other == name) = false := by simpa using h
  induction b with
  | nil => simp [insert, List.lookup_cons, h']
  | cons entry rest ih =>
    obtain ⟨bound, w⟩ := entry
    by_cases hb : bound = name
    · subst hb
      simp [insert, List.lookup_cons, h']
    · simp [insert, hb, List.lookup_cons, ih]

end Bindings

end SmallScheme
