import StructuredSsa.Handle

/-!
# Bindings

Which value each variable holds at some point of the program. Entries are kept
in the order of their names, each name once, so that two bindings that hold
the same are equal.
-/

namespace StructuredSsa

/-- A finite map from variable names to values. -/
structure Bindings where
  entries : List (String × ValueId)
deriving Repr, DecidableEq

namespace Bindings

/-- Nothing is bound. -/
def empty : Bindings := ⟨[]⟩

/-- The name that holds the pending return value of a function. It is a
reserved word, so that no variable read from source text can have it. -/
def returnName : String := "return"

/-- The value bound to a name. -/
def get? (b : Bindings) (name : String) : Option ValueId := b.entries.lookup name

/-- Whether a name is bound. -/
def contains (b : Bindings) (name : String) : Bool := (b.get? name).isSome

/-- Put an entry in its place in name order, over any earlier one. -/
def insertEntry (name : String) (v : ValueId) : List (String × ValueId) → List (String × ValueId)
  | [] => [(name, v)]
  | (key, w) :: rest =>
      if name = key then (name, v) :: rest
      else if name < key then (name, v) :: (key, w) :: rest
      else (key, w) :: insertEntry name v rest

/-- Bind a name to a value. -/
def bind (b : Bindings) (name : String) (v : ValueId) : Bindings :=
  ⟨insertEntry name v b.entries⟩

/-- Let every name that holds `old` hold `new`. -/
def substitute (b : Bindings) (old new : ValueId) : Bindings :=
  ⟨b.entries.map fun (name, v) => (name, if v = old then new else v)⟩

/-! ## Reading changed bindings -/

@[simp] theorem get?_empty (name : String) : empty.get? name = none := rfl

theorem lookup_cons_entry (key name : String) (v : ValueId) (l : List (String × ValueId)) :
    ((name, v) :: l).lookup key = if key = name then some v else l.lookup key := by
  by_cases h : key = name
  · simp [h]
  · have : (key == name) = false := by simp [h]
    simp [List.lookup_cons, this, h]

theorem lookup_insertEntry (name key : String) (v : ValueId) (l : List (String × ValueId)) :
    (insertEntry name v l).lookup key = if key = name then some v else l.lookup key := by
  induction l with
  | nil => simp [insertEntry, lookup_cons_entry]
  | cons e rest ih =>
    obtain ⟨k, w⟩ := e
    unfold insertEntry
    split
    · subst_vars
      simp only [lookup_cons_entry]
      split <;> rfl
    · split
      · simp only [lookup_cons_entry]
      · simp only [lookup_cons_entry, ih]
        split <;> simp_all
        exact fun h => absurd h.symm ‹_›

@[simp] theorem get?_bind (b : Bindings) (name key : String) (v : ValueId) :
    (b.bind name v).get? key = if key = name then some v else b.get? key :=
  lookup_insertEntry name key v b.entries

@[simp] theorem get?_substitute (b : Bindings) (old new : ValueId) (key : String) :
    (b.substitute old new).get? key =
      (b.get? key).map fun v => if v = old then new else v := by
  obtain ⟨l⟩ := b
  simp only [substitute, get?]
  induction l with
  | nil => rfl
  | cons e rest ih =>
    obtain ⟨k, w⟩ := e
    simp only [List.map_cons, lookup_cons_entry, ih]
    split <;> rfl

end Bindings

end StructuredSsa
