/-!
# Declared names

A scope lists the names it declares in order of declaration; the first
declaration of a name stands. Arrays are laid out with the last index running
fastest, and all sizes and strides are 64-bit words that wrap.
-/

namespace StructuredSsa

/-- What a declared name denotes. -/
inductive Shape where
  | scalar
  /-- An array with the given sizes, outermost first. -/
  | array (sizes : List Int64)
deriving Repr, DecidableEq

namespace Shape

/-- The product of some sizes. -/
def volume (sizes : List Int64) : Int64 := sizes.foldl (· * ·) 1

/-- How far apart two neighbours along each dimension lie. Along the last one it is
one, and along any other one as far as the next dimension reaches. -/
def stridesOf : List Int64 → List Int64
  | [] => []
  | [_] => [1]
  | _ :: size :: deeper =>
      let strides := stridesOf (size :: deeper)
      strides.headD 1 * size :: strides

/-- The strides of a shape, outermost first. -/
def strides : Shape → List Int64
  | scalar => []
  | array sizes => stridesOf sizes

/-- The number of elements of a shape. -/
def elementCount : Shape → Int64
  | scalar => 1
  | array sizes => volume sizes

end Shape

/-- A declared name. -/
structure Symbol where
  name : String
  shape : Shape
  /-- Whether the name is a formal parameter. -/
  isParameter : Bool
  line : Nat
deriving Repr, DecidableEq

/-- The names declared in one scope, in order of declaration. -/
structure Scope where
  symbols : List Symbol
deriving Repr, DecidableEq

namespace Scope

/-- A scope that declares nothing. -/
def empty : Scope := ⟨[]⟩

/-- What a name denotes here. -/
def find? (s : Scope) (name : String) : Option Symbol := s.symbols.find? fun d => d.name == name

/-- Whether a name is declared here. -/
def contains (s : Scope) (name : String) : Bool := (s.find? name).isSome

/-- Declare a name, unless it is declared already. -/
def declare (s : Scope) (d : Symbol) : Scope :=
  if s.contains d.name then s else ⟨s.symbols ++ [d]⟩

/-- The scalars declared here, in order. -/
def scalars (s : Scope) : List String :=
  (s.symbols.filter fun d => d.shape == .scalar).map (·.name)

/-- The first declaration of a name stands. -/
theorem find?_declare (s : Scope) (d : Symbol) (name : String) :
    (s.declare d).find? name = (s.find? name).or (if d.name = name then some d else none) := by
  unfold declare contains find?
  split <;> rename_i h
  · by_cases hn : d.name = name
    · subst hn
      obtain ⟨e, he⟩ := Option.isSome_iff_exists.1 h
      simp [he]
    · simp [hn]
  · by_cases hn : d.name = name <;> simp [List.find?_append, hn]

theorem contains_declare (s : Scope) (d : Symbol) (name : String) :
    (s.declare d).contains name = (s.contains name || decide (d.name = name)) := by
  unfold contains
  rw [find?_declare]
  by_cases hn : d.name = name <;> simp [hn]

theorem mem_declare {s : Scope} {d e : Symbol} (h : e ∈ (s.declare d).symbols) :
    e ∈ s.symbols ∨ e = d := by
  unfold declare at h
  split at h
  · exact Or.inl h
  · simpa using h

end Scope

end StructuredSsa
