/-!
# Source positions

Lines and columns both count from one, and a column counts characters, not
bytes. `Pos.past` moves a position over a stretch of text.
-/

namespace StructuredSsa

/-- A place in the source text. -/
structure Pos where
  line : Nat
  column : Nat
deriving Repr, DecidableEq

namespace Pos

/-- The first character of a text. -/
def start : Pos := ⟨1, 1⟩

/-- The position after one character: a line feed starts the next line. -/
def next (p : Pos) (c : Char) : Pos :=
  if c = '\n' then ⟨p.line + 1, 1⟩ else ⟨p.line, p.column + 1⟩

/-- The position after a stretch of text. -/
def past (p : Pos) (text : List Char) : Pos := text.foldl next p

/-- Whether `p` comes no later than `q` in reading order. -/
def le (p q : Pos) : Bool :=
  p.line < q.line || (p.line == q.line && p.column ≤ q.column)

@[simp] theorem past_nil (p : Pos) : p.past [] = p := rfl

@[simp] theorem past_cons (p : Pos) (c : Char) (text : List Char) :
    p.past (c :: text) = (p.next c).past text := rfl

/-- Moving over two stretches is moving over one and then the other. -/
theorem past_append (p : Pos) (s t : List Char) : p.past (s ++ t) = (p.past s).past t :=
  List.foldl_append

end Pos

end StructuredSsa
