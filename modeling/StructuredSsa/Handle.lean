/-!
# Handles of values, blocks and methods

A program keeps its values, blocks and methods in three tables and refers to
an entry by its place there. Each table has a handle type of its own, so that
a block cannot be looked up where a value is meant. Handles are given out in
creation order: a smaller index was created earlier. Indices have no bound, so
a table may hold more entries than words of 32 bits could tell apart.
-/

namespace StructuredSsa

/-- Handle of a value, that is, of the instruction that defines it. -/
structure ValueId where
  index : Nat
deriving Repr, DecidableEq

/-- Handle of a basic block. -/
structure BlockId where
  index : Nat
deriving Repr, DecidableEq

/-- Handle of a method. -/
structure MethodId where
  index : Nat
deriving Repr, DecidableEq

/-- Values are written `v0`, `v1`, ... -/
def ValueId.text (v : ValueId) : String := "v" ++ toString v.index

/-- Blocks are written `b0`, `b1`, ... -/
def BlockId.text (b : BlockId) : String := "b" ++ toString b.index

/-- Methods are written `m0`, `m1`, ... -/
def MethodId.text (m : MethodId) : String := "m" ++ toString m.index

end StructuredSsa
