import StructuredSsa.Graph.Edges

/-!
# Reachable blocks

Depth-first search from the entry of a method, and the removal of blocks that
it does not find.
-/

namespace StructuredSsa

namespace Program

/-- The blocks that a search finds with `stack` still to visit and `seen`
behind it, in the order they are found. A block's successors are visited
before what was on the stack. The first argument bounds the number of visits. -/
def explore (p : Program) : Nat → List BlockId → List BlockId → List BlockId
  | 0, _, _ => []
  | _ + 1, [], _ => []
  | n + 1, b :: stack, seen =>
      if b ∈ seen then p.explore n stack seen
      else
        let seen := b :: seen
        b :: p.explore n ((p.succs b).filter (· ∉ seen) ++ stack) seen

/-- The number of edges. -/
def edgeCount (p : Program) : Nat := (p.blocks.toList.flatMap (·.succs)).length

/-- The blocks that can be reached from `start`, in depth-first preorder. Each
visit is the first one or was put on the stack by an edge. -/
def reachableFrom (p : Program) (start : BlockId) : List BlockId :=
  p.explore (p.edgeCount + 1) [start] []

/-- The blocks a method can reach from its entry. -/
def reachable (p : Program) (m : MethodId) : Except Fault (List BlockId) := do
  let r ← p.getMethod m
  return p.reachableFrom r.entry

/-- The blocks of a method that its entry does not reach. -/
def unreachable (p : Program) (m : Method) : List BlockId :=
  let live := p.reachableFrom m.entry
  m.blocks.filter (· ∉ live)

/-- Remove what a method's entry does not reach; how many blocks went. -/
def prune (p : Program) (m : MethodId) : Except Fault (Nat × Program) := do
  let r ← p.getMethod m
  let dead := p.unreachable r
  return (dead.length, dead.foldl dropBlock p)

end Program

end StructuredSsa
