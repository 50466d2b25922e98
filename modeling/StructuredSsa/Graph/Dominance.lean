import StructuredSsa.Error
import StructuredSsa.Graph.Edges

/-!
# Dominators

Blocks point at their immediate dominator. This module reads those pointers:
as a tree per method, as the chain above a block, and for the nearest block
that dominates several. It does not compute dominators.
-/

namespace StructuredSsa

/-- Why a run ended before its result: an error that it reports, or a misuse of
the program it works on. -/
inductive Stop where
  | error (e : Error)
  | fault (f : Fault)
deriving Repr

/-- A misuse ends the run. -/
def Stop.lift {α : Type} : Except Fault α → Except Stop α
  | .ok a => .ok a
  | .error f => .error (.fault f)

namespace DominatorTree

/-- Put an edge behind all that start at the same or an earlier block. -/
def insertEdge (e : BlockId × BlockId) : List (BlockId × BlockId) → List (BlockId × BlockId)
  | [] => [e]
  | f :: rest => if e.1.index < f.1.index then e :: f :: rest else f :: insertEdge e rest

/-- The blocks immediately dominated by `b`, in creation order. -/
def children (t : DominatorTree) (b : BlockId) : List BlockId :=
  (t.edges.filter fun e => e.1 = b).map (·.2)

/-- Walk the tree with `stack` still to visit. The first argument bounds the
number of visits; there is no result if it is used up. -/
def walk (t : DominatorTree) : Nat → List BlockId → Option (List BlockId)
  | _, [] => some []
  | 0, _ :: _ => none
  | n + 1, b :: stack => (t.walk n (t.children b ++ stack)).map (b :: ·)

/-- The blocks of the tree in depth-first preorder. Every block but the root is
at the end of one edge, so a walk that ends makes no more visits than that. A
root that lies on a cycle has no preorder. -/
def preorder? (t : DominatorTree) : Option (List BlockId) :=
  t.walk (t.edges.length + 1) [t.root]

end DominatorTree

namespace Program

/-- The pointer from a block to its immediate dominator, as an edge. -/
def dominatorEdge? (p : Program) (b : BlockId) : Option (BlockId × BlockId) :=
  ((p.block? b).bind (·.dominator)).map fun d => (d, b)

/-- The dominator tree that the pointers of a method's blocks describe now. -/
def treeOf (p : Program) (m : Method) : DominatorTree :=
  { root := m.entry
    edges := (m.blocks.filterMap p.dominatorEdge?).foldl
      (fun edges e => DominatorTree.insertEdge e edges) [] }

/-- The dominator tree of a method as it stands. -/
def buildTree (p : Program) (m : MethodId) : Except Fault DominatorTree := do
  let r ← p.getMethod m
  return p.treeOf r

/-- The dominator tree of a method, from the last request if nothing changed
since; it is kept for the next one. -/
def dominatorTree (p : Program) (m : MethodId) : Except Fault (DominatorTree × Program) := do
  let r ← p.getMethod m
  let t := r.tree.getD (p.treeOf r)
  return (t, p.modifyMethod m fun r => { r with tree := some t })

/-- Whether `a` is among the first `n` blocks of a chain of pointers. -/
def chainHas (p : Program) (a : BlockId) : Nat → Option BlockId → Except Fault Bool
  | 0, _ => .ok false
  | _ + 1, none => .ok false
  | n + 1, some b =>
      if b = a then .ok true
      else do
        let r ← p.getBlock b
        p.chainHas a n r.dominator

/-- Whether `a` is `b` or stands above `b` on its chain of pointers. A chain is
followed for one step more than the method has blocks. -/
def dominates (p : Program) (a b : BlockId) : Except Fault Bool := do
  let r ← p.getBlock b
  let m ← p.getMethod r.method
  p.chainHas a (m.blocks.length + 1) (some b)

/-- The first of at most `n` blocks on a chain of pointers that dominates all
of `bs`. -/
def climb (p : Program) (bs : List BlockId) : Nat → Option BlockId → Except Fault (Option BlockId)
  | 0, _ => .ok none
  | _ + 1, none => .ok none
  | n + 1, some c => do
      if ← bs.allM fun b => p.dominates c b then
        return some c
      else
        let r ← p.getBlock c
        p.climb bs n r.dominator

/-- The nearest block above the first of `bs` that dominates all of them. -/
def nearestDominator (p : Program) (m : MethodId) (bs : List BlockId) : Except Stop BlockId := do
  let r ← Stop.lift (p.getMethod m)
  match bs with
  | [] => throw (.error (.noCommonDominator r.name "empty block set"))
  | first :: _ =>
      let f ← Stop.lift (p.getBlock first)
      match ← Stop.lift (p.climb bs (r.blocks.length + 1) f.dominator) with
      | some c => return c
      | none =>
          throw (.error (.noCommonDominator r.name
            ("dominator chain of " ++ first.text ++ " exhausted")))

end Program

end StructuredSsa
