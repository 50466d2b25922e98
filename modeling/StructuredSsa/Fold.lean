import StructuredSsa.Graph.Dominance
import StructuredSsa.Graph.Values

/-!
# Constant folding

A pass visits the instructions of every block once. Arithmetic and comparisons
on two constants become constants; a branch on a constant becomes a jump, and
the edge it no longer takes is removed. A division by the constant zero ends
the pass with an error; what was changed before stays changed.
-/

namespace StructuredSsa

/-- What folding did. -/
structure FoldCount where
  /-- Computations and comparisons that became constants. -/
  folded : Nat
  /-- Branches that became jumps. -/
  simplified : Nat
  /-- Passes made. -/
  passes : Nat
deriving Repr, DecidableEq

namespace FoldCount

/-- Nothing done. -/
def zero : FoldCount := ⟨0, 0, 0⟩

/-- Whether anything was changed. -/
def changed (s : FoldCount) : Bool := 0 < s.folded || 0 < s.simplified

def add (s t : FoldCount) : FoldCount :=
  ⟨s.folded + t.folded, s.simplified + t.simplified, s.passes + t.passes⟩

end FoldCount

/-- Work on a program that can end early; the program as far as it was changed
is kept in either case. -/
abbrev FoldM := EStateM Stop Program

namespace Fold

/-- Ask the program something. -/
def look {α : Type} (f : Program → Except Fault α) : FoldM α := fun p =>
  match f p with
  | .ok a => .ok a p
  | .error e => .error (.fault e) p

/-- Change the program. -/
def edit (f : Program → Except Fault Program) : FoldM Unit := fun p =>
  match f p with
  | .ok p => .ok () p
  | .error e => .error (.fault e) p

/-- Change the program and take a result from that. -/
def editWith {α : Type} (f : Program → Except Fault (α × Program)) : FoldM α := fun p =>
  match f p with
  | .ok (a, p) => .ok a p
  | .error e => .error (.fault e) p

/-- The word a value is known to be, if it is. -/
def constant (v : ValueId) : FoldM (Option Int64) :=
  look fun p => do
    let i ← p.getInstr v
    return i.op.constant?

/-- Put a constant in the place of an instruction and of its value. -/
def replaceByConstant (old : ValueId) (n : Int64) (line : Nat) : FoldM Unit := do
  let c ← editWith fun p => p.create (.const n) line
  edit fun p => p.placeBefore old c
  edit fun p => p.replace old c
  edit fun p => p.removeInstr old

/-- Visit one instruction of a block. -/
def visit (b : BlockId) (count : FoldCount) (v : ValueId) : FoldM FoldCount := do
  let i ← look fun p => p.getInstr v
  match i.op with
  | .arith op lhs rhs =>
      match ← constant lhs, ← constant rhs with
      | some x, some y =>
          match op.eval? x y with
          | some n =>
              replaceByConstant v n i.line
              return { count with folded := count.folded + 1 }
          | none => throw (.error (.divisionByZero i.line))
      | _, _ => return count
  | .compare op lhs rhs =>
      match ← constant lhs, ← constant rhs with
      | some x, some y =>
          replaceByConstant v (op.eval x y) i.line
          return { count with folded := count.folded + 1 }
      | _, _ => return count
  | .branch condition onTrue onFalse =>
      match ← constant condition with
      | some n =>
          let (taken, dropped) := if n = 0 then (onFalse, onTrue) else (onTrue, onFalse)
          edit fun p => p.becomeJump v taken
          edit fun p => p.unlink b dropped
          return { count with simplified := count.simplified + 1 }
      | none => return count
  | _ => return count

/-- Visit the instructions that a block has when the visit begins. -/
def visitBlock (count : FoldCount) (b : BlockId) : FoldM FoldCount := do
  let r ← look fun p => p.getBlock b
  r.body.foldlM (visit b) count

/-- One pass over all blocks of all methods. -/
def pass : FoldM FoldCount := do
  let p ← get
  (p.methods.toList.flatMap (·.blocks)).foldlM visitBlock { FoldCount.zero with passes := 1 }

/-- Passes until one changes nothing, `n + 1` at most. -/
def repeated : Nat → FoldM FoldCount
  | 0 => pass
  | n + 1 => do
      let count ← pass
      if count.changed then
        let later ← repeated n
        return count.add later
      else
        return count

/-- Fold at a given level: not at all, in one pass, or in passes until one
changes nothing. At least one of the allowed passes is made. -/
def run (level maxPasses : Nat) : FoldM FoldCount :=
  match level with
  | 0 => return .zero
  | 1 => pass
  | _ => repeated (maxPasses - 1)

end Fold

end StructuredSsa
