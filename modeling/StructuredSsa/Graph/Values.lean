import StructuredSsa.Graph.Uses

/-!
# Instructions in a program

The operations that create, move, replace and remove instructions. Each looks
up whatever it is given before it changes anything.
-/

namespace StructuredSsa

/-- Put `v` right before the first `anchor` of a list, or at its end. -/
def insertBefore (anchor v : ValueId) : List ValueId → List ValueId
  | [] => [v]
  | w :: rest => if w = anchor then v :: w :: rest else w :: insertBefore anchor v rest

namespace Program

/-! ## Creating -/

/-- Add an instruction at the end of a block that is not sealed. -/
def emit (p : Program) (b : BlockId) (op : Op) (line : Nat) : Except Fault (ValueId × Program) := do
  let r ← p.getBlock b
  if r.isSealed then throw (.sealedBlock b)
  let (v, p) ← p.addInstr op (some b) line
  return (v, p.modifyBlock b fun r => { r with body := r.body ++ [v] })

/-- Add an instruction that stands in no block. -/
def create (p : Program) (op : Op) (line : Nat) : Except Fault (ValueId × Program) :=
  p.addInstr op none line

/-- Add a phi to a block where paths meet. -/
def addPhi (p : Program) (b : BlockId) (name : String) (operands : List (BlockId × ValueId))
    (line : Nat) : Except Fault (ValueId × Program) := do
  let r ← p.getBlock b
  if !r.kind.merges then throw (.notMerging b)
  let (v, p) ← p.addInstr (.phi name operands) (some b) line
  return (v, p.modifyBlock b fun r => { r with phis := r.phis ++ [v] })

/-! ## Moving, replacing, removing -/

/-- Put a detached instruction right before `anchor`. Before a phi means at the
end of the ordinary instructions. -/
def placeBefore (p : Program) (anchor v : ValueId) : Except Fault Program := do
  let i ← p.getInstr v
  if i.owner.isSome then throw (.attached v)
  let a ← p.getInstr anchor
  match a.owner with
  | none => throw (.detached anchor)
  | some b =>
      return (p.modifyBlock b fun r => { r with body := insertBefore anchor v r.body }).modifyInstr v
        fun i => { i with owner := some b }

/-- Let `user` read `new` instead of `old`, and list it with the users of
`new`. -/
def redirectUse (old new : ValueId) (p : Program) (user : ValueId) : Program :=
  (p.modifyInstr user fun i => { i with op := i.op.substitute old new }).modifyInstr new
    (·.addUser user)

/-- Let everything read `new` that read `old`: the listed users and the
bindings recorded on blocks. -/
def redirect (p : Program) (old new : ValueId) : Program :=
  match p.instr? old with
  | none => p
  | some i =>
      let p := p.modifyInstr old fun i => { i with users := [] }
      let p := i.users.foldl (redirectUse old new) p
      { p with blocks := p.blocks.map (·.substitute old new) }

/-- `redirect` after looking up `old`, and `new` if there is a use to redirect.
Nothing happens when the two are the same. -/
def replace (p : Program) (old new : ValueId) : Except Fault Program :=
  if old = new then .ok p
  else do
    let i ← p.getInstr old
    if !i.users.isEmpty then
      let _ ← p.getInstr new
    return p.redirect old new

/-- Take an instruction out of the block that lists it. -/
def unlist (p : Program) (v : ValueId) : Program :=
  match (p.instr? v).bind (·.owner) with
  | none => p
  | some b =>
      (p.modifyInstr v fun i => { i with owner := none }).modifyBlock b fun r =>
        { r with body := r.body.filter (· ≠ v), phis := r.phis.filter (· ≠ v) }

/-- Remove an instruction whose value nothing reads. -/
def removeInstr (p : Program) (v : ValueId) : Except Fault Program := do
  let i ← p.getInstr v
  if !i.users.isEmpty then throw (.inUse v)
  return (p.dropUses v).unlist v

/-- Turn a branch into a jump. The value keeps its handle and its place. -/
def becomeJump (p : Program) (v : ValueId) (target : BlockId) : Except Fault Program := do
  let _ ← p.getInstr v
  return (p.dropUses v).modifyInstr v fun i => { i with op := .jump target }

end Program

end StructuredSsa
