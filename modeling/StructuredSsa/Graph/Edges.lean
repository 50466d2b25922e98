import StructuredSsa.Graph.Uses

/-!
# Methods, blocks and edges

The operations that shape the control-flow graph. An edge is recorded on both
of its ends, once. Whatever may change a method's dominator tree forgets the
tree that is kept for it.
-/

namespace StructuredSsa

namespace Program

/-! ## Methods and blocks -/

/-- Add a method together with its entry block. -/
def addMethod (p : Program) (name : String) (kind : MethodKind) : MethodId × Program :=
  let m : MethodId := ⟨p.methods.size⟩
  let entry : BlockId := ⟨p.blocks.size⟩
  (m, { p with
    blocks := p.blocks.push (.new m (.entry []))
    methods := p.methods.push ⟨name, kind, [entry], .empty, 0, entry, none, none⟩ })

/-- Add a block to a method. -/
def newBlock (p : Program) (m : MethodId) (kind : BlockKind) : Except Fault (BlockId × Program) := do
  let _ ← p.getMethod m
  let b : BlockId := ⟨p.blocks.size⟩
  let p := { p with blocks := p.blocks.push (.new m kind) }
  return (b, p.modifyMethod m fun r => { r with blocks := r.blocks ++ [b], tree := none })

/-- Choose the exit block of a method. -/
def setExit (p : Program) (m : MethodId) (exit : Option BlockId) : Except Fault Program := do
  let _ ← p.getMethod m
  return p.modifyMethod m fun r => { r with exit := exit }

/-- Forget the dominator tree kept for the method of a block. -/
def forgetTree (p : Program) (b : BlockId) : Program :=
  match p.block? b with
  | some r => p.modifyMethod r.method fun m => { m with tree := none }
  | none => p

/-- Record the bindings on entry to a block. -/
def setBefore (p : Program) (b : BlockId) (bindings : Bindings) : Except Fault Program := do
  let _ ← p.getBlock b
  return p.modifyBlock b fun r => { r with before := some bindings }

/-- Record the bindings a block leaves with. This happens once. -/
def sealBlock (p : Program) (b : BlockId) (bindings : Bindings) : Except Fault Program := do
  let r ← p.getBlock b
  if r.isSealed then throw (.sealedBlock b)
  return p.modifyBlock b fun r => { r with after := some bindings }

/-- Point a block at its immediate dominator. -/
def setDominator (p : Program) (b dominator : BlockId) : Except Fault Program := do
  let _ ← p.getBlock b
  return (p.modifyBlock b fun r => { r with dominator := some dominator }).forgetTree b

/-- List a value among the parameters of an entry block; other blocks have
none. -/
def addParameter (p : Program) (b : BlockId) (v : ValueId) : Except Fault Program := do
  let _ ← p.getBlock b
  return p.modifyBlock b fun r =>
    match r.kind with
    | .entry parameters => { r with kind := .entry (parameters ++ [v]) }
    | _ => r

/-! ## Edges -/

/-- Add the edge from `source` to `target`. -/
def link (p : Program) (source target : BlockId) : Except Fault Program := do
  let _ ← p.getBlock source
  let _ ← p.getBlock target
  return ((p.modifyBlock source (·.addSucc target)).modifyBlock target
    (·.addPred source)).forgetTree source

/-- Drop what a phi reads along edges from `source`. -/
def dropPhiOperand (p : Program) (source : BlockId) (phi : ValueId) : Program :=
  match p.instr? phi with
  | some ⟨.phi _ operands, _, _, _⟩ => p.assignPhi phi (operands.filter (·.1 ≠ source))
  | _ => p

/-- Take the edge from `source` to `target` away, with the phi operands that
came along it. -/
def removeEdge (p : Program) (source target : BlockId) : Program :=
  let p := (p.modifyBlock source (·.dropSucc target)).modifyBlock target (·.dropPred source)
  let p := (p.phis target).foldl (fun p phi => p.dropPhiOperand source phi) p
  p.forgetTree source

/-- `removeEdge`, after looking up both ends. -/
def unlink (p : Program) (source target : BlockId) : Except Fault Program := do
  let _ ← p.getBlock source
  let _ ← p.getBlock target
  return p.removeEdge source target

/-! ## Removing blocks -/

/-- Take an instruction out of its block and out of all use-lists, its own
included. The lists of the block itself are left to the caller. -/
def detach (p : Program) (v : ValueId) : Program :=
  (p.dropUses v).modifyInstr v fun i => { i with owner := none, users := [] }

/-- Take a block out of its method: its contents are detached, then its edges
are removed, then its lists are emptied. -/
def dropBlock (p : Program) (b : BlockId) : Program :=
  match p.block? b with
  | none => p
  | some r =>
      let p := r.contents.foldl detach p
      let p := r.succs.foldl (fun p s => p.removeEdge b s) p
      let p := r.preds.foldl (fun p q => p.removeEdge q b) p
      let p := p.modifyBlock b fun r => { r with phis := [], body := [] }
      p.modifyMethod r.method fun m => { m with blocks := m.blocks.filter (· ≠ b), tree := none }

/-- `dropBlock`, after looking the block up. -/
def removeBlock (p : Program) (b : BlockId) : Except Fault Program := do
  let _ ← p.getBlock b
  return p.dropBlock b

end Program

end StructuredSsa
