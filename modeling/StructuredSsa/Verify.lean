import StructuredSsa.Graph.Reach

/-!
# Verification

Checks the structure of a program: edges recorded on both ends, dominator
pointers, one terminator per block that agrees with the edges, phis with one
operand per predecessor, and use-lists that match what is read. Blocks that
cannot be reached are warned of.
-/

namespace StructuredSsa

/-- A broken rule of the structure. -/
inductive Finding where
  | entryHasPredecessors (method : String)
  | missingExit (method : String)
  | exitHasSuccessors (method : String)
  /-- An edge that only one of its ends records. -/
  | asymmetricEdge (source target : BlockId)
  | missingDominator (block : BlockId)
  /-- A block without a terminator at its end, or with another one before. -/
  | badTerminator (block : BlockId)
  /-- A terminator whose targets are not the successors. -/
  | targetMismatch (block : BlockId)
  | phiArity (phi : ValueId) (operands predecessors : Nat)
  /-- An instruction that is listed in one block and owned by another. -/
  | wrongOwner (value : ValueId) (block : BlockId)
  | missingUse (value user : ValueId)
  | staleUse (value user : ValueId)
  | detachedOperand (user operand : ValueId)
deriving Repr, DecidableEq

/-- The wording of a finding. -/
def Finding.message : Finding → String
  | entryHasPredecessors method => "Entry block of `" ++ method ++ "` has predecessors"
  | missingExit method => "`" ++ method ++ "` has no exit block"
  | exitHasSuccessors method => "Exit block of `" ++ method ++ "` has successors"
  | asymmetricEdge source target =>
      "Edge " ++ source.text ++ " -> " ++ target.text ++ " is recorded on one side only"
  | missingDominator block => block.text ++ " has no dominator"
  | badTerminator block => block.text ++ " does not end in exactly one terminator"
  | targetMismatch block =>
      "Terminator targets of " ++ block.text ++ " differ from its successors"
  | phiArity phi operands predecessors =>
      "Phi " ++ phi.text ++ " has " ++ toString operands ++ " operand(s) for "
        ++ toString predecessors ++ " predecessor(s)"
  | wrongOwner value block =>
      value.text ++ " is listed in " ++ block.text ++ " but owned elsewhere"
  | missingUse value user => user.text ++ " reads " ++ value.text ++ " but is not in its use-list"
  | staleUse value user =>
      "Use-list of " ++ value.text ++ " names " ++ user.text ++ " which does not read it"
  | detachedOperand user operand => user.text ++ " reads detached value " ++ operand.text

/-- A finding, if a condition holds. -/
def Finding.when (c : Bool) (f : Finding) : List Finding := if c then [f] else []

/-- A block that the entry of its method does not reach. -/
structure DeadBlock where
  block : BlockId
  method : String
deriving Repr, DecidableEq

/-- The wording of the warning for a block that cannot be reached. -/
def DeadBlock.message (d : DeadBlock) : String :=
  d.block.text ++ " in `" ++ d.method ++ "` is unreachable"

/-- How large a program is. -/
structure Size where
  methods : Nat
  blocks : Nat
  /-- Instructions that stand in a block, phis included. -/
  instrs : Nat
  phis : Nat
deriving Repr, DecidableEq

/-- The outcome of a verification. -/
structure Report where
  valid : Bool
  findings : List Finding
  warnings : List DeadBlock
  size : Size
deriving Repr, DecidableEq

namespace Program

/-! ## One block -/

/-- Edges at a block that the other end does not record. -/
def edgeFindings (p : Program) (b : BlockId) (r : Block) : List Finding :=
  (r.succs.filter fun s => b ∉ p.preds s).map (Finding.asymmetricEdge b)
    ++ (r.preds.filter fun q => b ∉ p.succs q).map (Finding.asymmetricEdge · b)

/-- Whether two lists have the same members. -/
def sameMembers (xs ys : List BlockId) : Bool :=
  xs.all (fun x => decide (x ∈ ys)) && ys.all (fun y => decide (y ∈ xs))

/-- What the instructions of a block do, in order. -/
def opsOf (p : Program) (vs : List ValueId) : List Op :=
  vs.filterMap fun v => (p.instr? v).map (·.op)

/-- The terminator stands last, alone, and goes where the edges go. -/
def terminatorFindings (p : Program) (b : BlockId) (r : Block) : List Finding :=
  let ops := p.opsOf r.body
  match ops.getLast? with
  | some op =>
      if (ops.filter Op.isTerminator).length = 1 && op.isTerminator then
        Finding.when (!sameMembers op.targets r.succs) (.targetMismatch b)
      else [.badTerminator b]
  | none => [.badTerminator b]

/-- A phi has one operand for each predecessor. -/
def phiFindings (p : Program) (r : Block) : List Finding :=
  r.phis.flatMap fun v =>
    match p.instr? v with
    | some ⟨.phi _ operands, _, _, _⟩ =>
        Finding.when (operands.length != r.preds.length) (.phiArity v operands.length r.preds.length)
    | _ => []

/-- What an instruction reads stands in a block and lists it as a user. -/
def operandFindings (p : Program) (v operand : ValueId) : List Finding :=
  match p.instr? operand with
  | some d =>
      Finding.when d.owner.isNone (.detachedOperand v operand)
        ++ Finding.when (decide (v ∉ d.users)) (.missingUse operand v)
  | none => []

/-- An instruction is owned by the block that lists it, and the use-lists on
both sides of it are right. -/
def instrFindings (p : Program) (b : BlockId) (v : ValueId) : List Finding :=
  match p.instr? v with
  | some i =>
      Finding.when (i.owner != some b) (.wrongOwner v b)
        ++ i.op.operands.flatMap (p.operandFindings v)
        ++ (i.users.filter fun u => v ∉ p.operands u).map (Finding.staleUse v)
  | none => []

/-- Everything wrong with one block. -/
def blockFindings (p : Program) (b : BlockId) (r : Block) : List Finding :=
  p.edgeFindings b r
    ++ Finding.when (!r.isEntry && r.dominator.isNone) (.missingDominator b)
    ++ p.terminatorFindings b r
    ++ p.phiFindings r
    ++ r.contents.flatMap (p.instrFindings b)

/-! ## Methods and programs -/

/-- What is wrong with the two ends of a method. The exit block is looked up. -/
def endFindings (p : Program) (m : Method) : Except Fault (List Finding) := do
  let atEntry := Finding.when (!(p.preds m.entry).isEmpty) (.entryHasPredecessors m.name)
  match m.exit with
  | none => return atEntry ++ [.missingExit m.name]
  | some exit =>
      let r ← p.getBlock exit
      return atEntry ++ Finding.when (!r.succs.isEmpty) (.exitHasSuccessors m.name)

/-- The blocks of a method with their handles. -/
def listed (p : Program) (m : Method) : List (BlockId × Block) :=
  m.blocks.filterMap fun b => (p.block? b).map fun r => (b, r)

/-- Everything wrong with a method. -/
def methodFindings (p : Program) (m : Method) : Except Fault (List Finding) := do
  let ends ← p.endFindings m
  return ends ++ (p.listed m).flatMap fun (b, r) => p.blockFindings b r

/-- The blocks of a program that cannot be reached. -/
def deadBlocks (p : Program) : List DeadBlock :=
  p.methods.toList.flatMap fun m => (p.unreachable m).map fun b => ⟨b, m.name⟩

/-- How large a program is. -/
def size (p : Program) : Size :=
  let blocks := (p.methods.toList.flatMap p.listed).map (·.2)
  { methods := p.methods.size
    blocks := blocks.length
    instrs := (blocks.flatMap (·.contents)).length
    phis := (blocks.flatMap (·.phis)).length }

/-- Check a program. A strict check does not put up with warnings. -/
def verify (p : Program) (strict : Bool) : Except Fault Report := do
  let findings ← p.methods.toList.mapM p.methodFindings
  let findings := findings.flatten
  let warnings := p.deadBlocks
  return {
    valid := findings.isEmpty && (!strict || warnings.isEmpty)
    findings := findings
    warnings := warnings
    size := p.size }

end Program

end StructuredSsa
