import StructuredSsa.Graph.Program

/-!
# Use-lists

Every value lists the instructions that read it, each once. The operations
here enter an instruction in the lists of its operands and strike it out; all
editing of operands goes through them.
-/

namespace StructuredSsa

/-- Give a phi new operands; other instructions have none to give. -/
def Instr.withPhiOperands (i : Instr) (operands : List (BlockId × ValueId)) : Instr :=
  match i.op with
  | .phi name _ => { i with op := .phi name operands }
  | _ => i

namespace Program

/-- Enter `v` in the use-list of everything it reads. -/
def addUses (p : Program) (v : ValueId) : Program :=
  (p.operands v).foldl (fun p o => p.modifyInstr o (·.addUser v)) p

/-- Strike `v` from the use-list of everything it reads. -/
def dropUses (p : Program) (v : ValueId) : Program :=
  (p.operands v).foldl (fun p o => p.modifyInstr o (·.dropUser v)) p

/-- The first of some values that the program does not have. -/
def missing? (p : Program) (vs : List ValueId) : Option ValueId :=
  vs.find? fun v => (p.instr? v).isNone

/-- Add an instruction to the table. It is there before its operands are looked
up, so it may read itself. -/
def addInstr (p : Program) (op : Op) (owner : Option BlockId) (line : Nat) :
    Except Fault (ValueId × Program) :=
  let v : ValueId := ⟨p.values.size⟩
  let p := { p with values := p.values.push ⟨op, owner, line, []⟩ }
  match p.missing? op.operands with
  | some o => .error (.noValue o)
  | none => .ok (v, p.addUses v)

/-- Let an instruction read new phi operands, and bring the use-lists in line.
Something that is no phi keeps its operands, but moves to the end of their
use-lists. -/
def assignPhi (p : Program) (phi : ValueId) (operands : List (BlockId × ValueId)) : Program :=
  ((p.dropUses phi).modifyInstr phi (·.withPhiOperands operands)).addUses phi

/-- `assignPhi`, after looking up everything involved. -/
def updatePhi (p : Program) (phi : ValueId) (operands : List (BlockId × ValueId)) :
    Except Fault Program := do
  let i ← p.getInstr phi
  match p.missing? (i.withPhiOperands operands).op.operands with
  | some o => .error (.noValue o)
  | none => .ok (p.assignPhi phi operands)

end Program

end StructuredSsa
