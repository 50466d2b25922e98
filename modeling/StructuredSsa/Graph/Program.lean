import StructuredSsa.Graph.Block
import StructuredSsa.Instr
import StructuredSsa.Symbol

/-!
# Programs

A program is three tables (values, blocks, methods) whose entries refer to
each other by handle, and the scope of its global names. Looking up a handle
that the table does not have, or breaking a rule of an editing operation, is a
`Fault`: a mistake of the caller, not a property of the source text.
-/

namespace StructuredSsa

/-- The immediate-dominator pointers of a method, read from the root down: one
edge from each block to each block it immediately dominates, ordered by the
dominating block, then by creation. -/
structure DominatorTree where
  root : BlockId
  edges : List (BlockId × BlockId)
deriving Repr, DecidableEq

/-- What a method is for. -/
inductive MethodKind where
  /-- The body of the computation. -/
  | main
  /-- A method that returns a value. -/
  | function
  /-- A method that returns nothing. -/
  | procedure
deriving Repr, DecidableEq

/-- A method: its blocks and its own names. -/
structure Method where
  name : String
  kind : MethodKind
  /-- The blocks that belong to it, in creation order. -/
  blocks : List BlockId
  /-- Parameters and local variables. -/
  symbols : Scope
  /-- The number of formal parameters. -/
  arity : Nat
  entry : BlockId
  /-- Set when the body is opened. -/
  exit : Option BlockId
  /-- The dominator tree, kept from the last request until the method's graph
  changes. -/
  tree : Option DominatorTree
deriving Repr, DecidableEq

/-- Whether a call of the method yields a value. -/
def Method.returnsValue (m : Method) : Bool := m.kind == .function

/-- A program in SSA form. -/
structure Program where
  methods : Array Method
  globals : Scope
  values : Array Instr
  blocks : Array Block
deriving Repr, DecidableEq

/-- The ways to misuse the operations on a program. What only the assertions of a debug
build stop at counts as well. -/
inductive Fault where
  | noMethod (m : MethodId)
  | noBlock (b : BlockId)
  | noValue (v : ValueId)
  /-- An instruction added to, or new end bindings for, a sealed block. -/
  | sealedBlock (b : BlockId)
  /-- A phi where no paths meet. -/
  | notMerging (b : BlockId)
  /-- An instruction spliced in that already stands in a block. -/
  | attached (v : ValueId)
  /-- An instruction spliced in before one that stands in no block. -/
  | detached (v : ValueId)
  /-- An instruction removed while its value is read. -/
  | inUse (v : ValueId)
deriving Repr, DecidableEq

namespace Program

/-- A program with nothing in it. -/
def empty : Program := ⟨#[], .empty, #[], #[]⟩

/-! ## Looking up -/

def method? (p : Program) (m : MethodId) : Option Method := p.methods[m.index]?

def block? (p : Program) (b : BlockId) : Option Block := p.blocks[b.index]?

def instr? (p : Program) (v : ValueId) : Option Instr := p.values[v.index]?

def getMethod (p : Program) (m : MethodId) : Except Fault Method :=
  match p.method? m with
  | some r => .ok r
  | none => .error (.noMethod m)

def getBlock (p : Program) (b : BlockId) : Except Fault Block :=
  match p.block? b with
  | some r => .ok r
  | none => .error (.noBlock b)

def getInstr (p : Program) (v : ValueId) : Except Fault Instr :=
  match p.instr? v with
  | some r => .ok r
  | none => .error (.noValue v)

/-- The handles of all methods, in creation order. -/
def methodIds (p : Program) : List MethodId := (List.range p.methods.size).map MethodId.mk

/-- The handles of all values, in creation order. -/
def valueIds (p : Program) : List ValueId := (List.range p.values.size).map ValueId.mk

/-- The blocks a method owns. -/
def blocksOf (p : Program) (m : MethodId) : List BlockId :=
  match p.method? m with
  | some r => r.blocks
  | none => []

/-- The edges out of a block. -/
def succs (p : Program) (b : BlockId) : List BlockId :=
  match p.block? b with
  | some r => r.succs
  | none => []

/-- The edges into a block. -/
def preds (p : Program) (b : BlockId) : List BlockId :=
  match p.block? b with
  | some r => r.preds
  | none => []

/-- The phis of a block. -/
def phis (p : Program) (b : BlockId) : List ValueId :=
  match p.block? b with
  | some r => r.phis
  | none => []

/-- The values an instruction reads. -/
def operands (p : Program) (v : ValueId) : List ValueId :=
  match p.instr? v with
  | some i => i.op.operands
  | none => []

/-- The bindings a block leaves with, if it is sealed. -/
def leaving? (p : Program) (b : BlockId) : Option Bindings := (p.block? b).bind (·.after)

/-- The first method with the given name. -/
def methodNamed? (p : Program) (name : String) : Option MethodId :=
  (p.methods.toList.findIdx? fun m => m.name == name).map MethodId.mk

/-- The method that holds the body of the computation. -/
def main? (p : Program) : Option MethodId :=
  (p.methods.toList.findIdx? fun m => m.kind == .main).map MethodId.mk

/-- The word a value is known to be. -/
def constant? (p : Program) (v : ValueId) : Option Int64 :=
  (p.instr? v).bind (·.op.constant?)

/-! ## Changing one entry -/

def modifyMethod (p : Program) (m : MethodId) (f : Method → Method) : Program :=
  { p with methods := p.methods.modify m.index f }

def modifyBlock (p : Program) (b : BlockId) (f : Block → Block) : Program :=
  { p with blocks := p.blocks.modify b.index f }

def modifyInstr (p : Program) (v : ValueId) (f : Instr → Instr) : Program :=
  { p with values := p.values.modify v.index f }

/-! ## What a change leaves -/

@[simp] theorem method?_modifyMethod (p : Program) (m n : MethodId) (f : Method → Method) :
    (p.modifyMethod m f).method? n = if m = n then (p.method? n).map f else p.method? n := by
  cases m; cases n
  simp [modifyMethod, method?, Array.getElem?_modify]

@[simp] theorem block?_modifyMethod (p : Program) (m : MethodId) (f : Method → Method)
    (b : BlockId) : (p.modifyMethod m f).block? b = p.block? b := rfl

@[simp] theorem instr?_modifyMethod (p : Program) (m : MethodId) (f : Method → Method)
    (v : ValueId) : (p.modifyMethod m f).instr? v = p.instr? v := rfl

@[simp] theorem block?_modifyBlock (p : Program) (b c : BlockId) (f : Block → Block) :
    (p.modifyBlock b f).block? c = if b = c then (p.block? c).map f else p.block? c := by
  cases b; cases c
  simp [modifyBlock, block?, Array.getElem?_modify]

@[simp] theorem method?_modifyBlock (p : Program) (b : BlockId) (f : Block → Block)
    (m : MethodId) : (p.modifyBlock b f).method? m = p.method? m := rfl

@[simp] theorem instr?_modifyBlock (p : Program) (b : BlockId) (f : Block → Block)
    (v : ValueId) : (p.modifyBlock b f).instr? v = p.instr? v := rfl

@[simp] theorem instr?_modifyInstr (p : Program) (v w : ValueId) (f : Instr → Instr) :
    (p.modifyInstr v f).instr? w = if v = w then (p.instr? w).map f else p.instr? w := by
  cases v; cases w
  simp [modifyInstr, instr?, Array.getElem?_modify]

@[simp] theorem method?_modifyInstr (p : Program) (v : ValueId) (f : Instr → Instr)
    (m : MethodId) : (p.modifyInstr v f).method? m = p.method? m := rfl

@[simp] theorem block?_modifyInstr (p : Program) (v : ValueId) (f : Instr → Instr)
    (b : BlockId) : (p.modifyInstr v f).block? b = p.block? b := rfl

end Program

end StructuredSsa
