import StructuredSsa.Graph.Program

/-!
# Listings

The textual form of a program: a line per method, a line per block with its
edges and its immediate dominator, and a line per instruction.
-/

namespace StructuredSsa

/-- Several names with commas between them. -/
def commaList (names : List String) : String := String.intercalate ", " names

namespace Op

/-- A phi operand with the block it comes from. -/
def phiOperandText (operand : BlockId × ValueId) : String :=
  "[" ++ operand.1.text ++ ": " ++ operand.2.text ++ "]"

/-- What an instruction does, as a listing shows it. -/
def text : Op → String
  | const n => "const " ++ toString n.toInt
  | param name place => "param #" ++ toString place ++ " " ++ name
  | phi name operands =>
      "phi " ++ name ++ " " ++ String.intercalate " " (operands.map phiOperandText)
  | arith op lhs rhs => op.mnemonic ++ " " ++ lhs.text ++ " " ++ rhs.text
  | compare op lhs rhs => "cmp." ++ op.mnemonic ++ " " ++ lhs.text ++ " " ++ rhs.text
  | loadGlobal name => "ldg " ++ name
  | storeGlobal name value => "stg " ++ name ++ " " ++ value.text
  | declareArray name sizes =>
      "array " ++ name ++ String.join (sizes.map fun n => "[" ++ toString n.toInt ++ "]")
  | arrayBase name => "base " ++ name
  | index base offset => "adda " ++ base.text ++ " " ++ offset.text
  | load address => "load " ++ address.text
  | store address value => "store " ++ address.text ++ " " ++ value.text
  | call callee arguments =>
      "call " ++ callee ++ "(" ++ commaList (arguments.map ValueId.text) ++ ")"
  | read => "read"
  | write value => "write " ++ value.text
  | writeLine => "writeNL"
  | branch condition onTrue onFalse =>
      "br " ++ condition.text ++ " " ++ onTrue.text ++ " " ++ onFalse.text
  | jump target => "bra " ++ target.text
  | ret (some value) => "ret " ++ value.text
  | ret none => "ret"

/-- An instruction under its handle: an equals sign where it defines a value, a
colon where it does not. -/
def line (op : Op) (v : ValueId) : String :=
  v.text ++ (if op.hasValue then " = " else ": ") ++ op.text

end Op

/-- The word for a kind of method. -/
def MethodKind.text : MethodKind → String
  | main => "Main"
  | function => "Function"
  | procedure => "Procedure"

namespace Program

/-- The line for a value. -/
def instrLine (p : Program) (v : ValueId) : Except Fault String := do
  let i ← p.getInstr v
  return i.op.line v

/-- The lines for several values. -/
def instrLines (p : Program) (vs : List ValueId) : List String :=
  vs.filterMap fun v => (p.instr? v).map fun i => i.op.line v

/-- The first line of a block. -/
def blockHeader (b : BlockId) (r : Block) : String :=
  "  " ++ r.label b ++ ": preds [" ++ commaList (r.preds.map BlockId.text) ++ "] succs ["
    ++ commaList (r.succs.map BlockId.text) ++ "] idom "
    ++ (match r.dominator with
      | some d => d.text
      | none => "-")
    ++ "\n"

/-- The listing of a block. -/
def blockListing (p : Program) (b : BlockId) (r : Block) : String :=
  blockHeader b r ++ String.join ((p.instrLines r.contents).map fun l => "    " ++ l ++ "\n")

/-- The listing of one block. -/
def listBlock (p : Program) (b : BlockId) : Except Fault String := do
  let r ← p.getBlock b
  return p.blockListing b r

/-- The listing of the blocks of a method, one after the other. -/
def blockListings (p : Program) (bs : List BlockId) : List String :=
  bs.filterMap fun b => (p.block? b).map fun r => p.blockListing b r

/-- The listing of a method. -/
def methodListing (p : Program) (m : Method) : String :=
  "method " ++ m.name ++ " (" ++ m.kind.text ++ ", " ++ toString m.arity ++ " param(s))\n"
    ++ String.join (p.blockListings m.blocks) ++ "\n"

/-- The listing of the whole program. -/
def listing (p : Program) : String := String.join (p.methods.toList.map p.methodListing)

end Program

end StructuredSsa
