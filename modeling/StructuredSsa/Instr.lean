import StructuredSsa.Handle

/-!
# Instructions

Every instruction defines at most one value and is known by that value's
handle. `Op` says what it does; `Instr` adds where it stands, the source line
it came from, and the instructions that read its value.
-/

namespace StructuredSsa

/-- Arithmetic on 64-bit words; all of it wraps. -/
inductive ArithOp where
  | add
  | sub
  | mul
  | div
deriving Repr, DecidableEq

namespace ArithOp

/-- The result on two words. Division truncates toward zero and has no result
for a zero divisor. -/
def eval? (op : ArithOp) (a b : Int64) : Option Int64 :=
  match op with
  | add => some (a + b)
  | sub => some (a - b)
  | mul => some (a * b)
  | div => if b = 0 then none else some (a / b)

/-- The name of an operator in listings. -/
def mnemonic : ArithOp → String
  | add => "add"
  | sub => "sub"
  | mul => "mul"
  | div => "div"

end ArithOp

/-- Comparison of signed words. -/
inductive RelOp where
  | eq
  | ne
  | lt
  | le
  | gt
  | ge
deriving Repr, DecidableEq

namespace RelOp

/-- Whether two words are related. -/
def holds (op : RelOp) (a b : Int64) : Bool :=
  match op with
  | eq => a == b
  | ne => a != b
  | lt => a < b
  | le => a ≤ b
  | gt => b < a
  | ge => b ≤ a

/-- The word a comparison yields: one if it holds, zero if not. -/
def eval (op : RelOp) (a b : Int64) : Int64 := if op.holds a b then 1 else 0

/-- The name of a comparison in listings. -/
def mnemonic : RelOp → String
  | eq => "eq"
  | ne => "ne"
  | lt => "lt"
  | le => "le"
  | gt => "gt"
  | ge => "ge"

end RelOp

/-- What an instruction does. -/
inductive Op where
  | const (n : Int64)
  /-- A formal parameter with its place in the parameter list. -/
  | param (name : String) (index : Nat)
  /-- The value of a variable where paths meet, one operand for each
  predecessor. -/
  | phi (name : String) (operands : List (BlockId × ValueId))
  | arith (op : ArithOp) (lhs rhs : ValueId)
  | compare (op : RelOp) (lhs rhs : ValueId)
  | loadGlobal (name : String)
  | storeGlobal (name : String) (value : ValueId)
  | declareArray (name : String) (sizes : List Int64)
  | arrayBase (name : String)
  /-- The address `offset` elements after `base`. -/
  | index (base offset : ValueId)
  | load (address : ValueId)
  | store (address value : ValueId)
  | call (callee : String) (arguments : List ValueId)
  | read
  | write (value : ValueId)
  | writeLine
  | branch (condition : ValueId) (onTrue onFalse : BlockId)
  | jump (target : BlockId)
  | ret (value : Option ValueId)
deriving Repr, DecidableEq

namespace Op

/-- The values an instruction reads, in operand order. -/
def operands : Op → List ValueId
  | phi _ operands => operands.map (·.2)
  | arith _ lhs rhs | compare _ lhs rhs => [lhs, rhs]
  | storeGlobal _ value | write value => [value]
  | index base offset => [base, offset]
  | load address => [address]
  | store address value => [address, value]
  | call _ arguments => arguments
  | branch condition _ _ => [condition]
  | ret value => value.toList
  | const _ | param _ _ | loadGlobal _ | declareArray _ _ | arrayBase _ | read | writeLine
  | jump _ => []

/-- Change every operand. -/
def mapOperands (f : ValueId → ValueId) : Op → Op
  | phi name operands => phi name (operands.map fun (b, v) => (b, f v))
  | arith op lhs rhs => arith op (f lhs) (f rhs)
  | compare op lhs rhs => compare op (f lhs) (f rhs)
  | storeGlobal name value => storeGlobal name (f value)
  | write value => write (f value)
  | index base offset => index (f base) (f offset)
  | load address => load (f address)
  | store address value => store (f address) (f value)
  | call callee arguments => call callee (arguments.map f)
  | branch condition onTrue onFalse => branch (f condition) onTrue onFalse
  | ret value => ret (value.map f)
  | op => op

/-- Read `new` wherever `old` was read. -/
def substitute (op : Op) (old new : ValueId) : Op :=
  op.mapOperands fun v => if v = old then new else v

/-- Whether an instruction reads a value. -/
def reads (op : Op) (v : ValueId) : Bool := decide (v ∈ op.operands)

@[simp] theorem operands_mapOperands (f : ValueId → ValueId) (op : Op) :
    (op.mapOperands f).operands = op.operands.map f := by
  cases op <;> simp [mapOperands, operands]
  case ret value => cases value <;> rfl

/-- Whether an instruction defines a value that others may read. -/
def hasValue : Op → Bool
  | storeGlobal .. | declareArray .. | store .. | write _ | writeLine | branch .. | jump _
  | ret _ => false
  | _ => true

/-- Whether an instruction ends its block. -/
def isTerminator : Op → Bool
  | branch .. | jump _ | ret _ => true
  | _ => false

/-- The blocks a terminator can go to. -/
def targets : Op → List BlockId
  | branch _ onTrue onFalse => [onTrue, onFalse]
  | jump target => [target]
  | _ => []

/-- The word an instruction defines outright. -/
def constant? : Op → Option Int64
  | const n => some n
  | _ => none

/-- Whether an instruction is a phi. -/
def isPhi : Op → Bool
  | phi .. => true
  | _ => false

end Op

/-- An instruction as the program keeps it. -/
structure Instr where
  op : Op
  /-- The block that lists it; none while it is detached. -/
  owner : Option BlockId
  line : Nat
  /-- The instructions that read its value, each once. -/
  users : List ValueId
deriving Repr, DecidableEq

namespace Instr

/-- Note that `user` reads this value. -/
def addUser (i : Instr) (user : ValueId) : Instr :=
  if user ∈ i.users then i else { i with users := i.users ++ [user] }

/-- Note that `user` no longer reads this value. -/
def dropUser (i : Instr) (user : ValueId) : Instr :=
  { i with users := i.users.filter (· ≠ user) }

@[simp] theorem mem_users_addUser (i : Instr) (u v : ValueId) :
    v ∈ (i.addUser u).users ↔ v ∈ i.users ∨ v = u := by
  unfold addUser
  split <;> simp_all

@[simp] theorem mem_users_dropUser (i : Instr) (u v : ValueId) :
    v ∈ (i.dropUser u).users ↔ v ∈ i.users ∧ v ≠ u := by
  simp [dropUser]

end Instr

end StructuredSsa
