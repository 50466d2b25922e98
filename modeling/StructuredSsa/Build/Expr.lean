import StructuredSsa.Build.Monad

/-!
# Building expressions

Instructions for expressions are added at the cursor, operands first. Only
calls change what is bound: the body of the computation keeps its globals as
values, writes them to memory before a call and reads them back behind it.
-/

namespace StructuredSsa

namespace Build

open Syntax

/-! ## Calls -/

/-- Check the number of arguments. -/
def checkArguments (callee : String) (pos : Pos) (declared given : Nat) : BuildM Unit := do
  if declared ≠ given then
    report pos (.argumentCount callee declared given)

/-- Whether a method yields a value, after checking its arguments. A method
that is not declared is taken to yield one. -/
def yieldsValue (callee : String) (pos : Pos) (given : Nat) : BuildM Bool := do
  let p := (← get).program
  match p.methods.toList.find? fun m => m.kind != .main && m.name == callee with
  | some m =>
      checkArguments callee pos m.arity given
      return m.returnsValue
  | none =>
      report pos (.undeclaredMethod callee)
      return true

/-- The variables whose values must be in memory while a callee runs. -/
def spilledNames : BuildM (List String) := do
  let m ← method
  if m.kind = .main then trackedNames else return []

/-- Write a variable to memory. -/
def spill (line : Nat) (x : String) : BuildM Unit := do
  match (← cursor).bindings.get? x with
  | some v =>
      let _ ← emit (.storeGlobal x v) line
  | none => return

/-- Read a variable back from memory. -/
def reload (line : Nat) (x : String) : BuildM Unit := do
  let v ← emit (.loadGlobal x) line
  bind x v

/-- A call of a declared method; the value it yields, if it does. -/
def callMethod (callee : String) (pos : Pos) (args : List ValueId) : BuildM (Option ValueId) := do
  let yields ← yieldsValue callee pos args.length
  let spilled ← spilledNames
  spilled.forM (spill pos.line)
  let v ← emit (.call callee args) pos.line
  spilled.forM (reload pos.line)
  return if yields then some v else none

/-- The names of the built-in methods. -/
def builtins : List String := ["InputNum", "OutputNum", "OutputNewLine"]

/-- A call of a built-in or declared method; the value it yields, if it does. -/
def callNamed (callee : String) (pos : Pos) (args : List ValueId) : BuildM (Option ValueId) := do
  if callee = "InputNum" then
    checkArguments callee pos 0 args.length
    let v ← emit .read pos.line
    return some v
  else if callee = "OutputNum" then
    checkArguments callee pos 1 args.length
    match args with
    | v :: _ =>
        let _ ← emit (.write v) pos.line
        return none
    | [] => return none
  else if callee = "OutputNewLine" then
    checkArguments callee pos 0 args.length
    let _ ← emit .writeLine pos.line
    return none
  else
    callMethod callee pos args

/-! ## Array elements -/

/-- An index scaled by its stride. -/
def scaled (line : Nat) (index : ValueId) (stride : Int64) : BuildM ValueId := do
  if stride = 1 then
    return index
  else
    let scale ← emit (.const stride) line
    emit (.arith .mul index scale) line

/-- `sum` plus the scaled indices, added from left to right. -/
def addScaled (line : Nat) (sum : ValueId) : List (ValueId × Int64) → BuildM ValueId
  | [] => return sum
  | (index, stride) :: rest => do
      let t ← scaled line index stride
      let sum ← emit (.arith .add sum t) line
      addScaled line sum rest

/-- The address of an array element from its indices and their strides. -/
def elementAddress (x : String) (pos : Pos) : List (ValueId × Int64) → BuildM ValueId
  | [] => fail (.invalidDesignator x pos.line "array has no dimensions")
  | (index, stride) :: rest => do
      let first ← scaled pos.line index stride
      let offset ← addScaled pos.line first rest
      let base ← emit (.arrayBase x) pos.line
      emit (.index base offset) pos.line

/-- The address of an array element. Indices that no stride belongs to are
left out. -/
def addressOf (x : String) (pos : Pos) (shape : Shape) (is : List ValueId) :
    BuildM ValueId := do
  if is.isEmpty then
    fail (.invalidDesignator x pos.line "array used without indices")
  let strides := shape.strides
  if is.length ≠ strides.length then
    report pos (.indexCount x strides.length is.length)
  elementAddress x pos (is.zip strides)

/-- Report indices behind the name of a scalar. -/
def checkScalar (x : String) (pos : Pos) (is : List ValueId) : BuildM Unit := do
  if !is.isEmpty then
    report pos (.notAnArray x)

/-- The value of a variable or array element. -/
def readDesignator (x : String) (pos : Pos) (shape : Shape) (storage : Storage)
    (is : List ValueId) : BuildM ValueId := do
  match shape with
  | .scalar =>
      checkScalar x pos is
      match storage with
      | .tracked =>
          match (← cursor).bindings.get? x with
          | some v => return v
          | none => fail (.internal ("`" ++ x ++ "` has no binding"))
      | .memory => emit (.loadGlobal x) pos.line
  | .array _ =>
      let address ← addressOf x pos shape is
      emit (.load address) pos.line

/-- Let a variable or array element hold a value. -/
def writeDesignator (x : String) (pos : Pos) (shape : Shape) (storage : Storage)
    (is : List ValueId) (v : ValueId) : BuildM Unit := do
  match shape with
  | .scalar =>
      checkScalar x pos is
      match storage with
      | .tracked => bind x v
      | .memory =>
          let _ ← emit (.storeGlobal x v) pos.line
  | .array _ =>
      let address ← addressOf x pos shape is
      let _ ← emit (.store address v) pos.line

/-! ## Expressions -/

mutual

/-- The value of an expression. -/
def expr : Expr → BuildM ValueId
  | .number n line => emit (.const n) line
  | .designator x is => do
      let (x, pos) ← name "variable name" x
      let (shape, storage) ← resolve x pos.line
      let is ← indices is
      readDesignator x pos shape storage is
  | .group inner close => do
      let v ← expr inner
      require (.punct .rparen) close
      return v
  | .arith op lhs rhs line => do
      let a ← expr lhs
      let b ← expr rhs
      emit (.arith op a b) line
  | .call callee args close => do
      let (callee, pos) ← name "method name" callee
      let args ← arguments args
      require (.punct .rparen) close
      match ← callNamed callee pos args with
      | some v => return v
      | none => fail (.voidValue callee pos.line)
  | .missing found => unexpected "expression" found

/-- The values of indices, in order. -/
def indices : Indices → BuildM (List ValueId)
  | .nil => return []
  | .cons index close rest => do
      let v ← expr index
      require (.punct .rbracket) close
      return v :: (← indices rest)

/-- The values of arguments, in order. -/
def arguments : Arguments → BuildM (List ValueId)
  | .nil => return []
  | .cons argument rest => do
      let v ← expr argument
      return v :: (← arguments rest)

end

/-- The word a comparison yields. -/
def relation : Relation → BuildM ValueId
  | .compare lhs op line rhs => do
      let a ← expr lhs
      let b ← expr rhs
      emit (.compare op a b) line
  | .noOperator lhs found => do
      let _ ← expr lhs
      unexpected "relational operator" found

end Build

end StructuredSsa
