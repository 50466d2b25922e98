import StructuredSsa.Build.Stmt
import StructuredSsa.Syntax.Reader
import StructuredSsa.Token.Scanner

/-!
# Building computations

Declarations go to the entry block of their method. A body is opened by a jump
out of the entry block and closed by falling into the exit block; then blocks
that cannot be reached are dropped, the ways to return are merged, and every
phi gets its operands from what its predecessors leave with.
-/

namespace StructuredSsa

namespace Build

open Syntax

/-! ## Declarations -/

/-- Declare a name in the scope of the method under construction: the globals
for the body of the computation. Whether it was new. -/
def declareName (d : Symbol) : BuildM Bool := do
  let c ← cursor
  let m ← method
  if m.kind = .main then
    let globals := (← get).program.globals
    edit fun p => .ok { p with globals := p.globals.declare d }
    return !globals.contains d.name
  else
    edit fun p => .ok (p.modifyMethod c.method fun m => { m with symbols := m.symbols.declare d })
    return !m.symbols.contains d.name

/-- Declare a variable. A scalar starts as zero. -/
def declare (shape : Shape) (x : String) (pos : Pos) : BuildM Unit := do
  if ← declareName ⟨x, shape, false, pos.line⟩ then
    match shape with
    | .scalar =>
        let zero ← emit (.const 0) pos.line
        bind x zero
    | .array sizes =>
        let _ ← emit (.declareArray x sizes) pos.line
  else
    report pos (.alreadyDeclared x)

/-- Declare a parameter. One that repeats a name still takes its place in the
list. -/
def declareParameter (x : String) (pos : Pos) : BuildM Unit := do
  let c ← cursor
  let m ← method
  edit fun p => .ok (p.modifyMethod c.method fun m => { m with
    arity := m.arity + 1
    symbols := m.symbols.declare ⟨x, .scalar, true, pos.line⟩ })
  if m.symbols.contains x then
    report pos (.duplicateParameter x)
  else
    let v ← emit (.param x m.arity) pos.line
    edit fun p => p.addParameter c.block v
    bind x v

/-- The sizes of an array. -/
def sizes : List Dimension → BuildM (List Int64)
  | [] => return []
  | .sized opening n pos close :: rest => do
      require (.punct .lbracket) opening
      if n ≤ 0 then
        report pos (.dimensionNotPositive n)
      require (.punct .rbracket) close
      return n :: (← sizes rest)
  | .missing opening found :: _ => do
      require (.punct .lbracket) opening
      unexpected "array dimension" found

/-- The shape a type declares. -/
def shape : TypeDecl → BuildM Shape
  | .scalar => return .scalar
  | .array dims => return .array (← sizes dims)

/-- A declaration of variables. -/
def varDecl (d : VarDecl) : BuildM Unit := do
  let s ← shape d.type
  d.names.forM fun x => do
    let (x, pos) ← name "variable name" x
    declare s x pos
  require (.punct .semicolon) d.semicolon

/-! ## Bodies -/

/-- Leave the entry block for the first block of the body, and add the exit. -/
def openBody (line : Nat) : BuildM Unit := do
  let c ← cursor
  let first ← newBlock .plain
  let entry ← departTo first line
  beginBlock first entry.block entry.bindings
  let exit ← newBlock .exit
  edit fun p => p.setExit c.method (some exit)
  moveTo (.start c.method first entry.bindings)

/-- What a phi for `x` reads along the edges from `preds`. -/
def incoming (x : String) : List BlockId → BuildM (List (BlockId × ValueId))
  | [] => return []
  | b :: rest => do
      match ((← get).program.leaving? b).bind (·.get? x) with
      | some v => return (b, v) :: (← incoming x rest)
      | none => fail (.internal ("no binding for `" ++ x ++ "` leaving " ++ b.text))

/-- Give a phi its operands. -/
def resolvePhi (preds : List BlockId) (phi : ValueId) : BuildM Unit := do
  let i ← look fun p => p.getInstr phi
  match i.op with
  | .phi x _ =>
      let operands ← incoming x preds
      edit fun p => p.updatePhi phi operands
  | _ => return

/-- Give the phis of a block their operands. -/
def resolveBlock (b : BlockId) : BuildM Unit := do
  let r ← look fun p => p.getBlock b
  r.phis.forM (resolvePhi r.preds)

/-- The value a function returns, where the given ways lead to its exit: the
one value they agree on, or a phi. -/
def returnValue (m : Method) (exit : BlockId) (preds : List BlockId) (ends : List Bindings)
    (line : Nat) : BuildM ValueId := do
  match ends.mapM fun b => b.get? Bindings.returnName with
  | none => fail (.missingReturnValue m.name)
  | some [] => fail (.missingReturnValue m.name)
  | some (v :: vs) =>
      if vs.all (· == v) then
        return v
      else
        editWith fun p => p.addPhi exit Bindings.returnName (preds.zip (v :: vs)) line

/-- The immediate dominator of an exit block. -/
def exitDominator (m : MethodId) (preds : List BlockId) : BuildM BlockId := do
  match preds with
  | [only] => return only
  | _ =>
      match (← get).program.nearestDominator m preds with
      | .ok d => return d
      | .error e => throw e

/-- Fall into the exit block, merge the ways that lead there, and finish the
method. -/
def closeBody (line : Nat) : BuildM Unit := do
  let c ← cursor
  let m ← method
  match m.exit with
  | none => fail (.internal "method body was never opened")
  | some exit =>
      let _ ← departTo exit line
      let _ ← editWith fun p => p.prune c.method
      let p := (← get).program
      let preds := p.preds exit
      let ends := preds.map fun b => (p.leaving? b).getD .empty
      match ends with
      | [] => fail (.noCommonDominator m.name "exit block is unreachable")
      | first :: _ =>
          let value ←
            if m.kind = .function then do
              pure (some (← returnValue m exit preds ends line))
            else pure none
          let bindings := match value with
            | some v => first.bind Bindings.returnName v
            | none => first
          let dominator ← exitDominator c.method preds
          beginBlock exit dominator bindings
          ((← get).program.blocksOf c.method).forM resolveBlock
          let _ ← editWith fun p => p.emit exit (.ret value) line
          edit fun p => p.sealBlock exit bindings

/-- A body in braces. -/
def body (b : Body) : BuildM Unit := do
  require (.punct .lbrace) b.opening
  openBody b.openLine
  sequence true b.statements
  require (.punct .rbrace) b.closing
  closeBody b.closeLine

/-! ## Methods and computations -/

/-- Report a name that a method cannot have. -/
def checkMethodName (x : String) (pos : Pos) : BuildM Unit := do
  if x ∈ builtins then
    report pos (.builtinName x)
  else if ((← get).program.methodNamed? x).isSome then
    report pos (.methodDeclared x)

/-- Add a method and put the cursor at its entry. -/
def openMethod (x : String) (kind : MethodKind) : BuildM Unit := do
  let m ← editWith fun p => .ok (p.addMethod x kind)
  let r ← look fun p => p.getMethod m
  edit fun p => p.setBefore r.entry .empty
  moveTo (.start m r.entry .empty)

/-- A declaration of a method. -/
def methodDecl (d : MethodDecl) : BuildM Unit := do
  let (x, pos) ← name "method name" d.name
  checkMethodName x pos
  openMethod x (if d.isFunction then .function else .procedure)
  d.parameters.forM fun x => do
    let (x, pos) ← name "parameter name" x
    declareParameter x pos
  require (.punct .rparen) d.close
  require (.punct .semicolon) d.semicolon
  d.varDecls.forM varDecl
  body d.body
  require (.punct .semicolon) d.terminator

/-- A whole computation. -/
def computation (t : Computation) : BuildM Unit := do
  require (.keyword .main) t.main
  openMethod "main" .main
  t.varDecls.forM varDecl
  let home ← cursor
  t.methods.forM methodDecl
  moveTo home
  body t.body
  require (.punct .period) t.period
  match t.trailing with
  | some found => report found.pos .trailingInput
  | none => return

end Build

/-- A program with the problems found on the way to it. -/
structure Built where
  program : Program
  diagnostics : List Diagnostic
deriving Repr, DecidableEq

/-- A builder before its first step. The cursor means nothing yet. -/
def Builder.init (diagnostics : List Diagnostic) : Builder :=
  ⟨.empty, .start ⟨0⟩ ⟨0⟩ .empty, diagnostics⟩

/-- Attach diagnostics to the error that ended a run. -/
def Stop.after (s : Stop) (ds : List Diagnostic) : Stop :=
  match s with
  | .error e => .error (e.after ds)
  | .fault f => .fault f

/-- Build the program of a token sequence. Diagnostics reported earlier come
first; an error carries all of them. -/
def buildTokens (tokens : List Token) (earlier : List Diagnostic) : Except Stop Built :=
  match Build.computation (Syntax.read tokens) (.init earlier) with
  | .ok _ s => .ok ⟨s.program, s.diagnostics⟩
  | .error e s => .error (e.after s.diagnostics)

/-- Build the program of a source text, with its diagnostics by position. -/
def build (source : String) : Except Stop Built :=
  match (Scanner.ofText source).scan with
  | (.error e, scanner) => .error (.error (e.after scanner.diagnostics))
  | (.ok tokens, scanner) => do
      let built ← buildTokens tokens scanner.diagnostics
      return { built with diagnostics := Diagnostic.sort built.diagnostics }

end StructuredSsa
