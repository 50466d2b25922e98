import StructuredSsa.Graph.Dominance
import StructuredSsa.Graph.Reach
import StructuredSsa.Graph.Values
import StructuredSsa.Syntax.Tree

/-!
# Building a program

A builder holds the program so far, the diagnostics reported, and a cursor:
the block that receives instructions, and the value each variable holds there.
Building ends early with an error of the source text, or with a misuse of the
program's operations; the diagnostics up to then are kept.
-/

namespace StructuredSsa

/-- Where code is being added, and what is known there. -/
structure Cursor where
  method : MethodId
  /-- The block that receives instructions. -/
  block : BlockId
  bindings : Bindings
  /-- Whether control can get here. -/
  reachable : Bool
deriving Repr, DecidableEq

namespace Cursor

/-- A cursor at the start of a block that control can get to. -/
def start (method : MethodId) (block : BlockId) (bindings : Bindings) : Cursor :=
  ⟨method, block, bindings, true⟩

/-- The same knowledge, in another block. -/
def fork (c : Cursor) (block : BlockId) : Cursor := { c with block := block }

end Cursor

/-- How control left a block. -/
structure Departure where
  block : BlockId
  bindings : Bindings
  /-- Whether control got to the end of the block, so that its edge exists. -/
  reachable : Bool
deriving Repr, DecidableEq

/-- How control leaves from a cursor. -/
def Cursor.departure (c : Cursor) : Departure := ⟨c.block, c.bindings, c.reachable⟩

/-- A program under construction. -/
structure Builder where
  program : Program
  cursor : Cursor
  diagnostics : List Diagnostic
deriving Repr, DecidableEq

/-- A step of the construction. -/
abbrev BuildM := EStateM Stop Builder

namespace Build

/-! ## The program -/

/-- Give up with an error. -/
def fail {α : Type} (e : Error) : BuildM α := throw (.error e)

/-- Ask the program something. -/
def look {α : Type} (f : Program → Except Fault α) : BuildM α := fun s =>
  match f s.program with
  | .ok a => .ok a s
  | .error e => .error (.fault e) s

/-- Change the program. -/
def edit (f : Program → Except Fault Program) : BuildM Unit := fun s =>
  match f s.program with
  | .ok p => .ok () { s with program := p }
  | .error e => .error (.fault e) s

/-- Change the program and take a result from that. -/
def editWith {α : Type} (f : Program → Except Fault (α × Program)) : BuildM α := fun s =>
  match f s.program with
  | .ok (a, p) => .ok a { s with program := p }
  | .error e => .error (.fault e) s

/-! ## Diagnostics -/

/-- Report a problem and go on. -/
def report (pos : Pos) (problem : Problem) : BuildM Unit :=
  modify fun s => { s with diagnostics := s.diagnostics ++ [.of pos problem] }

/-- A fixed token of the grammar: reported where it is missing. -/
def require (want : TokenKind) : Syntax.Mark → BuildM Unit
  | .present => return
  | .missing found => report found.pos (.expected want found.kind)

/-- Give up because nothing of the expected kind starts with a token. -/
def unexpected {α : Type} (expected : String) (found : Token) : BuildM α :=
  fail (.unexpectedToken expected found.kind.text found.pos.line)

/-- A required name with its place. -/
def name (what : String) : Syntax.Name → BuildM (String × Pos)
  | .ident text pos => return (text, pos)
  | .missing found => unexpected what found

/-! ## The cursor -/

def cursor : BuildM Cursor := return (← get).cursor

def moveTo (c : Cursor) : BuildM Unit := modify fun s => { s with cursor := c }

/-- Let a variable hold a value from here on. -/
def bind (x : String) (v : ValueId) : BuildM Unit :=
  modify fun s => { s with cursor := { s.cursor with bindings := s.cursor.bindings.bind x v } }

/-- The method under construction. -/
def method : BuildM Method := do
  let c ← cursor
  look fun p => p.getMethod c.method

/-- Add an instruction at the cursor. -/
def emit (op : Op) (line : Nat) : BuildM ValueId := do
  let c ← cursor
  editWith fun p => p.emit c.block op line

/-- Add a block to the method under construction. -/
def newBlock (kind : BlockKind) : BuildM BlockId := do
  let c ← cursor
  editWith fun p => p.newBlock c.method kind

/-- End the block at the cursor with a jump. Only a jump that control can get
to is an edge, so that dead code never feeds a place where paths meet. -/
def departTo (target : BlockId) (line : Nat) : BuildM Departure := do
  let c ← cursor
  let _ ← emit (.jump target) line
  edit fun p => p.sealBlock c.block c.bindings
  if c.reachable then
    edit fun p => p.link c.block target
  return c.departure

/-- Say what dominates a block and what is bound on entry to it. -/
def beginBlock (b dominator : BlockId) (bindings : Bindings) : BuildM Unit := do
  edit fun p => p.setDominator b dominator
  edit fun p => p.setBefore b bindings

/-! ## Names -/

/-- Where a scalar lives. -/
inductive Storage where
  /-- Its value is known as a value of the program. -/
  | tracked
  /-- It is in memory, and read and written there. -/
  | memory
deriving Repr, DecidableEq

/-- The scalars whose values a method tracks: the globals in the body of the
computation, the parameters and locals elsewhere. -/
def trackedNames : BuildM (List String) := do
  let m ← method
  match m.kind with
  | .main => return (← get).program.globals.scalars
  | _ => return m.symbols.scalars

/-- What a name denotes here. Local names hide global ones. -/
def resolve (x : String) (line : Nat) : BuildM (Shape × Storage) := do
  let m ← method
  let globals := (← get).program.globals
  match m.kind with
  | .main =>
      match globals.find? x with
      | some d => return (d.shape, .tracked)
      | none => fail (.undefinedVariable x line)
  | _ =>
      match m.symbols.find? x, globals.find? x with
      | some d, _ => return (d.shape, .tracked)
      | none, some d => return (d.shape, .memory)
      | none, none => fail (.undefinedVariable x line)

end Build

end StructuredSsa
