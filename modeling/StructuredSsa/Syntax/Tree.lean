import StructuredSsa.Instr
import StructuredSsa.Token

/-!
# Syntax trees

The tree of a computation, as read from any sequence of tokens. Reading never
fails: where a fixed token of the grammar is not there, the tree has a
`Mark.missing`, and where something is required that cannot be made up (a
name, an expression, a relational operator, a size), it has a leaf with the
token found instead. A tree without either is the tree of a sentence of the
language.

Trees keep the source lines that instructions built from them carry, and the
places that diagnostics about them point at.
-/

namespace StructuredSsa

namespace Syntax

/-- Whether a fixed token of the grammar stood in its place, and what stood
there if not. -/
inductive Mark where
  | present
  | missing (found : Token)
deriving Repr, DecidableEq

/-- A required name. -/
inductive Name where
  | ident (text : String) (pos : Pos)
  | missing (found : Token)
deriving Repr, DecidableEq

mutual

/-- An expression. -/
inductive Expr where
  | number (n : Int64) (line : Nat)
  /-- A variable, with indices if it is an array. -/
  | designator (name : Name) (indices : Indices)
  /-- An expression in parentheses. -/
  | group (inner : Expr) (close : Mark)
  | arith (op : ArithOp) (lhs rhs : Expr) (line : Nat)
  | call (callee : Name) (arguments : Arguments) (close : Mark)
  | missing (found : Token)
deriving Repr

/-- The bracketed indices of a designator. -/
inductive Indices where
  | nil
  | cons (index : Expr) (close : Mark) (rest : Indices)
deriving Repr

/-- The arguments of a call. -/
inductive Arguments where
  | nil
  | cons (argument : Expr) (rest : Arguments)
deriving Repr

end

/-- A comparison of two expressions. -/
inductive Relation where
  | compare (lhs : Expr) (op : RelOp) (line : Nat) (rhs : Expr)
  /-- A left side with no relational operator behind it. -/
  | noOperator (lhs : Expr) (found : Token)
deriving Repr

mutual

/-- A statement. -/
inductive Stmt where
  | assign (name : Name) (indices : Indices) (arrow : Mark) (value : Expr)
  | call (callee : Name) (arguments : Arguments) (close : Mark)
  /-- A conditional. An absent `else` part is an empty one. `thenLine` is the
  line where the first part ends, `endLine` the line where `fi` is required. -/
  | ifThen (line : Nat) (condition : Relation) (thenMark : Mark) (yes : Sequence)
      (thenLine : Nat) (no : Sequence) (endLine : Nat) (fi : Mark)
  /-- A loop. `endLine` is the line where `od` is required. -/
  | whileDo (line : Nat) (condition : Relation) (doMark : Mark) (body : Sequence)
      (endLine : Nat) (od : Mark)
  | ret (pos : Pos) (value : Option Expr)
  /-- Something that is no statement, passed over up to where one can end. -/
  | unknown (found : Token)
deriving Repr

/-- A sequence of statements. Each has the token it starts with, and whether it
is separated from the one before. -/
inductive Sequence where
  | nil
  | cons (separated : Bool) (first : Token) (stmt : Stmt) (rest : Sequence)
deriving Repr

end

/-- A size in an array declaration. -/
inductive Dimension where
  | sized (opening : Mark) (n : Int64) (pos : Pos) (close : Mark)
  | missing (opening : Mark) (found : Token)
deriving Repr, DecidableEq

/-- The type part of a declaration. -/
inductive TypeDecl where
  | scalar
  | array (dimensions : List Dimension)
deriving Repr, DecidableEq

/-- A declaration of variables of one type. -/
structure VarDecl where
  type : TypeDecl
  names : List Name
  semicolon : Mark
deriving Repr, DecidableEq

/-- A body in braces, with the lines where they are required. -/
structure Body where
  openLine : Nat
  opening : Mark
  statements : Sequence
  closeLine : Nat
  closing : Mark
deriving Repr

/-- A declaration of a function, or of a procedure. -/
structure MethodDecl where
  isFunction : Bool
  name : Name
  parameters : List Name
  /-- The parenthesis behind the parameters; present if there is no list. -/
  close : Mark
  semicolon : Mark
  varDecls : List VarDecl
  body : Body
  terminator : Mark
deriving Repr

/-- A whole computation, and the first token behind it. -/
structure Computation where
  main : Mark
  varDecls : List VarDecl
  methods : List MethodDecl
  body : Body
  period : Mark
  trailing : Option Token
deriving Repr

end Syntax

end StructuredSsa
