import StructuredSsa.Proofs.Stmts

/-!
# The calls that a construction makes

`CallSite`: a call of a declared method, with the state it is built in, which is the one
behind its arguments. `stmtMakes x s κ` says that building the statement `x` from the
state `s` comes to the call `κ`; it follows the text of the construction, and every
state in it is one that the construction goes through.
-/

namespace StructuredSsa

namespace Build

open Syntax

/-- A call of a declared method whose arguments have been built. -/
structure CallSite where
  state : Builder
  callee : String
  pos : Pos
  args : List ValueId

/-- The call that is built next. -/
def CallSite.run (κ : CallSite) : EStateM.Result Stop Builder (Option ValueId) :=
  callMethod κ.callee κ.pos κ.args κ.state

/-- A step goes through, and then something holds. -/
def After {α : Type} (x : BuildM α) (s : Builder) (P : α → Builder → Prop) : Prop :=
  ∃ a t, x s = .ok a t ∧ P a t

/-- The arguments of a call. -/
def callArguments (args : Arguments) (close : Mark) : BuildM (List ValueId) := do
  let vs ← arguments args
  require (.punct .rparen) close
  return vs

/-- A call in itself, once its arguments are built. -/
def callMakes (callee : Name) (args : Arguments) (close : Mark) (s : Builder) (κ : CallSite) : Prop :=
  callee = .ident κ.callee κ.pos ∧ κ.callee ∉ builtins
    ∧ callArguments args close s = .ok κ.args κ.state

mutual

def exprMakes : Expr → Builder → CallSite → Prop
  | .designator _ is, s, κ => indicesMakes is s κ
  | .group inner _, s, κ => exprMakes inner s κ
  | .arith _ lhs rhs _, s, κ => exprMakes lhs s κ ∨ After (expr lhs) s fun _ t => exprMakes rhs t κ
  | .call callee args close, s, κ => argumentsMakes args s κ ∨ callMakes callee args close s κ
  | .number .., _, _ | .missing _, _, _ => False

def indicesMakes : Indices → Builder → CallSite → Prop
  | .nil, _, _ => False
  | .cons index close rest, s, κ => exprMakes index s κ
      ∨ After (do let _ ← expr index; require (.punct .rbracket) close) s fun _ t =>
        indicesMakes rest t κ

def argumentsMakes : Arguments → Builder → CallSite → Prop
  | .nil, _, _ => False
  | .cons argument rest, s, κ => exprMakes argument s κ
      ∨ After (expr argument) s fun _ t => argumentsMakes rest t κ

end

def relationMakes : Relation → Builder → CallSite → Prop
  | .compare lhs _ _ rhs, s, κ => exprMakes lhs s κ ∨ After (expr lhs) s fun _ t => exprMakes rhs t κ
  | .noOperator lhs _, s, κ => exprMakes lhs s κ

mutual

def stmtMakes : Stmt → Builder → CallSite → Prop
  | .assign _ is arrow value, s, κ => indicesMakes is s κ
      ∨ After (do let _ ← indices is; require (.punct .arrow) arrow) s fun _ t => exprMakes value t κ
  | .call callee args close, s, κ => argumentsMakes args s κ ∨ callMakes callee args close s κ
  | .ifThen line condition thenMark yes thenLine no _ _, s, κ => relationMakes condition s κ
      ∨ After (openParts line condition thenMark) s fun r left =>
        sequenceMakes r.1.reachable yes left κ
          ∨ After (do sequence r.1.reachable yes; nextPart r.1 r.2.1 r.2.2 thenLine) left
            fun _ right => sequenceMakes r.1.reachable no right κ
  | .whileDo line condition doMark body _ _, s, κ =>
      After (enterLoop line) s (fun _ t => relationMakes condition t κ)
        ∨ After (openLoop line condition doMark) s fun r inside =>
          sequenceMakes r.2.1.reachable body inside κ
  | .ret _ (some value), s, κ => exprMakes value s κ
  | .ret _ none, _, _ | .unknown _, _, _ => False

def sequenceMakes : Bool → Sequence → Builder → CallSite → Prop
  | _, .nil, _, _ => False
  | watch, .cons separated first x rest, s, κ =>
      After (announce watch separated first) s fun watch t =>
        stmtMakes x t κ ∨ After (stmt x) t fun _ u => sequenceMakes watch rest u κ

end

/-- Straight code was built, with calls that `K` knows. -/
inductive Straight (K : CallSite → Prop) (s t : Builder) : Prop where
  | expr {e : Expr} {v : ValueId} (run : expr e s = .ok v t) (calls : ∀ κ, exprMakes e s κ → K κ)
  | relation {r : Relation} {v : ValueId} (run : relation r s = .ok v t)
      (calls : ∀ κ, relationMakes r s κ → K κ)
  | stmt {x : Stmt} (plain : x.isStraight = true) (run : stmt x s = .ok () t)
      (calls : ∀ κ, stmtMakes x s κ → K κ)

end Build

end StructuredSsa
