import StructuredSsa.Build.Expr

/-!
# Building statements

Straight-line statements add to the block at the cursor. A conditional and a
loop end that block and leave the cursor behind them, in a block of their own.
Phis are placed where two parts of a conditional meet and disagree, and for
every tracked variable at the head of a loop, whose body is not known yet.
-/

namespace StructuredSsa

namespace Build

open Syntax

/-- End the block at the cursor with a branch to two new blocks, which know
what is known here. The cursor stays. -/
def branchOff (condition : ValueId) (line : Nat) : BuildM (BlockId × BlockId) := do
  let c ← cursor
  let onTrue ← newBlock .plain
  let onFalse ← newBlock .plain
  let _ ← emit (.branch condition onTrue onFalse) line
  edit fun p => p.sealBlock c.block c.bindings
  [onTrue, onFalse].forM fun target => do
    if c.reachable then
      edit fun p => p.link c.block target
    beginBlock target c.block c.bindings
  return (onTrue, onFalse)

/-- Place phis for the variables on which two departures disagree, and bind
them. -/
def mergeNames (join : BlockId) (left right : Departure) (line : Nat) :
    List String → Bindings → BuildM Bindings
  | [], merged => return merged
  | x :: rest, merged => do
      match left.bindings.get? x, right.bindings.get? x with
      | some a, some b =>
          if a = b then
            mergeNames join left right line rest merged
          else
            let phi ← editWith fun p =>
              p.addPhi join x [(left.block, a), (right.block, b)] line
            mergeNames join left right line rest (merged.bind x phi)
      | _, _ => mergeNames join left right line rest merged

/-- Go on behind a conditional whose parts left as `left` and `right`. Where
one of them does not get here, what the other knows is kept. -/
def enterJoin (join branch : BlockId) (left right : Departure) (line : Nat) : BuildM Unit := do
  let c ← cursor
  let r ← look fun p => p.getBlock join
  let (bindings, dominator, reachable) ←
    match r.preds with
    | [] => pure (left.bindings, branch, false)
    | [only] => pure (if only = left.block then left.bindings else right.bindings, only, true)
    | _ => do
        let names ← trackedNames
        let merged ← mergeNames join left right line names left.bindings
        pure (merged, branch, true)
  beginBlock join dominator bindings
  moveTo ⟨c.method, join, bindings, reachable⟩

/-- Place a phi for every tracked variable at the head of a loop, with what it
holds before the loop, and bind it. -/
def headerNames (header : BlockId) (before : Departure) (line : Nat) :
    List String → Bindings → BuildM Bindings
  | [], bound => return bound
  | x :: rest, bound => do
      match before.bindings.get? x with
      | some v =>
          let phi ← editWith fun p => p.addPhi header x [(before.block, v)] line
          headerNames header before line rest (bound.bind x phi)
      | none => headerNames header before line rest bound

/-- End the block at the cursor and go on in the head of a new loop. -/
def enterLoop (line : Nat) : BuildM BlockId := do
  let c ← cursor
  let header ← newBlock (.join true)
  let before ← departTo header line
  edit fun p => p.setDominator header before.block
  let bindings ←
    if before.reachable then do
      let names ← trackedNames
      headerNames header before line names before.bindings
    else pure before.bindings
  edit fun p => p.setBefore header bindings
  moveTo ⟨c.method, header, bindings, before.reachable⟩
  return header

/-- Leave the method, and go on in a block that control cannot get to. -/
def leave (pos : Pos) (value : Option ValueId) : BuildM Unit := do
  let c ← cursor
  let m ← method
  match m.kind, value with
  | .function, some v => bind Bindings.returnName v
  | .function, none => pure ()
  | _, some _ => report pos .returnValueIgnored
  | _, none => pure ()
  match m.exit with
  | none => fail (.internal "return outside a method body")
  | some exit =>
      let left ← departTo exit pos.line
      let dead ← newBlock .plain
      beginBlock dead left.block left.bindings
      moveTo ⟨c.method, dead, left.bindings, false⟩

mutual

/-- Build a statement. -/
def stmt : Stmt → BuildM Unit
  | .assign x is arrow value => do
      let (x, pos) ← name "variable name" x
      let (shape, storage) ← resolve x pos.line
      let is ← indices is
      require (.punct .arrow) arrow
      let v ← expr value
      writeDesignator x pos shape storage is v
  | .call callee args close => do
      let (callee, pos) ← name "method name" callee
      let args ← arguments args
      require (.punct .rparen) close
      let _ ← callNamed callee pos args
  | .ifThen line condition thenMark yes thenLine no endLine fi => do
      let v ← relation condition
      require (.keyword .then_) thenMark
      let (onTrue, onFalse) ← branchOff v line
      let join ← newBlock (.join false)
      let c ← cursor
      moveTo (c.fork onTrue)
      sequence c.reachable yes
      let left ← departTo join thenLine
      moveTo (c.fork onFalse)
      sequence c.reachable no
      require (.keyword .fi) fi
      let right ← departTo join endLine
      enterJoin join c.block left right endLine
  | .whileDo line condition doMark body endLine od => do
      let header ← enterLoop line
      let v ← relation condition
      require (.keyword .do_) doMark
      let (inside, behind) ← branchOff v line
      let c ← cursor
      moveTo (c.fork inside)
      sequence c.reachable body
      require (.keyword .od) od
      let _ ← departTo header endLine
      moveTo (c.fork behind)
  | .ret pos none => leave pos none
  | .ret pos (some value) => do
      let v ← expr value
      leave pos (some v)
  | .unknown found => report found.pos (.expectedStatement found.kind)

/-- Build a sequence of statements. While `watch` holds, the first statement
that control cannot get to is reported. -/
def sequence (watch : Bool) : Sequence → BuildM Unit
  | .nil => return
  | .cons separated first s rest => do
      if !separated then
        report first.pos (.expectedSemicolon first.kind)
      let dead := watch && !(← cursor).reachable
      if dead then
        report first.pos .unreachableStatement
      stmt s
      sequence (watch && !dead) rest

end

end Build

end StructuredSsa
