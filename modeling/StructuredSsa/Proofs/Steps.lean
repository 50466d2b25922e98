import StructuredSsa.Build.Stmt

/-!
# Steps and what they make up

A property of steps that single steps have, and that steps one behind another
have with their parts, is a property of all that expressions and statements are
made of. `Ordinary Q` asks for this where a run goes on at the cursor, `Roving Q`
also where the cursor is moved, and `Universal Q` also where a name or an element
makes no sense.
-/

namespace StructuredSsa

/-- The problems with names, calls and elements, and with values that
nothing returns. -/
def Problem.IsRemark : Problem → Prop
  | .argumentCount .. | .undeclaredMethod _ | .indexCount .. | .notAnArray _ => True
  | .returnValueIgnored => True
  | _ => False

namespace Build

/-- `Q` holds of single steps and of steps one behind another. -/
structure Ordinary (Q : {α : Type} → BuildM α → Prop) : Prop where
  pure : ∀ {α : Type} (a : α), Q (Pure.pure a : BuildM α)
  bind : ∀ {α β : Type} {x : BuildM α} {f : α → BuildM β}, Q x → (∀ a, Q (f a)) → Q (x >>= f)
  get : Q (get : BuildM Builder)
  look : ∀ {α : Type} (f : Program → Except Fault α), Q (look f)
  bindName : ∀ (x : String) (v : ValueId), Q (Build.bind x v)
  remark : ∀ (pos : Pos) {problem : Problem}, problem.IsRemark → Q (report pos problem)
  emitIn : ∀ (b : BlockId) (op : Op) (line : Nat), Q (editWith fun p => p.emit b op line)
  newBlockIn : ∀ (m : MethodId) (kind : BlockKind), Q (editWith fun p => p.newBlock m kind)
  addPhi : ∀ (b : BlockId) (x : String) (os : List (BlockId × ValueId)) (line : Nat),
    Q (editWith fun p => p.addPhi b x os line)
  link : ∀ a b : BlockId, Q (edit fun p => p.link a b)
  setDominator : ∀ b d : BlockId, Q (edit fun p => p.setDominator b d)
  setBefore : ∀ (b : BlockId) (st : Bindings), Q (edit fun p => p.setBefore b st)
  sealBlock : ∀ (b : BlockId) (st : Bindings), Q (edit fun p => p.sealBlock b st)

/-- `Q` also holds where the cursor is moved and where the tables disagree. -/
structure Roving (Q : {α : Type} → BuildM α → Prop) : Prop extends Ordinary Q where
  moveTo : ∀ c : Cursor, Q (moveTo c)
  internal : ∀ {α : Type} (reason : String), Q (fail (.internal reason) : BuildM α)

/-- `Q` also holds where a name or an element makes no sense. -/
structure Universal (Q : {α : Type} → BuildM α → Prop) : Prop extends Roving Q where
  undefined : ∀ {α : Type} (x : String) (line : Nat), Q (fail (.undefinedVariable x line) : BuildM α)
  invalid : ∀ {α : Type} (x : String) (line : Nat) (reason : String),
    Q (fail (.invalidDesignator x line reason) : BuildM α)

variable {Q : {α : Type} → BuildM α → Prop}

namespace Ordinary

variable (hQ : Ordinary Q)

include hQ

theorem forM {α : Type} {f : α → BuildM Unit} (hf : ∀ a, Q (f a)) : ∀ l : List α, Q (l.forM f)
  | [] => hQ.pure ()
  | a :: l => hQ.bind (hf a) fun _ => forM hf l

omit hQ in
/-- A weaker property that steps one behind another have with their parts. -/
theorem mono {R : {α : Type} → BuildM α → Prop} (hQ : Ordinary Q)
    (himp : ∀ {α : Type} {x : BuildM α}, Q x → R x)
    (hbind : ∀ {α β : Type} {x : BuildM α} {f : α → BuildM β}, R x → (∀ a, R (f a)) → R (x >>= f)) :
    Ordinary R where
  pure a := himp (hQ.pure a)
  bind := hbind
  get := himp hQ.get
  look f := himp (hQ.look f)
  bindName x v := himp (hQ.bindName x v)
  remark pos _ h := himp (hQ.remark pos h)
  emitIn b op line := himp (hQ.emitIn b op line)
  newBlockIn m kind := himp (hQ.newBlockIn m kind)
  addPhi b x os line := himp (hQ.addPhi b x os line)
  link a b := himp (hQ.link a b)
  setDominator b d := himp (hQ.setDominator b d)
  setBefore b st := himp (hQ.setBefore b st)
  sealBlock b st := himp (hQ.sealBlock b st)

/-! ## At the cursor -/

theorem cursor : Q cursor := hQ.bind hQ.get fun _ => hQ.pure _

theorem method : Q method := hQ.bind hQ.cursor fun _ => hQ.look _

theorem emit (op : Op) (line : Nat) : Q (emit op line) := hQ.bind hQ.cursor fun _ => hQ.emitIn ..

theorem newBlock (kind : BlockKind) : Q (newBlock kind) :=
  hQ.bind hQ.cursor fun _ => hQ.newBlockIn ..

theorem trackedNames : Q trackedNames := by
  refine hQ.bind hQ.method fun m => ?_
  split
  · exact hQ.bind hQ.get fun _ => hQ.pure _
  · exact hQ.pure _

theorem beginBlock (b d : BlockId) (st : Bindings) : Q (beginBlock b d st) :=
  hQ.bind (hQ.setDominator b d) fun _ => hQ.setBefore b st

/-- An edge that is added only where control gets to, and what comes behind it. -/
theorem linkIf {α : Type} (c : Bool) (a b : BlockId) {x : BuildM α} (hx : Q x) :
    Q (do
      if c then
        edit fun p => p.link a b
      x) := by
  split
  · exact hQ.bind (hQ.link a b) fun _ => hx
  · exact hx

theorem departTo (target : BlockId) (line : Nat) : Q (departTo target line) := by
  refine hQ.bind hQ.cursor fun c => hQ.bind (hQ.emit ..) fun _ => ?_
  exact hQ.bind (hQ.sealBlock ..) fun _ => hQ.linkIf _ _ _ (hQ.pure _)

/-! ## Calls and elements -/

theorem checkArguments (callee : String) (pos : Pos) (declared given : Nat) :
    Q (checkArguments callee pos declared given) := by
  unfold Build.checkArguments
  split
  · exact hQ.remark pos trivial
  · exact hQ.pure _

theorem callMethod (callee : String) (pos : Pos) (args : List ValueId) :
    Q (callMethod callee pos args) := by
  have hyields : Q (yieldsValue callee pos args.length) := by
    refine hQ.bind hQ.get fun s => ?_
    dsimp only
    split
    · exact hQ.bind (hQ.checkArguments ..) fun _ => hQ.pure _
    · exact hQ.bind (hQ.remark pos trivial) fun _ => hQ.pure _
  have hspilled : Q spilledNames := by
    refine hQ.bind hQ.method fun m => ?_
    split
    · exact hQ.trackedNames
    · exact hQ.pure _
  have hspill (x : String) : Q (spill pos.line x) := by
    refine hQ.bind hQ.cursor fun c => ?_
    split
    · exact hQ.bind (hQ.emit ..) fun _ => hQ.pure _
    · exact hQ.pure _
  have hreload (x : String) : Q (reload pos.line x) :=
    hQ.bind (hQ.emit ..) fun v => hQ.bindName x v
  refine hQ.bind hyields fun yields => hQ.bind hspilled fun spilled => ?_
  refine hQ.bind (hQ.forM hspill spilled) fun _ => hQ.bind (hQ.emit ..) fun v => ?_
  exact hQ.bind (hQ.forM hreload spilled) fun _ => hQ.pure _

theorem callNamed (callee : String) (pos : Pos) (args : List ValueId) :
    Q (callNamed callee pos args) := by
  unfold Build.callNamed
  split
  · exact hQ.bind (hQ.checkArguments ..) fun _ => hQ.bind (hQ.emit ..) fun _ => hQ.pure _
  · split
    · refine hQ.bind (hQ.checkArguments ..) fun _ => ?_
      split
      · exact hQ.bind (hQ.emit ..) fun _ => hQ.pure _
      · exact hQ.pure _
    · split
      · exact hQ.bind (hQ.checkArguments ..) fun _ => hQ.bind (hQ.emit ..) fun _ => hQ.pure _
      · exact hQ.callMethod callee pos args

theorem scaled (line : Nat) (index : ValueId) (stride : Int64) : Q (scaled line index stride) := by
  unfold Build.scaled
  split
  · exact hQ.pure _
  · exact hQ.bind (hQ.emit ..) fun _ => hQ.emit ..

theorem addScaled (line : Nat) : ∀ (pairs : List (ValueId × Int64)) (sum : ValueId),
    Q (addScaled line sum pairs)
  | [], _ => hQ.pure _
  | (index, stride) :: rest, _ =>
      hQ.bind (hQ.scaled line index stride) fun _ => hQ.bind (hQ.emit ..) fun sum =>
        addScaled line rest sum

/-- The address of an element that has an index and a stride. -/
theorem elementAddress (x : String) (pos : Pos) (pair : ValueId × Int64)
    (rest : List (ValueId × Int64)) : Q (elementAddress x pos (pair :: rest)) :=
  hQ.bind (hQ.scaled ..) fun _ => hQ.bind (hQ.addScaled ..) fun _ =>
    hQ.bind (hQ.emit ..) fun _ => hQ.emit ..

theorem checkScalar (x : String) (pos : Pos) (is : List ValueId) : Q (checkScalar x pos is) := by
  unfold Build.checkScalar
  split
  · exact hQ.remark pos trivial
  · exact hQ.pure _

/-! ## Branches and joins -/

theorem branchOff (condition : ValueId) (line : Nat) : Q (branchOff condition line) := by
  refine hQ.bind hQ.cursor fun c => hQ.bind (hQ.newBlock _) fun onTrue => ?_
  refine hQ.bind (hQ.newBlock _) fun onFalse => hQ.bind (hQ.emit ..) fun _ => ?_
  refine hQ.bind (hQ.sealBlock ..) fun _ => ?_
  refine hQ.bind (hQ.forM (fun target => ?_) _) fun _ => hQ.pure _
  exact hQ.linkIf _ _ _ (hQ.beginBlock ..)

theorem mergeNames (join : BlockId) (left right : Departure) (line : Nat) :
    ∀ (xs : List String) (merged : Bindings), Q (mergeNames join left right line xs merged)
  | [], _ => hQ.pure _
  | x :: rest, merged => by
      rw [Build.mergeNames]
      split
      · split
        · exact mergeNames join left right line rest merged
        · exact hQ.bind (hQ.addPhi ..) fun phi => mergeNames join left right line rest _
      · exact mergeNames join left right line rest merged

theorem headerNames (header : BlockId) (before : Departure) (line : Nat) :
    ∀ (xs : List String) (bound : Bindings), Q (headerNames header before line xs bound)
  | [], _ => hQ.pure _
  | x :: rest, bound => by
      rw [Build.headerNames]
      split
      · exact hQ.bind (hQ.addPhi ..) fun phi => headerNames header before line rest _
      · exact headerNames header before line rest bound

end Ordinary

namespace Roving

variable (hQ : Roving Q)

include hQ

/-! ## Ways into a block and out of a method -/

theorem enterJoin (join branch : BlockId) (left right : Departure) (line : Nat) :
    Q (enterJoin join branch left right line) := by
  have hbegin (d : BlockId) (st : Bindings) (c : Cursor) : Q (do
      beginBlock join d st
      Build.moveTo c) :=
    hQ.bind (hQ.beginBlock ..) fun _ => hQ.moveTo _
  refine hQ.bind hQ.cursor fun c => hQ.bind (hQ.look _) fun r => ?_
  dsimp only
  split
  · exact hQ.bind (hQ.pure _) fun _ => hbegin ..
  · exact hQ.bind (hQ.pure _) fun _ => hbegin ..
  · refine hQ.bind hQ.trackedNames fun names => hQ.bind (hQ.mergeNames ..) fun _ => ?_
    exact hQ.bind (hQ.pure _) fun _ => hbegin ..

theorem enterLoop (line : Nat) : Q (enterLoop line) := by
  have hbegin (header : BlockId) (st : Bindings) (c : Cursor) : Q (do
      edit fun p => p.setBefore header st
      Build.moveTo c
      return header) :=
    hQ.bind (hQ.setBefore ..) fun _ => hQ.bind (hQ.moveTo _) fun _ => hQ.pure _
  refine hQ.bind hQ.cursor fun c => hQ.bind (hQ.newBlock _) fun header => ?_
  refine hQ.bind (hQ.departTo ..) fun before => hQ.bind (hQ.setDominator ..) fun _ => ?_
  dsimp only
  split
  · refine hQ.bind hQ.trackedNames fun names => ?_
    exact hQ.bind (hQ.headerNames ..) fun _ => hbegin ..
  · exact hQ.bind (hQ.pure _) fun _ => hbegin ..

theorem leave (pos : Pos) (value : Option ValueId) : Q (leave pos value) := by
  have hstop : Q (fail (.internal "return outside a method body") : BuildM Unit) := hQ.internal _
  have hgo (c : Cursor) (exit : BlockId) : Q (do
      let left ← departTo exit pos.line
      let dead ← newBlock .plain
      beginBlock dead left.block left.bindings
      Build.moveTo ⟨c.method, dead, left.bindings, false⟩) := by
    refine hQ.bind (hQ.departTo ..) fun left => hQ.bind (hQ.newBlock _) fun dead => ?_
    exact hQ.bind (hQ.beginBlock ..) fun _ => hQ.moveTo _
  unfold Build.leave
  refine hQ.bind hQ.cursor fun c => hQ.bind hQ.method fun m => ?_
  cases m.exit with
  | none =>
      cases value with
      | none => cases m.kind <;> exact hstop
      | some v =>
          cases m.kind with
          | main | procedure => exact hQ.bind (hQ.remark pos trivial) fun _ => hstop
          | function => exact hQ.bind (hQ.bindName ..) fun _ => hstop
  | some exit =>
      cases value with
      | none => cases m.kind <;> exact hgo c exit
      | some v =>
          cases m.kind with
          | main | procedure => exact hQ.bind (hQ.remark pos trivial) fun _ => hgo c exit
          | function => exact hQ.bind (hQ.bindName ..) fun _ => hgo c exit

end Roving

namespace Universal

variable (hQ : Universal Q)

include hQ

/-! ## Variables -/

theorem resolve (x : String) (line : Nat) : Q (resolve x line) := by
  refine hQ.bind hQ.method fun m => hQ.bind hQ.get fun s => ?_
  dsimp only
  split
  · split
    · exact hQ.pure _
    · exact hQ.undefined ..
  · split
    · exact hQ.pure _
    · exact hQ.pure _
    · exact hQ.undefined ..

theorem addressOf (x : String) (pos : Pos) (shape : Shape) (is : List ValueId) :
    Q (addressOf x pos shape is) := by
  have helement (pairs : List (ValueId × Int64)) : Q (elementAddress x pos pairs) := by
    cases pairs with
    | nil => exact hQ.invalid ..
    | cons pair rest => exact hQ.elementAddress ..
  have hrest : Q (do
      if is.length ≠ shape.strides.length then
        report pos (.indexCount x shape.strides.length is.length)
      elementAddress x pos (is.zip shape.strides)) := by
    split
    · exact hQ.bind (hQ.remark pos trivial) fun _ => helement _
    · exact helement _
  unfold Build.addressOf
  split
  · exact hQ.bind (hQ.invalid ..) fun _ => hrest
  · exact hrest

theorem readDesignator (x : String) (pos : Pos) (shape : Shape) (storage : Storage)
    (is : List ValueId) : Q (readDesignator x pos shape storage is) := by
  unfold Build.readDesignator
  split
  · refine hQ.bind (hQ.checkScalar ..) fun _ => ?_
    split
    · refine hQ.bind hQ.cursor fun c => ?_
      split
      · exact hQ.pure _
      · exact hQ.internal _
    · exact hQ.emit ..
  · exact hQ.bind (hQ.addressOf ..) fun _ => hQ.emit ..

theorem writeDesignator (x : String) (pos : Pos) (shape : Shape) (storage : Storage)
    (is : List ValueId) (v : ValueId) : Q (writeDesignator x pos shape storage is v) := by
  unfold Build.writeDesignator
  split
  · refine hQ.bind (hQ.checkScalar ..) fun _ => ?_
    split
    · exact hQ.bindName x v
    · exact hQ.bind (hQ.emit ..) fun _ => hQ.pure _
  · exact hQ.bind (hQ.addressOf ..) fun _ => hQ.bind (hQ.emit ..) fun _ => hQ.pure _

end Universal

end Build

end StructuredSsa
