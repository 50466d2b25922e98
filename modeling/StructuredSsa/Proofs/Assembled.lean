import StructuredSsa.Proofs.Edits
import StructuredSsa.Proofs.Steps
import StructuredSsa.Proofs.Stmts

/-!
# Properties that construction keeps

`Build.Lasting I`: every operation on programs that the construction uses keeps
`I`, whatever the handles it is given. Such a property needs no knowledge of the
cursor, so it holds of every program that is built (`buildTokens_lasting`).

The tables of a program are an instance (`buildTokens_consistent`): what they
say twice, they say the same.
-/

namespace StructuredSsa

namespace Build

/-- A property of programs that what statements do to a program keeps. -/
structure Durable (I : Program → Prop) : Prop where
  newBlock : ∀ {p q m kind b}, I p → p.newBlock m kind = .ok (b, q) → I q
  emit : ∀ {p q b op line v}, I p → p.emit b op line = .ok (v, q) → I q
  addPhi : ∀ {p q b x os line v}, I p → p.addPhi b x os line = .ok (v, q) → I q
  link : ∀ {p q a b}, I p → p.link a b = .ok q → I q
  setDominator : ∀ {p q b d}, I p → p.setDominator b d = .ok q → I q
  setBefore : ∀ {p q b st}, I p → p.setBefore b st = .ok q → I q
  sealBlock : ∀ {p q b st}, I p → p.sealBlock b st = .ok q → I q

/-- A property of programs that everything the construction does to a program
keeps. -/
structure Lasting (I : Program → Prop) : Prop extends Durable I where
  empty : I .empty
  addMethod : ∀ {p} name kind, I p → I (p.addMethod name kind).2
  updatePhi : ∀ {p q v os}, I p → p.updatePhi v os = .ok q → I q
  addParameter : ∀ {p q b v}, I p → p.addParameter b v = .ok q → I q
  setExit : ∀ {p q m exit}, I p → p.setExit m exit = .ok q → I q
  prune : ∀ {p q m n}, I p → p.prune m = .ok (n, q) → I q
  /-- Declarations only touch names. -/
  globals : ∀ {p} symbols, I p → I { p with globals := symbols }
  symbols : ∀ {p} m (symbols : Method → Scope) (arity : Method → Nat), I p →
    I (p.modifyMethod m fun r => { r with symbols := symbols r, arity := arity r })

/-- A step that keeps a property of programs where it goes through. -/
structure Sustains {α : Type} (I : Program → Prop) (x : BuildM α) : Prop where
  run : ∀ s a t, I s.program → x s = .ok a t → I t.program

namespace Sustains

variable {α β : Type} {I : Program → Prop} {x : BuildM α}

theorem bind {f : α → BuildM β} (hx : Sustains I x) (hf : ∀ a, Sustains I (f a)) : Sustains I (x >>= f) := by
  refine ⟨fun s b u hs hrun => ?_⟩
  obtain ⟨a, t, hxs, hft⟩ := of_bind_ok hrun
  exact (hf a).run t b u (hx.run s a t hs hxs) hft

/-- A step that leaves the program alone. -/
theorem of_program (h : ∀ s a t, x s = .ok a t → t.program = s.program) : Sustains I x := by
  refine ⟨fun s a t hs hrun => ?_⟩
  rw [h s a t hrun]
  exact hs

theorem pure (a : α) : Sustains I (pure a : BuildM α) := .of_program fun _ _ _ h => by cases h; rfl

theorem fail (e : Error) : Sustains I (Build.fail e : BuildM α) := .of_program fun _ _ _ h => by cases h

theorem get : Sustains I (MonadState.get : BuildM Builder) := .of_program fun _ _ _ h => by cases h; rfl

theorem look (f : Program → Except Fault α) : Sustains I (Build.look f) := by
  refine .of_program fun s a t h => ?_
  unfold Build.look at h
  split at h
  · cases h; rfl
  · cases h

theorem quiet {x : BuildM Unit} (hx : Quiet x) : Sustains I x := by
  refine .of_program fun s a t h => ?_
  obtain ⟨ds, hds⟩ := hx.run s
  rw [hds] at h
  cases h
  rfl

theorem edit {f : Program → Except Fault Program} (hf : ∀ p q : Program, I p → f p = .ok q → I q) :
    Sustains I (Build.edit f) := by
  refine ⟨fun s a t hs h => ?_⟩
  unfold Build.edit at h
  split at h
  · next q hq =>
      cases h
      exact hf _ q hs hq
  · cases h

theorem editWith {f : Program → Except Fault (α × Program)}
    (hf : ∀ (p q : Program) (a : α), I p → f p = .ok (a, q) → I q) : Sustains I (Build.editWith f) := by
  refine ⟨fun s a t hs h => ?_⟩
  unfold Build.editWith at h
  split at h
  · next b q hq =>
      cases h
      exact hf _ q a hs hq
  · cases h

theorem forM {f : α → BuildM Unit} (hf : ∀ a, Sustains I (f a)) : ∀ l : List α, Sustains I (l.forM f)
  | [] => .pure ()
  | a :: l => .bind (hf a) fun _ => forM hf l

theorem after_require {want : TokenKind} {mark : Syntax.Mark} {f : Unit → BuildM β}
    (hf : Sustains I (f ())) : Sustains I (require want mark >>= f) :=
  .bind (.quiet (quiet_require ..)) fun _ => hf

end Sustains

/-- What statements are made of keeps what the operations on programs keep. -/
theorem Durable.steps {I : Program → Prop} (hI : Durable I) : Universal fun x => Sustains I x where
  pure := .pure
  bind := .bind
  get := .get
  look := .look
  bindName x v := .of_program fun _ _ _ h => by cases h; rfl
  remark pos _ _ := .quiet (quiet_report ..)
  emitIn b op line := .editWith fun _ _ _ h hq => hI.emit h hq
  newBlockIn m kind := .editWith fun _ _ _ h hq => hI.newBlock h hq
  addPhi b x os line := .editWith fun _ _ _ h hq => hI.addPhi h hq
  link a b := .edit fun _ _ h hq => hI.link h hq
  setDominator b d := .edit fun _ _ h hq => hI.setDominator h hq
  setBefore b st := .edit fun _ _ h hq => hI.setBefore h hq
  sealBlock b st := .edit fun _ _ h hq => hI.sealBlock h hq
  moveTo c := .of_program fun _ _ _ h => by cases h; rfl
  undefined x line := .fail _
  invalid x line reason := .fail _
  internal reason := .fail _

theorem sustains_name {I : Program → Prop} (what : String) (x : Syntax.Name) :
    Sustains I (name what x) := by
  cases x with
  | ident text pos => exact .pure _
  | missing found => exact .fail _

namespace Durable

variable {I : Program → Prop}

/-! ## Expressions -/

mutual

theorem sustains_expr (hI : Durable I) : ∀ e : Syntax.Expr, Sustains I (expr e)
  | .number n line => by
      rw [expr]
      exact hI.steps.emit ..
  | .designator x is => by
      rw [expr]
      refine .bind (sustains_name ..) fun x => .bind (hI.steps.resolve ..) fun r => ?_
      exact .bind (sustains_indices hI is) fun _ => hI.steps.readDesignator ..
  | .group inner close => by
      rw [expr]
      refine .bind (sustains_expr hI inner) fun v => ?_
      exact .after_require (.pure _)
  | .arith op lhs rhs line => by
      rw [expr]
      refine .bind (sustains_expr hI lhs) fun _ => .bind (sustains_expr hI rhs) fun _ => ?_
      exact hI.steps.emit ..
  | .call callee args close => by
      rw [expr]
      refine .bind (sustains_name ..) fun x => .bind (sustains_arguments hI args) fun vs => ?_
      refine .after_require <| .bind (hI.steps.callNamed ..) fun v => ?_
      split
      · exact .pure _
      · exact .fail _
  | .missing found => by
      rw [expr]
      exact .fail _

theorem sustains_indices (hI : Durable I) : ∀ is : Syntax.Indices, Sustains I (indices is)
  | .nil => by
      rw [indices]
      exact .pure _
  | .cons index close rest => by
      rw [indices]
      refine .bind (sustains_expr hI index) fun v => .after_require ?_
      exact .bind (sustains_indices hI rest) fun _ => .pure _

theorem sustains_arguments (hI : Durable I) : ∀ args : Syntax.Arguments, Sustains I (arguments args)
  | .nil => by
      rw [arguments]
      exact .pure _
  | .cons argument rest => by
      rw [arguments]
      refine .bind (sustains_expr hI argument) fun v => ?_
      exact .bind (sustains_arguments hI rest) fun _ => .pure _

end

theorem sustains_relation (hI : Durable I) (r : Syntax.Relation) : Sustains I (relation r) := by
  cases r with
  | compare lhs op line rhs =>
    refine .bind (hI.sustains_expr lhs) fun _ => .bind (hI.sustains_expr rhs) fun _ => ?_
    exact hI.steps.emit ..
  | noOperator lhs found => exact .bind (hI.sustains_expr lhs) fun _ => .fail _

/-! ## Statements -/

theorem sustains_announce (watch separated : Bool) (first : Token) :
    Sustains I (announce watch separated first) := by
  refine .of_program fun s a t h => ?_
  obtain ⟨watch', ds, hds⟩ := announce_quiet watch separated first s
  rw [hds] at h
  cases h
  rfl

mutual

theorem sustains_stmt (hI : Durable I) : ∀ x : Syntax.Stmt, Sustains I (stmt x)
  | .assign x is arrow value => by
      rw [stmt]
      refine .bind (sustains_name ..) fun x => .bind (hI.steps.resolve ..) fun r => ?_
      refine .bind (hI.sustains_indices is) fun _ => .after_require ?_
      exact .bind (hI.sustains_expr value) fun _ => hI.steps.writeDesignator ..
  | .call callee args close => by
      rw [stmt]
      refine .bind (sustains_name ..) fun x => .bind (hI.sustains_arguments args) fun vs => ?_
      refine .after_require ?_
      exact .bind (hI.steps.callNamed ..) fun _ => .pure _
  | .ifThen line condition thenMark yes thenLine no endLine fi => by
      rw [stmt]
      refine .bind (hI.sustains_relation condition) fun v => .after_require ?_
      refine .bind (hI.steps.branchOff v line) fun r => .bind (hI.steps.newBlock _) fun join => ?_
      refine .bind hI.steps.cursor fun c => .bind (hI.steps.moveTo _) fun _ => ?_
      refine .bind (sustains_sequence hI c.reachable yes) fun _ => ?_
      refine .bind (hI.steps.departTo ..) fun left => .bind (hI.steps.moveTo _) fun _ => ?_
      refine .bind (sustains_sequence hI c.reachable no) fun _ => ?_
      refine .after_require ?_
      exact .bind (hI.steps.departTo ..) fun right => hI.steps.enterJoin ..
  | .whileDo line condition doMark body endLine od => by
      rw [stmt]
      refine .bind (hI.steps.enterLoop line) fun header => ?_
      refine .bind (hI.sustains_relation condition) fun v => .after_require ?_
      refine .bind (hI.steps.branchOff v line) fun r => .bind hI.steps.cursor fun c => ?_
      refine .bind (hI.steps.moveTo _) fun _ => .bind (sustains_sequence hI c.reachable body) fun _ => ?_
      refine .after_require ?_
      exact .bind (hI.steps.departTo ..) fun _ => hI.steps.moveTo _
  | .ret pos none => by
      rw [stmt]
      exact hI.steps.leave ..
  | .ret pos (some value) => by
      rw [stmt]
      exact .bind (hI.sustains_expr value) fun _ => hI.steps.leave ..
  | .unknown found => by
      rw [stmt]
      exact .quiet (quiet_report ..)

theorem sustains_sequence (hI : Durable I) : ∀ (watch : Bool) (q : Syntax.Sequence),
    Sustains I (sequence watch q)
  | _, .nil => by
      rw [sequence]
      exact .pure _
  | watch, .cons separated first x rest => by
      rw [sequence_cons]
      refine .bind (sustains_announce ..) fun watch => ?_
      exact .bind (sustains_stmt hI x) fun _ => sustains_sequence hI watch rest

end

end Durable

namespace Lasting

variable {I : Program → Prop} (hI : Lasting I)

include hI

/-! ## Declarations -/

theorem sustains_declareName (d : Symbol) : Sustains I (declareName d) := by
  refine .bind hI.steps.cursor fun c => .bind hI.steps.method fun m => ?_
  split
  · refine .bind .get fun s => .bind (.edit fun p q h hq => ?_) fun _ => .pure _
    exact Except.ok.inj hq ▸ hI.globals _ h
  · refine .bind (.edit fun p q h hq => ?_) fun _ => .pure _
    exact Except.ok.inj hq ▸ hI.symbols c.method (·.symbols.declare d) (·.arity) h

theorem sustains_declare (shape : Shape) (x : String) (pos : Pos) : Sustains I (declare shape x pos) := by
  refine .bind (hI.sustains_declareName _) fun new => ?_
  split
  · split
    · exact .bind (hI.steps.emit ..) fun zero => hI.steps.bindName x zero
    · exact .bind (hI.steps.emit ..) fun _ => .pure _
  · exact .quiet (quiet_report ..)

theorem sustains_declareParameter (x : String) (pos : Pos) : Sustains I (declareParameter x pos) := by
  refine .bind hI.steps.cursor fun c => .bind hI.steps.method fun m => ?_
  refine .bind (.edit fun p q h hq => ?_) fun _ => ?_
  · exact Except.ok.inj hq ▸
      hI.symbols c.method (·.symbols.declare ⟨x, .scalar, true, pos.line⟩) (·.arity + 1) h
  · split
    · exact .quiet (quiet_report ..)
    · refine .bind (hI.steps.emit ..) fun v => ?_
      exact .bind (.edit fun _ _ h hq => hI.addParameter h hq) fun _ => hI.steps.bindName x v

omit hI in
theorem sustains_sizes : ∀ dims : List Syntax.Dimension, Sustains I (sizes dims)
  | [] => .pure _
  | .sized opening n pos close :: rest => by
      have hrest : Sustains I (do
          require (.punct .rbracket) close
          return n :: (← sizes rest)) :=
        .after_require <| .bind (sustains_sizes rest) fun _ => .pure _
      rw [sizes]
      refine .after_require ?_
      split
      · exact .bind (.quiet (quiet_report ..)) fun _ => hrest
      · exact hrest
  | .missing opening found :: _ => .after_require (.fail _)

theorem sustains_varDecl (d : Syntax.VarDecl) : Sustains I (varDecl d) := by
  have hshape : Sustains I (shape d.type) := by
    cases d.type with
    | scalar => exact .pure _
    | array dims => exact .bind (sustains_sizes dims) fun _ => .pure _
  refine .bind hshape fun s => .bind (.forM (fun x => ?_) _) fun _ => .quiet (quiet_require ..)
  exact .bind (sustains_name ..) fun x => hI.sustains_declare ..

/-! ## Bodies and methods -/

theorem sustains_openBody (line : Nat) : Sustains I (openBody line) := by
  refine .bind hI.steps.cursor fun c => .bind (hI.steps.newBlock _) fun first => ?_
  refine .bind (hI.steps.departTo ..) fun entry => .bind (hI.steps.beginBlock ..) fun _ => ?_
  refine .bind (hI.steps.newBlock _) fun exit => ?_
  exact .bind (.edit fun _ _ h hq => hI.setExit h hq) fun _ => hI.steps.moveTo _

omit hI in
theorem sustains_incoming (x : String) : ∀ bs : List BlockId, Sustains I (incoming x bs)
  | [] => .pure _
  | b :: rest => by
      rw [incoming]
      refine .bind .get fun s => ?_
      split
      · exact .bind (sustains_incoming x rest) fun _ => .pure _
      · exact .fail _

theorem sustains_resolveBlock (b : BlockId) : Sustains I (resolveBlock b) := by
  refine .bind (.look _) fun r => .forM (fun phi => ?_) _
  refine .bind (.look _) fun i => ?_
  split
  · exact .bind (sustains_incoming ..) fun os => .edit fun _ _ h hq => hI.updatePhi h hq
  · exact .pure _

theorem sustains_returnValue (m : Method) (exit : BlockId) (preds : List BlockId)
    (ends : List Bindings) (line : Nat) : Sustains I (returnValue m exit preds ends line) := by
  unfold returnValue
  split
  · exact .fail _
  · exact .fail _
  · split
    · exact .pure _
    · exact hI.steps.addPhi ..

omit hI in
theorem sustains_exitDominator (m : MethodId) (preds : List BlockId) :
    Sustains I (exitDominator m preds) := by
  unfold exitDominator
  split
  · exact .pure _
  · refine .bind .get fun s => ?_
    split
    · exact .pure _
    · exact .of_program fun _ _ _ h => by cases h

theorem sustains_closeBody (line : Nat) : Sustains I (closeBody line) := by
  have hfinish (m : MethodId) (exit d : BlockId) (st : Bindings) (op : Op) : Sustains I (do
      beginBlock exit d st
      ((← get).program.blocksOf m).forM resolveBlock
      let _ ← editWith fun p => p.emit exit op line
      edit fun p => p.sealBlock exit st) := by
    refine .bind (hI.steps.beginBlock ..) fun _ => .bind .get fun s => ?_
    refine .bind (.forM hI.sustains_resolveBlock _) fun _ => ?_
    exact .bind (.editWith fun _ _ _ h hq => hI.emit h hq) fun _ => hI.steps.sealBlock ..
  refine .bind hI.steps.cursor fun c => .bind hI.steps.method fun m => ?_
  split
  · exact .fail _
  · next exit _ =>
    refine .bind (hI.steps.departTo ..) fun _ => ?_
    refine .bind (.editWith fun _ _ _ h hq => hI.prune h hq) fun _ => .bind .get fun s => ?_
    dsimp only
    split
    · exact .fail _
    · split
      · refine .bind (hI.sustains_returnValue ..) fun _ => .bind (.pure _) fun _ => ?_
        exact .bind (sustains_exitDominator ..) fun _ => hfinish ..
      · exact .bind (.pure _) fun _ => .bind (sustains_exitDominator ..) fun _ => hfinish ..

theorem sustains_body (b : Syntax.Body) : Sustains I (body b) := by
  refine .after_require <| .bind (hI.sustains_openBody _) fun _ => ?_
  refine .bind (hI.sustains_sequence true b.statements) fun _ => ?_
  exact .after_require <| hI.sustains_closeBody _

theorem sustains_openMethod (x : String) (kind : MethodKind) : Sustains I (openMethod x kind) := by
  refine .bind (.editWith fun p q m h hq => ?_) fun m => .bind (.look _) fun r => ?_
  · have hq : p.addMethod x kind = (m, q) := Except.ok.inj hq
    have hadd := hI.addMethod x kind h
    rwa [hq] at hadd
  · exact .bind (hI.steps.setBefore ..) fun _ => hI.steps.moveTo _

theorem sustains_methodDecl (d : Syntax.MethodDecl) : Sustains I (methodDecl d) := by
  have hcheck (x : String) (pos : Pos) : Sustains I (checkMethodName x pos) := by
    unfold checkMethodName
    split
    · exact .quiet (quiet_report ..)
    · refine .bind .get fun s => ?_
      split
      · exact .quiet (quiet_report ..)
      · exact .pure _
  refine .bind (sustains_name ..) fun x => .bind (hcheck ..) fun _ => ?_
  refine .bind (hI.sustains_openMethod ..) fun _ => ?_
  refine .bind (.forM (fun x => ?_) _) fun _ => .after_require ?_
  · exact .bind (sustains_name ..) fun x => hI.sustains_declareParameter ..
  · refine .after_require <| .bind (.forM hI.sustains_varDecl _) fun _ => ?_
    exact .bind (hI.sustains_body _) fun _ => .quiet (quiet_require ..)

theorem sustains_computation (t : Syntax.Computation) : Sustains I (computation t) := by
  refine .after_require <| .bind (hI.sustains_openMethod ..) fun _ => ?_
  refine .bind (.forM hI.sustains_varDecl _) fun _ => .bind hI.steps.cursor fun home => ?_
  refine .bind (.forM hI.sustains_methodDecl _) fun _ => .bind (hI.steps.moveTo _) fun _ => ?_
  refine .bind (hI.sustains_body _) fun _ => .after_require ?_
  split
  · exact .quiet (quiet_report ..)
  · exact .pure _

end Lasting

end Build

/-- What construction keeps holds of every program that is built. -/
theorem buildTokens_lasting {I : Program → Prop} (hI : Build.Lasting I) {tokens : List Token}
    {earlier : List Diagnostic} {built : Built} (h : buildTokens tokens earlier = .ok built) :
    I built.program := by
  unfold buildTokens at h
  split at h
  · next s hs =>
      obtain rfl := Except.ok.inj h
      exact (hI.sustains_computation _).run _ _ s hI.empty hs
  · cases h

/-! ## The tables -/

theorem Program.Consistent.addParameter {p q : Program} (h : p.Consistent) {b : BlockId}
    {v : ValueId} (hq : p.addParameter b v = .ok q) : q.Consistent := by
  obtain ⟨r, -, hq⟩ := bind_eq_ok hq
  obtain rfl := Except.ok.inj hq
  refine h.modifyBlock (fun r => ?_) (fun r => ?_) fun r => ?_ <;> split <;> rfl

theorem Program.Consistent.setExit {p q : Program} (h : p.Consistent) {m : MethodId}
    {exit : Option BlockId} (hq : p.setExit m exit = .ok q) : q.Consistent := by
  obtain ⟨r, -, hq⟩ := bind_eq_ok hq
  obtain rfl := Except.ok.inj hq
  exact h.of_tables rfl rfl

theorem Build.lasting_consistent : Lasting Program.Consistent where
  empty := Program.consistent_empty
  addMethod _ _ h := (h.pushBlock _ _).of_tables rfl rfl
  newBlock h hq := h.newBlock hq
  emit h hq := h.emit hq
  addPhi h hq := h.addPhi hq
  updatePhi h hq := h.updatePhi hq
  addParameter h hq := h.addParameter hq
  link h hq := h.link hq
  setDominator h hq := h.setDominator hq
  setBefore h hq := h.setBefore hq
  sealBlock h hq := h.sealBlock hq
  setExit h hq := h.setExit hq
  prune h hq := h.prune hq
  globals _ h := h.of_tables rfl rfl
  symbols _ _ _ h := h.of_tables rfl rfl

theorem buildTokens_consistent {tokens : List Token} {earlier : List Diagnostic} {built : Built}
    (h : buildTokens tokens earlier = .ok built) : built.program.Consistent :=
  buildTokens_lasting Build.lasting_consistent h

end StructuredSsa
