import StructuredSsa.Proofs.Blame
import StructuredSsa.Proofs.GrammarComplete
import StructuredSsa.Proofs.GrammarSound
import StructuredSsa.Proofs.Steps

/-!
# Complaints about syntax

Building complains about syntax exactly off the grammar. A complaint is known by
its wording, so first the wordings are sorted (`isComplaint_of`). Then, step by
step along the construction, `Judges C x` says that `C` decides about the
complaints of `x`: where `x` goes through, there is none of them just if `C`
holds, and where it gives up, `C` rules them out. For the step that builds a
tree, `C` is that nothing is missing in it.
-/

namespace StructuredSsa

/-! ## Wordings -/

/-- An error diagnostic in the words of a complaint about syntax. -/
def Diagnostic.IsComplaint (d : Diagnostic) : Prop :=
  d.severity = .error ∧ ∃ rest, d.problem.message = "expected " ++ rest

/-- An error that is a complaint about syntax. -/
def Error.IsComplaint (e : Error) : Prop :=
  match e.root with
  | .unexpectedToken .. => True
  | _ => False

/-- The problems with the grammar. -/
def Problem.IsSyntactic : Problem → Prop
  | .expected .. | .expectedStatement _ | .expectedSemicolon _ => True
  | _ => False

/-- The problems in words of this project. -/
def Problem.IsOwn : Problem → Prop
  | .note _ => False
  | _ => True

/-- A text that starts with another letter than complaints do. -/
def StartsApart (text : String) : Prop := ∃ c, text.toList.head? = some c ∧ c ≠ 'e'

theorem StartsApart.append {a b : String} (h : StartsApart a) : StartsApart (a ++ b) := by
  obtain ⟨c, hc, hne⟩ := h
  exact ⟨c, by rw [String.toList_append, List.head?_append, hc]; rfl, hne⟩

theorem StartsApart.not_complaint {text : String} (h : StartsApart text) (rest : String) :
    text ≠ "expected " ++ rest := by
  rintro rfl
  obtain ⟨c, hc, hne⟩ := h
  rw [String.toList_append, List.head?_append] at hc
  exact hne (Option.some.inj hc).symm

theorem startsApart_message {problem : Problem} (h : ¬ problem.IsSyntactic)
    (hown : problem.IsOwn) : StartsApart problem.message := by
  cases problem with
  | expected | expectedStatement | expectedSemicolon => exact absurd trivial h
  | note => exact hown.elim
  | unterminatedComment | unreachableStatement | returnValueIgnored | trailingInput =>
      exact ⟨_, rfl, by decide⟩
  | dimensionNotPositive => exact .append ⟨_, rfl, by decide⟩
  | unscannable | alreadyDeclared | duplicateParameter | builtinName | methodDeclared | notAnArray
  | undeclaredMethod => exact .append (.append ⟨_, rfl, by decide⟩)
  | indexCount | argumentCount =>
      exact .append (.append (.append (.append (.append (.append ⟨_, rfl, by decide⟩)))))

theorem exists_message {problem : Problem} (h : problem.IsSyntactic) :
    problem.severity = .error ∧ ∃ rest, problem.message = "expected " ++ rest := by
  have hassoc (a b c d : String) (h : a = "expected " ++ b) : a ++ c ++ d = "expected " ++ (b ++ c ++ d) := by
    rw [h, String.append_assoc, String.append_assoc, String.append_assoc]
  cases problem with
  | expected want found =>
      refine ⟨rfl, "`" ++ want.text ++ "`, found `" ++ found.text ++ "`", ?_⟩
      exact hassoc _ _ _ _ (hassoc _ _ _ _ (by decide))
  | expectedStatement found => exact ⟨rfl, _, hassoc _ "a statement, found `" _ _ (by decide)⟩
  | expectedSemicolon found => exact ⟨rfl, _, hassoc _ "`;` before `" _ _ (by decide)⟩
  | _ => exact h.elim

theorem isComplaint_of {pos : Pos} {problem : Problem} (hown : problem.IsOwn) :
    (Diagnostic.of pos problem).IsComplaint ↔ problem.IsSyntactic := by
  constructor
  · rintro ⟨-, rest, hrest⟩
    by_contra h
    exact (startsApart_message h hown).not_complaint rest hrest
  · exact exists_message

namespace Build

open Syntax

/-! ## Judging a step -/

/-- Diagnostics without a complaint about syntax. -/
def Clear (ds : List Diagnostic) : Prop := ∀ d ∈ ds, ¬ d.IsComplaint

variable {α β : Type} {C D : Prop}

/-- `C` decides about the complaints that a step adds, and rules them out where
the step gives up. -/
structure Judges (C : Prop) (x : BuildM α) : Prop where
  run : ∀ s, match x s with
    | .ok _ s' => ∃ ds, s'.diagnostics = s.diagnostics ++ ds ∧ (Clear ds ↔ C)
    | .error stop s' => ∃ ds, s'.diagnostics = s.diagnostics ++ ds ∧
        (C → Clear ds ∧ ∀ e, stop = .error e → ¬ e.IsComplaint)

theorem clear_nil : Clear [] := List.forall_mem_nil _

theorem clear_append {ds es : List Diagnostic} : Clear (ds ++ es) ↔ Clear ds ∧ Clear es :=
  List.forall_mem_append

namespace Judges

theorem of_iff {x : BuildM α} (h : Judges C x) (hiff : C ↔ D) : Judges D x := propext hiff ▸ h

/-- Of a step that reports nothing and goes through. -/
theorem of_ok {x : BuildM α} (h : ∀ s, ∃ a s', x s = .ok a s' ∧ s'.diagnostics = s.diagnostics) :
    Judges True x where
  run s := by
    obtain ⟨a, s', hs, hds⟩ := h s
    rw [hs]
    exact ⟨[], by rw [hds, List.append_nil], iff_of_true clear_nil trivial⟩

theorem pure (a : α) : Judges True (Pure.pure a : BuildM α) := of_ok fun s => ⟨a, s, rfl, rfl⟩

theorem bind {x : BuildM α} {f : α → BuildM β} (hx : Judges C x) (hf : ∀ a, Judges D (f a)) :
    Judges (C ∧ D) (x >>= f) := by
  refine ⟨fun s => ?_⟩
  have hs := hx.run s
  show match EStateM.bind x f s with | .ok .. => _ | .error .. => _
  unfold EStateM.bind
  cases h : x s with
  | error stop s' =>
      rw [h] at hs
      obtain ⟨ds, hds, hrules⟩ := hs
      exact ⟨ds, hds, fun hC => hrules hC.1⟩
  | ok a s' =>
      rw [h] at hs
      obtain ⟨ds, hds, hdecides⟩ := hs
      have hs' := (hf a).run s'
      dsimp only
      cases h' : f a s' with
      | error stop s'' =>
          rw [h'] at hs'
          obtain ⟨es, hes, hrules⟩ := hs'
          refine ⟨ds ++ es, by rw [hes, hds, List.append_assoc], fun hC => ?_⟩
          exact ⟨clear_append.2 ⟨hdecides.2 hC.1, (hrules hC.2).1⟩, (hrules hC.2).2⟩
      | ok b s'' =>
          rw [h'] at hs'
          obtain ⟨es, hes, hdecides'⟩ := hs'
          refine ⟨ds ++ es, by rw [hes, hds, List.append_assoc], ?_⟩
          rw [clear_append, hdecides, hdecides']

/-- Behind a step that complains of nothing. -/
theorem next {x : BuildM α} {f : α → BuildM β} (hx : Judges True x) (hf : ∀ a, Judges D (f a)) :
    Judges D (x >>= f) :=
  (hx.bind hf).of_iff ⟨fun h => h.2, fun h => ⟨trivial, h⟩⟩

/-- Before steps that complain of nothing. -/
theorem first {x : BuildM α} {f : α → BuildM β} (hx : Judges C x) (hf : ∀ a, Judges True (f a)) :
    Judges C (x >>= f) :=
  (hx.bind hf).of_iff ⟨fun h => h.1, fun h => ⟨h, trivial⟩⟩

theorem forM {f : α → BuildM Unit} {C : α → Prop} (hf : ∀ a, Judges (C a) (f a)) :
    ∀ l : List α, Judges (∀ a ∈ l, C a) (l.forM f)
  | [] => (pure ()).of_iff (iff_of_true trivial (List.forall_mem_nil _))
  | a :: l => ((hf a).bind fun _ => forM hf l).of_iff List.forall_mem_cons.symm

/-- Giving up without a word about syntax agrees with any judgement. -/
theorem fail {e : Error} (h : ¬ e.IsComplaint) : Judges C (fail e : BuildM α) :=
  ⟨fun _ => ⟨[], (List.append_nil _).symm, fun _ => ⟨clear_nil, fun _ he => by cases he; exact h⟩⟩⟩

theorem unexpected (what : String) (found : Token) : Judges False (unexpected what found : BuildM α) :=
  ⟨fun _ => ⟨[], (List.append_nil _).symm, False.elim⟩⟩

theorem report (pos : Pos) (problem : Problem) (hown : problem.IsOwn) :
    Judges (¬ problem.IsSyntactic) (report pos problem) := by
  refine ⟨fun s => ⟨[.of pos problem], rfl, ?_⟩⟩
  rw [Clear, List.forall_mem_singleton, isComplaint_of hown]

/-- A report about anything but syntax. -/
theorem remark {pos : Pos} {problem : Problem} (hown : problem.IsOwn)
    (h : ¬ problem.IsSyntactic) : Judges True (Build.report pos problem) :=
  (report pos problem hown).of_iff (iff_of_true h trivial)

theorem require (want : TokenKind) (mark : Mark) : Judges (mark = .present) (require want mark) := by
  cases mark with
  | present => exact (pure ()).of_iff (iff_of_true trivial rfl)
  | missing found =>
      exact (report found.pos (.expected want found.kind) trivial).of_iff
        (iff_of_false (not_not_intro trivial) nofun)

theorem name (what : String) (x : Name) : Judges x.Whole (name what x) := by
  cases x with
  | ident text pos => exact pure _
  | missing found => exact unexpected _ _

/-! Steps that report nothing at all. -/

theorem get : Judges True (get : BuildM Builder) := of_ok fun s => ⟨s, s, rfl, rfl⟩

theorem moveTo (c : Cursor) : Judges True (moveTo c) := of_ok fun _ => ⟨(), _, rfl, rfl⟩

theorem bindName (x : String) (v : ValueId) : Judges True (Build.bind x v) :=
  of_ok fun _ => ⟨(), _, rfl, rfl⟩

theorem look (f : Program → Except Fault α) : Judges True (look f) := by
  refine ⟨fun s => ?_⟩
  unfold Build.look
  cases f s.program with
  | ok a => exact ⟨[], (List.append_nil _).symm, iff_of_true clear_nil trivial⟩
  | error e => exact ⟨[], (List.append_nil _).symm, fun _ => ⟨clear_nil, nofun⟩⟩

theorem edit (f : Program → Except Fault Program) : Judges True (edit f) := by
  refine ⟨fun s => ?_⟩
  unfold Build.edit
  cases f s.program with
  | ok p => exact ⟨[], (List.append_nil _).symm, iff_of_true clear_nil trivial⟩
  | error e => exact ⟨[], (List.append_nil _).symm, fun _ => ⟨clear_nil, nofun⟩⟩

theorem editWith (f : Program → Except Fault (α × Program)) : Judges True (editWith f) := by
  refine ⟨fun s => ?_⟩
  unfold Build.editWith
  cases f s.program with
  | ok r => exact ⟨[], (List.append_nil _).symm, iff_of_true clear_nil trivial⟩
  | error e => exact ⟨[], (List.append_nil _).symm, fun _ => ⟨clear_nil, nofun⟩⟩

end Judges

/-- What expressions and statements are made of, apart from the marks, names
and trees that may be missing, complains of nothing. -/
theorem neutral : Universal fun x => Judges True x where
  pure := .pure
  bind := .next
  get := .get
  look := .look
  bindName := .bindName
  remark pos problem h := by
    cases problem <;> first | exact h.elim | exact .remark trivial id
  emitIn _ _ _ := .editWith _
  newBlockIn _ _ := .editWith _
  addPhi _ _ _ _ := .editWith _
  link _ _ := .edit _
  setDominator _ _ := .edit _
  setBefore _ _ := .edit _
  sealBlock _ _ := .edit _
  moveTo := .moveTo
  undefined _ _ := .fail id
  invalid _ _ _ := .fail id
  internal _ := .fail id

/-! ## Expressions -/

mutual

theorem expr_judges : ∀ e : Expr, Judges e.Whole (expr e)
  | .number n line => by
      rw [expr]
      exact neutral.emit ..
  | .designator x is => by
      rw [expr]
      refine .bind (.name ..) fun r => .next (neutral.resolve ..) fun t => ?_
      exact .first (indices_judges is) fun _ => neutral.readDesignator ..
  | .group inner close => by
      rw [expr]
      exact .bind (expr_judges inner) fun _ => .first (.require ..) fun _ => .pure _
  | .arith op lhs rhs line => by
      rw [expr]
      exact .bind (expr_judges lhs) fun _ => .first (expr_judges rhs) fun _ => neutral.emit ..
  | .call callee args close => by
      rw [expr]
      refine .bind (.name ..) fun r => .bind (arguments_judges args) fun vs => ?_
      refine .first (.require ..) fun _ => .next (neutral.callNamed ..) fun v => ?_
      split
      · exact .pure _
      · exact .fail id
  | .missing found => by
      rw [expr]
      exact .unexpected ..

theorem indices_judges : ∀ is : Indices, Judges is.Whole (indices is)
  | .nil => by
      rw [indices]
      exact .pure _
  | .cons index close rest => by
      rw [indices]
      refine .bind (expr_judges index) fun _ => .bind (.require ..) fun _ => ?_
      exact .first (indices_judges rest) fun _ => .pure _

theorem arguments_judges : ∀ args : Arguments, Judges args.Whole (arguments args)
  | .nil => by
      rw [arguments]
      exact .pure _
  | .cons argument rest => by
      rw [arguments]
      exact .bind (expr_judges argument) fun _ => .first (arguments_judges rest) fun _ => .pure _

end

theorem relation_judges (c : Relation) : Judges c.Whole (relation c) := by
  cases c with
  | compare lhs op line rhs =>
      exact .bind (expr_judges lhs) fun _ => .first (expr_judges rhs) fun _ => neutral.emit ..
  | noOperator lhs found =>
      exact ((expr_judges lhs).bind fun _ => .unexpected ..).of_iff (iff_of_false (fun h => h.2) id)

/-! ## Statements -/

mutual

theorem stmt_judges : ∀ t : Stmt, Judges t.Whole (stmt t)
  | .assign x is arrow value => by
      rw [stmt]
      refine .bind (.name ..) fun r => .next (neutral.resolve ..) fun t => ?_
      refine .bind (indices_judges is) fun vs => .bind (.require ..) fun _ => ?_
      exact .first (expr_judges value) fun _ => neutral.writeDesignator ..
  | .call callee args close => by
      rw [stmt]
      refine .bind (.name ..) fun r => .bind (arguments_judges args) fun vs => ?_
      exact .first (.require ..) fun _ => .next (neutral.callNamed ..) fun _ => .pure _
  | .ifThen line condition thenMark yes thenLine no endLine fi => by
      rw [stmt]
      refine .bind (relation_judges condition) fun v => .bind (.require ..) fun _ => ?_
      refine .next (neutral.branchOff ..) fun r => .next (neutral.newBlock _) fun join => ?_
      refine .next neutral.cursor fun c => .next (.moveTo _) fun _ => ?_
      refine .bind (sequence_judges c.reachable yes) fun _ => .next (neutral.departTo ..) fun left => ?_
      refine .next (.moveTo _) fun _ => .bind (sequence_judges c.reachable no) fun _ => ?_
      exact .first (.require ..) fun _ => .next (neutral.departTo ..) fun _ => neutral.enterJoin ..
  | .whileDo line condition doMark body endLine od => by
      rw [stmt]
      refine .next (neutral.enterLoop line) fun header => .bind (relation_judges condition) fun v => ?_
      refine .bind (.require ..) fun _ => .next (neutral.branchOff ..) fun r => ?_
      refine .next neutral.cursor fun c => .next (.moveTo _) fun _ => ?_
      refine .bind (sequence_judges c.reachable body) fun _ => .first (.require ..) fun _ => ?_
      exact .next (neutral.departTo ..) fun _ => .moveTo _
  | .ret pos none => by
      rw [stmt]
      exact neutral.leave pos none
  | .ret pos (some value) => by
      rw [stmt]
      exact .first (expr_judges value) fun v => neutral.leave pos (some v)
  | .unknown found => by
      rw [stmt]
      exact (Judges.report found.pos (.expectedStatement found.kind) trivial).of_iff
        (iff_of_false (not_not_intro trivial) id)

theorem sequence_judges (watch : Bool) : ∀ q : Sequence, Judges q.Whole (sequence watch q)
  | .nil => by
      rw [sequence]
      exact .pure _
  | .cons separated first t rest => by
      have hdead (watch dead : Bool) : Judges (t.Whole ∧ rest.Whole) (do
          if dead then
            report first.pos .unreachableStatement
          stmt t
          sequence watch rest) := by
        have hbehind : Judges (t.Whole ∧ rest.Whole) (stmt t >>= fun _ => sequence watch rest) :=
          .bind (stmt_judges t) fun _ => sequence_judges watch rest
        split
        · exact .next (.remark trivial id) fun _ => hbehind
        · exact hbehind
      rw [sequence]
      cases separated with
      | true => exact (Judges.next neutral.cursor fun c => hdead _ _).of_iff ⟨fun h => ⟨rfl, h⟩, And.right⟩
      | false =>
          have hreport := Judges.report first.pos (.expectedSemicolon first.kind) trivial
          refine (hreport.bind fun _ => .next neutral.cursor fun c => hdead _ _).of_iff ?_
          exact iff_of_false (fun h => h.1 trivial) nofun

end

/-! ## Declarations and bodies -/

theorem declare_judges (shape : Shape) (x : String) (pos : Pos) : Judges True (declare shape x pos) := by
  have hname (d : Symbol) : Judges True (declareName d) := by
    refine .next neutral.cursor fun c => .next neutral.method fun m => ?_
    split
    · exact .next .get fun _ => .next (.edit _) fun _ => .pure _
    · exact .next (.edit _) fun _ => .pure _
  refine .next (hname _) fun new => ?_
  split
  · split
    · exact .next (neutral.emit ..) fun _ => .bindName ..
    · exact .next (neutral.emit ..) fun _ => .pure _
  · exact .remark trivial id

theorem declareParameter_judges (x : String) (pos : Pos) : Judges True (declareParameter x pos) := by
  refine .next neutral.cursor fun c => .next neutral.method fun m => .next (.edit _) fun _ => ?_
  split
  · exact .remark trivial id
  · exact .next (neutral.emit ..) fun _ => .next (.edit _) fun _ => .bindName ..

theorem sizes_judges : ∀ dims : List Dimension, Judges (∀ d ∈ dims, d.Whole) (sizes dims)
  | [] => (Judges.pure _).of_iff (iff_of_true trivial (List.forall_mem_nil _))
  | .sized opening n pos close :: rest => by
      rw [sizes, List.forall_mem_cons]
      have hrest : Judges (close = .present ∧ ∀ d ∈ rest, d.Whole) (do
          require (.punct .rbracket) close
          return n :: (← sizes rest)) :=
        .bind (.require ..) fun _ => .first (sizes_judges rest) fun _ => .pure _
      refine (Judges.bind (.require ..) fun _ => ?_).of_iff and_assoc.symm
      split
      · exact .next (.remark trivial id) fun _ => hrest
      · exact hrest
  | .missing opening found :: rest => by
      rw [sizes, List.forall_mem_cons]
      exact ((Judges.require ..).bind fun _ => .unexpected ..).of_iff
        (iff_of_false (fun h => h.2) fun h => h.1)

theorem varDecl_judges (d : VarDecl) : Judges d.Whole (varDecl d) := by
  have hshape : Judges d.type.Whole (shape d.type) := by
    cases d.type with
    | scalar => exact .pure _
    | array dims => exact .first (sizes_judges dims) fun _ => .pure _
  refine .bind hshape fun s => .bind (.forM (fun x => ?_) _) fun _ => .require ..
  exact .first (.name ..) fun _ => declare_judges ..

theorem openBody_judges (line : Nat) : Judges True (openBody line) := by
  refine .next neutral.cursor fun c => .next (neutral.newBlock _) fun _ => ?_
  refine .next (neutral.departTo ..) fun _ => .next (neutral.beginBlock ..) fun _ => ?_
  refine .next (neutral.newBlock _) fun _ => .next (.edit _) fun _ => ?_
  exact .moveTo _

theorem incoming_judges (x : String) : ∀ preds : List BlockId, Judges True (incoming x preds)
  | [] => .pure _
  | b :: rest => by
      rw [incoming]
      refine .next .get fun s => ?_
      split
      · exact .next (incoming_judges x rest) fun _ => .pure _
      · exact .fail id

theorem resolveBlock_judges (b : BlockId) : Judges True (resolveBlock b) := by
  refine .next (.look _) fun r => neutral.forM (fun phi => .next (.look _) fun i => ?_) _
  split
  · exact .next (incoming_judges ..) fun _ => .edit _
  · exact .pure _

theorem returnValue_judges (m : Method) (exit : BlockId) (preds : List BlockId) (ends : List Bindings)
    (line : Nat) : Judges True (returnValue m exit preds ends line) := by
  unfold returnValue
  split
  · exact .fail id
  · exact .fail id
  · split
    · exact .pure _
    · exact .editWith _

theorem exitDominator_judges (m : MethodId) (preds : List BlockId) :
    Judges True (exitDominator m preds) := by
  unfold exitDominator
  split
  · exact .pure _
  · refine .next .get fun s => ?_
    split
    · exact .pure _
    · next stop hstop =>
        refine ⟨fun _ => ⟨[], (List.append_nil _).symm, fun _ => ⟨clear_nil, ?_⟩⟩⟩
        rintro e rfl
        obtain ⟨method, reason, rfl⟩ := nearestDominator_error hstop
        exact id

theorem closeBody_judges (line : Nat) : Judges True (closeBody line) := by
  refine .next neutral.cursor fun c => .next neutral.method fun m => ?_
  split
  · exact .fail id
  · next exit _ =>
      refine .next (neutral.departTo ..) fun _ => .next (.editWith _) fun _ => .next .get fun s => ?_
      dsimp only
      split
      · exact .fail id
      · have hrest (value : Option ValueId) (bindings : Bindings) : Judges True (do
            let dominator ← exitDominator c.method (s.program.preds exit)
            beginBlock exit dominator bindings
            ((← get).program.blocksOf c.method).forM resolveBlock
            let _ ← editWith fun p => p.emit exit (.ret value) line
            edit fun p => p.sealBlock exit bindings) := by
          refine .next (exitDominator_judges ..) fun _ => .next (neutral.beginBlock ..) fun _ => ?_
          refine .next .get fun _ => .next (neutral.forM resolveBlock_judges _) fun _ => ?_
          exact .next (.editWith _) fun _ => .edit _
        split
        · exact .next (returnValue_judges ..) fun _ => .next (.pure _) fun _ => hrest _ _
        · exact .next (.pure _) fun _ => hrest _ _

theorem body_judges (b : Body) : Judges b.Whole (body b) := by
  refine .bind (.require ..) fun _ => .next (openBody_judges _) fun _ => ?_
  exact .bind (sequence_judges true b.statements) fun _ => .first (.require ..) fun _ =>
    closeBody_judges _

/-! ## Methods and computations -/

theorem openMethod_judges (x : String) (kind : MethodKind) : Judges True (openMethod x kind) :=
  .next (.editWith _) fun _ => .next (.look _) fun _ => .next (.edit _) fun _ => .moveTo _

theorem methodDecl_judges (d : MethodDecl) : Judges d.Whole (methodDecl d) := by
  have hcheck (x : String) (pos : Pos) : Judges True (checkMethodName x pos) := by
    unfold checkMethodName
    split
    · exact .remark trivial id
    · refine .next .get fun _ => ?_
      split
      · exact .remark trivial id
      · exact .pure _
  refine .bind (.name ..) fun r => .next (hcheck ..) fun _ => .next (openMethod_judges ..) fun _ => ?_
  refine .bind (.forM (fun x => .first (.name ..) fun _ => declareParameter_judges ..) _) fun _ => ?_
  refine .bind (.require ..) fun _ => .bind (.require ..) fun _ => ?_
  exact .bind (.forM varDecl_judges _) fun _ => .bind (body_judges _) fun _ => .require ..

theorem computation_judges (t : Computation) : Judges t.Whole (computation t) := by
  refine .bind (.require ..) fun _ => .next (openMethod_judges ..) fun _ => ?_
  refine .bind (.forM varDecl_judges _) fun _ => .next neutral.cursor fun _ => ?_
  refine .bind (.forM methodDecl_judges _) fun _ => .next (.moveTo _) fun _ => ?_
  refine .bind (body_judges _) fun _ => .first (.require ..) fun _ => ?_
  split
  · exact .remark trivial id
  · exact .pure _

end Build

open Syntax Build

/-! ## Whole token lists -/

/-- A sentence with any tokens behind it. -/
def StartsWithSentence (tokens : List Token) : Prop :=
  ∃ sentence more, tokens = sentence ++ more ∧ Sentence sentence

theorem startsWithSentence_iff {tokens : List Token} {last : Token}
    (hinner : ∀ t ∈ tokens, t.kind ≠ .eof) (hlast : last.kind = .eof) :
    StartsWithSentence tokens ↔ (read (tokens ++ [last])).Whole := by
  constructor
  · rintro ⟨sentence, more, rfl, t, ht⟩
    obtain ⟨trailing, hread⟩ := read_sentence ht hinner hlast
    rw [hread]
    exact ht.whole
  · intro h
    obtain ⟨sentence, more, htokens, htext⟩ := sentence_of_read h
    rw [tokens_ofTokens hinner hlast] at htokens
    exact ⟨sentence, more, htokens, _, htext⟩

/-- An error of the source text carries just the diagnostics attached to it. -/
theorem diagnostics_after {e : Error} (h : Expected e) (ds : List Diagnostic) :
    (e.after ds).diagnostics = ds := by
  have hown : e.diagnostics = [] := by
    cases e with
    | invalidProgram | aborted => exact h.elim
    | _ => rfl
  unfold Error.after
  split
  · next hds => rw [hown, List.isEmpty_iff.1 hds]
  · rfl

theorem sentence_ends {sentence : List Token} (h : Sentence sentence) :
    ∃ front period, sentence = front ++ [period] ∧ period.kind = .punct .period := by
  obtain ⟨_, @⟨m, p, _, _, _, _, ts, us, vs, _, _, _, _, hp⟩⟩ := h
  exact ⟨m :: (ts ++ (us ++ vs)), p, by simp, hp⟩

/-- No complaint about syntax comes behind the earlier diagnostics, and if the run
gave up, it was not for one. -/
inductive Uncomplaining (earlier : List Diagnostic) : Except Stop Built → Prop where
  | ok {built : Built} {added : List Diagnostic} (hds : built.diagnostics = earlier ++ added)
      (hclear : ∀ d ∈ added, ¬ d.IsComplaint) : Uncomplaining earlier (.ok built)
  | error {e : Error} {added : List Diagnostic} (hds : e.diagnostics = earlier ++ added)
      (hclear : ∀ d ∈ added, ¬ d.IsComplaint) (he : ¬ e.IsComplaint) :
      Uncomplaining earlier (.error (.error e))

/-- On a sentence, with any tokens behind it, building does not complain about
syntax, whatever else is wrong. Where a program is built without a complaint
about syntax, the tokens start with a sentence. -/
theorem buildTokens_complaints (tokens : List Token) (last : Token) (earlier : List Diagnostic)
    (hinner : ∀ t ∈ tokens, t.kind ≠ .eof) (hlast : last.kind = .eof) :
    (StartsWithSentence tokens → Uncomplaining earlier (buildTokens (tokens ++ [last]) earlier)) ∧
    ∀ built, buildTokens (tokens ++ [last]) earlier = .ok built →
      ∃ added, built.diagnostics = earlier ++ added ∧
        ((∀ d ∈ added, ¬ d.IsComplaint) → ∃ front period more, tokens = front ++ period :: more ∧
          period.kind = .punct .period ∧ Sentence (front ++ [period])) := by
  have hjudged := (computation_judges (read (tokens ++ [last]))).run (.init earlier)
  have hmeets := computation_meets (read (tokens ++ [last])) earlier
  rw [← propext (startsWithSentence_iff hinner hlast)] at hjudged
  unfold Meets at hmeets
  unfold buildTokens
  cases hrun : computation (read (tokens ++ [last])) (.init earlier) with
  | ok _ s =>
      rw [hrun] at hjudged
      obtain ⟨added, hadded, hdecides⟩ := hjudged
      refine ⟨fun h => .ok hadded (hdecides.2 h), ?_⟩
      intro built hbuilt
      obtain rfl := Except.ok.inj hbuilt
      refine ⟨added, hadded, fun hclear => ?_⟩
      obtain ⟨sentence, more, rfl, hsentence⟩ := hdecides.1 hclear
      obtain ⟨front, period, rfl, hperiod⟩ := sentence_ends hsentence
      exact ⟨front, period, more, by simp, hperiod, hsentence⟩
  | error stop s =>
      rw [hrun] at hjudged hmeets
      obtain ⟨added, hadded, hrules⟩ := hjudged
      refine ⟨fun h => ?_, nofun⟩
      cases stop with
      | fault f => exact hmeets.elim
      | error e =>
          refine .error ((diagnostics_after hmeets _).trans hadded) (hrules h).1 ?_
          unfold Error.IsComplaint
          rw [Error.root_after]
          exact (hrules h).2 e rfl

/-- A sentence that uses a name without a declaration, and a word behind it. -/
def undeclared : List Token :=
  [.keyword .main, .punct .lbrace, .punct .semicolon, .keyword .ret, .ident "x", .punct .rbrace,
    .punct .period, .keyword .main].map fun kind => ⟨kind, kind.text, .start⟩

theorem undeclared_complaints : (∀ t ∈ undeclared, t.kind ≠ .eof) ∧ StartsWithSentence undeclared ∧
    ∃ stop, buildTokens (undeclared ++ [⟨.eof, "", .start⟩]) [] = .error stop ∧
      Uncomplaining [] (.error stop) := by
  have hinner : ∀ t ∈ undeclared, t.kind ≠ .eof := by simp [undeclared]
  have hvalue : ExprText _ [⟨.ident "x", "x", .start⟩] := .term (.factor (.designator rfl .nil))
  have hbody : BodyText _ ((undeclared.drop 1).take 5) :=
    .intro rfl (.skip rfl (.one (.retValue rfl hvalue))) rfl
  have hsentence : Sentence (undeclared.take 7) :=
    ⟨⟨.present, [], [], _, .present, none⟩, .intro rfl .nil .nil hbody rfl⟩
  have hstarts : StartsWithSentence undeclared := ⟨_, [⟨.keyword .main, "main", .start⟩], rfl, hsentence⟩
  have hcomplaints := (buildTokens_complaints undeclared ⟨.eof, "", .start⟩ [] hinner rfl).1 hstarts
  have hrun : (buildTokens (undeclared ++ [⟨.eof, "", .start⟩]) []).toOption.isNone = true := by
    decide +kernel
  refine ⟨hinner, hstarts, ?_⟩
  cases h : buildTokens (undeclared ++ [⟨.eof, "", .start⟩]) [] with
  | error stop =>
      rw [h] at hcomplaints
      exact ⟨stop, rfl, hcomplaints⟩
  | ok built =>
      rw [h] at hrun
      cases hrun

end StructuredSsa
