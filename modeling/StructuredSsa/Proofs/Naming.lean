import StructuredSsa.Proofs.Meets
import StructuredSsa.Proofs.Edits
import StructuredSsa.Proofs.Steps

/-!
# What is declared while a program is built

The steps of the construction that change a graph leave alone what is declared:
the globals, and the name, kind and scope of each method (`Builder.names`). A
step that also never gives up with an error is `Calm`.

`Honest E P x Q` is about what the other steps do with the names: from names as
`P` says, `x` ends with names as `Q` says, or gives up with an error as `E`
says. Nothing is said of faults; that there are none is shown elsewhere.
-/

namespace StructuredSsa

/-- What a method is called, what it is for and what it declares. -/
structure Header where
  name : String
  kind : MethodKind
  symbols : Scope

/-- What is declared where, and the method under construction. -/
structure Names where
  globals : Scope
  methods : List Header
  current : MethodId

def Method.header (m : Method) : Header := ⟨m.name, m.kind, m.symbols⟩

/-- What the methods of a program are called, and so on. -/
def Program.headers (p : Program) : List Header := p.methods.toList.map Method.header

def Builder.names (s : Builder) : Names := ⟨s.program.globals, s.program.headers, s.cursor.method⟩

namespace Program

/-! ## Operations that declare nothing -/

/-- Two programs that declare the same. -/
structure SameNames (p q : Program) : Prop where
  globals : q.globals = p.globals
  headers : q.headers = p.headers

variable {p q : Program}

namespace SameNames

theorem refl (p : Program) : SameNames p p := ⟨rfl, rfl⟩

theorem trans {r : Program} (h : SameNames p q) (k : SameNames q r) : SameNames p r :=
  ⟨k.globals.trans h.globals, k.headers.trans h.headers⟩

theorem foldl {α : Type} {f : Program → α → Program} (h : ∀ p a, SameNames p (f p a)) :
    ∀ (l : List α) (p : Program), SameNames p (l.foldl f p)
  | [], p => .refl p
  | a :: l, p => (h p a).trans (foldl h l (f p a))

end SameNames

theorem sameNames_modifyBlock (p : Program) (b : BlockId) (f : Block → Block) :
    SameNames p (p.modifyBlock b f) := ⟨rfl, rfl⟩

theorem sameNames_modifyInstr (p : Program) (v : ValueId) (f : Instr → Instr) :
    SameNames p (p.modifyInstr v f) := ⟨rfl, rfl⟩

theorem headers_modifyMethod (p : Program) (m : MethodId) (f : Method → Method)
    (g : Header → Header) (h : ∀ r, (f r).header = g r.header) :
    (p.modifyMethod m f).headers = p.headers.modify m.index g := by
  refine List.ext_getElem? fun i => ?_
  simp only [headers, modifyMethod, Array.toList_modify, List.getElem?_map, List.getElem?_modify]
  cases p.methods.toList[i]? with
  | none => rfl
  | some r =>
      show some _ = some _
      split <;> simp [h]

theorem sameNames_modifyMethod (p : Program) (m : MethodId) {f : Method → Method}
    (h : ∀ r, (f r).header = r.header) : SameNames p (p.modifyMethod m f) := by
  refine ⟨rfl, ?_⟩
  rw [headers_modifyMethod p m f id h]
  refine List.ext_getElem? fun i => ?_
  rw [List.getElem?_modify]
  split <;> simp

theorem sameNames_forgetTree (p : Program) (b : BlockId) : SameNames p (p.forgetTree b) := by
  unfold forgetTree
  split
  · exact p.sameNames_modifyMethod _ fun _ => rfl
  · exact .refl p

theorem sameNames_addUses (p : Program) (v : ValueId) : SameNames p (p.addUses v) :=
  .foldl (fun p o => p.sameNames_modifyInstr o _) _ p

theorem sameNames_dropUses (p : Program) (v : ValueId) : SameNames p (p.dropUses v) :=
  .foldl (fun p o => p.sameNames_modifyInstr o _) _ p

theorem sameNames_assignPhi (p : Program) (v : ValueId) (operands : List (BlockId × ValueId)) :
    SameNames p (p.assignPhi v operands) :=
  ((p.sameNames_dropUses v).trans (sameNames_modifyInstr ..)).trans (sameNames_addUses ..)

theorem sameNames_removeEdge (p : Program) (source target : BlockId) :
    SameNames p (p.removeEdge source target) := by
  have hphi (p : Program) (v : ValueId) : SameNames p (p.dropPhiOperand source v) := by
    unfold dropPhiOperand
    split
    · exact p.sameNames_assignPhi ..
    · exact .refl p
  have hedge := (p.sameNames_modifyBlock source (·.dropSucc target)).trans
    (sameNames_modifyBlock _ target (·.dropPred source))
  exact (hedge.trans (.foldl hphi _ _)).trans (sameNames_forgetTree ..)

theorem sameNames_dropBlock (p : Program) (b : BlockId) : SameNames p (p.dropBlock b) := by
  have hdetach (p : Program) (v : ValueId) : SameNames p (p.detach v) :=
    (p.sameNames_dropUses v).trans (sameNames_modifyInstr ..)
  unfold dropBlock
  split
  · exact .refl p
  · next r hr =>
      have hcontents := SameNames.foldl hdetach r.contents p
      have hsuccs := hcontents.trans (.foldl (fun p s => p.sameNames_removeEdge b s) r.succs _)
      have hpreds := hsuccs.trans (.foldl (fun p q => p.sameNames_removeEdge q b) r.preds _)
      exact (hpreds.trans (sameNames_modifyBlock ..)).trans
        (sameNames_modifyMethod _ _ fun _ => rfl)

/-! ## Requests that declare nothing -/

theorem sameNames_addInstr {op : Op} {owner : Option BlockId} {line : Nat} {v : ValueId}
    (h : p.addInstr op owner line = .ok (v, q)) : SameNames p q := by
  simp only [addInstr] at h
  split at h
  · cases h
  · obtain ⟨-, rfl⟩ := Prod.mk.inj (Except.ok.inj h)
    have hpush : SameNames p { p with values := p.values.push ⟨op, owner, line, []⟩ } := ⟨rfl, rfl⟩
    exact hpush.trans (sameNames_addUses ..)

theorem sameNames_emit {b : BlockId} {op : Op} {line : Nat} {v : ValueId}
    (h : p.emit b op line = .ok (v, q)) : SameNames p q := by
  obtain ⟨r, s, -, hs, rfl⟩ := emit_eq_ok h
  exact (sameNames_addInstr hs).trans (sameNames_modifyBlock ..)

theorem sameNames_addPhi {b : BlockId} {x : String} {operands : List (BlockId × ValueId)}
    {line : Nat} {v : ValueId} (h : p.addPhi b x operands line = .ok (v, q)) : SameNames p q := by
  obtain ⟨r, s, -, hs, rfl⟩ := addPhi_eq_ok h
  exact (sameNames_addInstr hs).trans (sameNames_modifyBlock ..)

theorem sameNames_updatePhi {v : ValueId} {operands : List (BlockId × ValueId)}
    (h : p.updatePhi v operands = .ok q) : SameNames p q := by
  obtain ⟨i, -, h⟩ := bind_eq_ok h
  split at h
  · cases h
  · obtain rfl := Except.ok.inj h
    exact p.sameNames_assignPhi ..

theorem sameNames_newBlock {m : MethodId} {kind : BlockKind} {b : BlockId}
    (h : p.newBlock m kind = .ok (b, q)) : SameNames p q := by
  obtain ⟨r, -, h⟩ := bind_eq_ok h
  obtain ⟨-, rfl⟩ := Prod.mk.inj (Except.ok.inj h)
  have hpush : SameNames p { p with blocks := p.blocks.push (.new m kind) } := ⟨rfl, rfl⟩
  exact hpush.trans (sameNames_modifyMethod _ m fun _ => rfl)

theorem sameNames_setExit {m : MethodId} {e : Option BlockId} (h : p.setExit m e = .ok q) :
    SameNames p q := by
  obtain ⟨r, -, h⟩ := bind_eq_ok h
  obtain rfl := Except.ok.inj h
  exact p.sameNames_modifyMethod m fun _ => rfl

theorem sameNames_setBefore {b : BlockId} {bindings : Bindings}
    (h : p.setBefore b bindings = .ok q) : SameNames p q := by
  obtain ⟨r, -, h⟩ := bind_eq_ok h
  obtain rfl := Except.ok.inj h
  exact p.sameNames_modifyBlock ..

theorem sameNames_sealBlock {b : BlockId} {bindings : Bindings}
    (h : p.sealBlock b bindings = .ok q) : SameNames p q := by
  obtain ⟨r, -, h⟩ := bind_eq_ok h
  split at h
  · cases h
  · obtain rfl := Except.ok.inj h
    exact p.sameNames_modifyBlock ..

theorem sameNames_setDominator {b d : BlockId} (h : p.setDominator b d = .ok q) :
    SameNames p q := by
  obtain ⟨r, -, h⟩ := bind_eq_ok h
  obtain rfl := Except.ok.inj h
  exact (p.sameNames_modifyBlock ..).trans (sameNames_forgetTree ..)

theorem sameNames_addParameter {b : BlockId} {v : ValueId} (h : p.addParameter b v = .ok q) :
    SameNames p q := by
  obtain ⟨r, -, h⟩ := bind_eq_ok h
  obtain rfl := Except.ok.inj h
  exact p.sameNames_modifyBlock ..

theorem sameNames_link {source target : BlockId} (h : p.link source target = .ok q) :
    SameNames p q := by
  obtain ⟨r, -, h⟩ := bind_eq_ok h
  obtain ⟨r', -, h⟩ := bind_eq_ok h
  obtain rfl := Except.ok.inj h
  exact ((p.sameNames_modifyBlock ..).trans (sameNames_modifyBlock ..)).trans (sameNames_forgetTree ..)

theorem sameNames_prune {m : MethodId} {n : Nat} (h : p.prune m = .ok (n, q)) : SameNames p q := by
  obtain ⟨r, -, h⟩ := bind_eq_ok h
  obtain ⟨-, rfl⟩ := Prod.mk.inj (Except.ok.inj h)
  exact .foldl sameNames_dropBlock _ p

end Program

namespace Build

variable {α β : Type} {E : Error → Prop} {P : Names → Prop}

/-- From names as `P` says, `x` ends with names as `Q` says, unless it gives up
with an error as `E` says or misuses the program. -/
def Honest (E : Error → Prop) (P : Names → Prop) (x : BuildM α) (Q : α → Names → Prop) : Prop :=
  ∀ s, P s.names →
    match x s with
    | .ok a t => Q a t.names
    | .error (.error e) _ => E e
    | .error (.fault _) _ => True

namespace Honest

variable {Q : α → Names → Prop}

theorem pure {a : α} (h : ∀ n, P n → Q a n) : Honest E P (Pure.pure a) Q := fun _ hs => h _ hs

theorem bind {x : BuildM α} {f : α → BuildM β} {R : β → Names → Prop} (hx : Honest E P x Q)
    (hf : ∀ a, Honest E (Q a) (f a) R) : Honest E P (x >>= f) R := by
  intro s hs
  have h := hx s hs
  show match EStateM.bind x f s with
    | .ok a t => R a t.names
    | .error (.error e) _ => E e
    | .error (.fault _) _ => True
  unfold EStateM.bind
  cases hrun : x s with
  | ok a t =>
      rw [hrun] at h
      exact hf a t h
  | error e t =>
      rw [hrun] at h
      cases e with
      | error e => exact h
      | fault f => trivial

/-- What is known of a result is known from here on. -/
theorem assume {x : BuildM α} {F : Prop} (h : F → Honest E P x Q) :
    Honest E (fun n => P n ∧ F) x Q :=
  fun s hs => h hs.2 s hs.1

theorem mono {x : BuildM α} {E' : Error → Prop} {P' : Names → Prop} {Q' : α → Names → Prop}
    (h : Honest E P x Q) (hE : ∀ e, E e → E' e) (hP : ∀ n, P' n → P n)
    (hQ : ∀ a n, Q a n → Q' a n) : Honest E' P' x Q' := by
  intro s hs
  have h := h s (hP _ hs)
  split at h
  · exact hQ _ _ h
  · exact hE _ h
  · trivial

theorem fail {e : Error} (h : E e) : Honest E P (fail e) Q := fun _ _ => h

/-- What is known of the names when a run ends well. -/
theorem of_ok {x : BuildM α} {s t : Builder} {a : α} (h : Honest E P x Q) (hs : P s.names)
    (hx : x s = .ok a t) : Q a t.names := by
  have h := h s hs
  rw [hx] at h
  exact h

end Honest

/-! ## Steps that declare nothing -/

/-- A step that leaves what is declared alone and never gives up. -/
structure Calm (x : BuildM α) : Prop where
  run : ∀ n, Honest (fun _ => False) (· = n) x fun _ => (· = n)

theorem Calm.honest {x : BuildM α} (h : Calm x) : Honest E P x fun _ => P := by
  intro s hs
  have h := h.run _ s rfl
  split at h
  · exact h ▸ hs
  · exact h.elim
  · trivial

theorem names_eq {s : Builder} {q : Program} (h : s.program.SameNames q) :
    Builder.names { s with program := q } = s.names := by
  unfold Builder.names
  rw [h.globals, h.headers]

namespace Calm

theorem pure (a : α) : Calm (Pure.pure a : BuildM α) := ⟨fun _ _ hs => hs⟩

theorem bind {x : BuildM α} {f : α → BuildM β} (hx : Calm x) (hf : ∀ a, Calm (f a)) :
    Calm (x >>= f) := ⟨fun n => (hx.run n).bind fun a => (hf a).run n⟩

theorem get : Calm (get : BuildM Builder) := ⟨fun _ _ hs => hs⟩

theorem report (pos : Pos) (problem : Problem) : Calm (report pos problem) :=
  ⟨fun _ _ hs => hs⟩

theorem require (want : TokenKind) (m : Syntax.Mark) : Calm (require want m) := by
  cases m with
  | present => exact .pure ()
  | missing found => exact .report ..

theorem bindName (x : String) (v : ValueId) : Calm (Build.bind x v) := ⟨fun _ _ hs => hs⟩

theorem look (f : Program → Except Fault α) : Calm (look f) := by
  refine ⟨fun n s hs => ?_⟩
  unfold Build.look
  cases f s.program with
  | ok a => exact hs
  | error e => trivial

theorem edit {f : Program → Except Fault Program} (h : ∀ p q, f p = .ok q → p.SameNames q) :
    Calm (edit f) := by
  refine ⟨fun n s hs => ?_⟩
  unfold Build.edit
  cases hq : f s.program with
  | ok q => exact (names_eq (h _ _ hq)).trans hs
  | error e => trivial

theorem editWith {f : Program → Except Fault (α × Program)}
    (h : ∀ p a q, f p = .ok (a, q) → p.SameNames q) : Calm (editWith f) := by
  refine ⟨fun n s hs => ?_⟩
  unfold Build.editWith
  cases hq : f s.program with
  | ok r => exact (names_eq (h _ _ _ hq)).trans hs
  | error e => trivial

end Calm

/-- What expressions and statements are made of at the cursor is calm. -/
theorem calm : Ordinary fun x => Calm x where
  pure := .pure
  bind := .bind
  get := .get
  look := .look
  bindName := .bindName
  remark pos _ _ := .report pos _
  emitIn _ _ _ := .editWith fun _ _ _ => Program.sameNames_emit
  newBlockIn _ _ := .editWith fun _ _ _ => Program.sameNames_newBlock
  addPhi _ _ _ _ := .editWith fun _ _ _ => Program.sameNames_addPhi
  link _ _ := .edit fun _ _ => Program.sameNames_link
  setDominator _ _ := .edit fun _ _ => Program.sameNames_setDominator
  setBefore _ _ := .edit fun _ _ => Program.sameNames_setBefore
  sealBlock _ _ := .edit fun _ _ => Program.sameNames_sealBlock

theorem method_honest : Honest E P method fun r n =>
    P n ∧ n.methods[n.current.index]? = some r.header := by
  intro s hs
  have hrun : method s = look (fun p => p.getMethod s.cursor.method) s := rfl
  rw [hrun]
  unfold look
  dsimp only
  cases hr : s.program.getMethod s.cursor.method with
  | error e => trivial
  | ok r =>
      refine ⟨hs, ?_⟩
      have hmethod : s.program.methods.toList[s.cursor.method.index]? = some r := by
        rw [Array.getElem?_toList]
        exact Program.getMethod_eq_ok hr
      show (s.program.methods.toList.map Method.header)[s.cursor.method.index]? = some r.header
      rw [List.getElem?_map, hmethod]
      rfl

end Build

end StructuredSsa
