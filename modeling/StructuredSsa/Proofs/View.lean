import StructuredSsa.Graph.Reach
import StructuredSsa.Graph.Values

/-!
# A program read as functions

`Program.view` reads the tables of a program as functions of handles, so that
an editing operation is described by the few functions it changes. Every
operation that the construction uses has one lemma here: when it goes through,
and what the view is afterwards. Proofs about the construction use these
lemmas and never look into the tables again.

Source lines, arities, names of methods and kept dominator trees are not part
of the view: nothing that is proved from it depends on them.
-/

namespace StructuredSsa

/-- What the tables of a program say about each handle. -/
@[ext] structure View where
  /-- The number of values. -/
  values : Nat
  op : ValueId → Option Op
  owner : ValueId → Option BlockId
  /-- `user v u`: the value `v` lists `u` as a user. -/
  user : ValueId → ValueId → Prop
  /-- The number of blocks. -/
  blocks : Nat
  kind : BlockId → Option BlockKind
  /-- The method a block was created for. -/
  home : BlockId → Option MethodId
  phis : BlockId → List ValueId
  body : BlockId → List ValueId
  preds : BlockId → List BlockId
  succs : BlockId → List BlockId
  before : BlockId → Option Bindings
  after : BlockId → Option Bindings
  idom : BlockId → Option BlockId
  /-- The number of methods. -/
  methods : Nat
  sort : MethodId → Option MethodKind
  entry : MethodId → Option BlockId
  exit : MethodId → Option BlockId
  /-- The blocks a method lists. -/
  owned : MethodId → List BlockId
  symbols : MethodId → Scope
  globals : Scope

namespace Program

variable {p : Program} {m : MethodId} {b : BlockId}

/-- The view of a program. -/
def view (p : Program) : View where
  values := p.values.size
  op v := (p.instr? v).map (·.op)
  owner v := (p.instr? v).bind (·.owner)
  user v u := ∃ i, p.instr? v = some i ∧ u ∈ i.users
  blocks := p.blocks.size
  kind b := (p.block? b).map (·.kind)
  home b := (p.block? b).map (·.method)
  phis := p.phis
  body b := ((p.block? b).map (·.body)).getD []
  preds := p.preds
  succs := p.succs
  before b := (p.block? b).bind (·.before)
  after := p.leaving?
  idom b := (p.block? b).bind (·.dominator)
  methods := p.methods.size
  sort m := (p.method? m).map (·.kind)
  entry m := (p.method? m).map (·.entry)
  exit m := (p.method? m).bind (·.exit)
  owned := p.blocksOf
  symbols m := ((p.method? m).map (·.symbols)).getD .empty
  globals := p.globals

/-! ## What exists -/

theorem view_op_eq_none {v : ValueId} : p.view.op v = none ↔ p.values.size ≤ v.index := by
  simp [view, instr?]

theorem view_kind_eq_none : p.view.kind b = none ↔ p.blocks.size ≤ b.index := by
  simp [view, block?]

theorem view_sort_eq_none : p.view.sort m = none ↔ p.methods.size ≤ m.index := by
  simp [view, method?]

theorem exists_instr {v : ValueId} {op : Op} (h : p.view.op v = some op) :
    ∃ i, p.instr? v = some i ∧ i.op = op := by
  simpa [view] using h

theorem exists_block {k : BlockKind} (h : p.view.kind b = some k) :
    ∃ r, p.block? b = some r ∧ r.kind = k := by
  simpa [view] using h

theorem exists_method {k : MethodKind} (h : p.view.sort m = some k) :
    ∃ r, p.method? m = some r ∧ r.kind = k := by
  simpa [view] using h

/-! ## Changing one entry -/

/-- A block is read through its record. -/
theorem view_of_block {r : Block} (h : p.block? b = some r) :
    p.view.kind b = some r.kind ∧ p.view.home b = some r.method ∧ p.view.phis b = r.phis
      ∧ p.view.body b = r.body ∧ p.view.preds b = r.preds ∧ p.view.succs b = r.succs
      ∧ p.view.before b = r.before ∧ p.view.after b = r.after ∧ p.view.idom b = r.dominator := by
  simp [view, phis, preds, succs, leaving?, h]

theorem view_of_method {r : Method} (h : p.method? m = some r) :
    p.view.sort m = some r.kind ∧ p.view.entry m = some r.entry ∧ p.view.exit m = r.exit
      ∧ p.view.owned m = r.blocks ∧ p.view.symbols m = r.symbols := by
  simp [view, blocksOf, h]

theorem view_modifyBlock {r : Block} (f : Block → Block) (h : p.block? b = some r) :
    (p.modifyBlock b f).view = { p.view with
      kind := fun c => if c = b then some (f r).kind else p.view.kind c
      home := fun c => if c = b then some (f r).method else p.view.home c
      phis := fun c => if c = b then (f r).phis else p.view.phis c
      body := fun c => if c = b then (f r).body else p.view.body c
      preds := fun c => if c = b then (f r).preds else p.view.preds c
      succs := fun c => if c = b then (f r).succs else p.view.succs c
      before := fun c => if c = b then (f r).before else p.view.before c
      after := fun c => if c = b then (f r).after else p.view.after c
      idom := fun c => if c = b then (f r).dominator else p.view.idom c } := by
  have hat (c : BlockId) : (p.modifyBlock b f).block? c = if c = b then some (f r) else p.block? c := by
    rw [block?_modifyBlock]
    by_cases hc : c = b
    · simp [hc, h]
    · simp [hc, Ne.symm hc]
  ext c
  case blocks => simp [view, modifyBlock]
  case kind | home | phis | body | preds | succs | before | after | idom =>
    simp only [view, phis, preds, succs, leaving?, hat]
    by_cases hc : c = b <;> simp [hc]
  all_goals rfl

theorem view_modifyInstr {v : ValueId} {i : Instr} (f : Instr → Instr) (h : p.instr? v = some i) :
    (p.modifyInstr v f).view = { p.view with
      op := fun x => if x = v then some (f i).op else p.view.op x
      owner := fun x => if x = v then (f i).owner else p.view.owner x
      user := fun x u => if x = v then u ∈ (f i).users else p.view.user x u } := by
  have hat (x : ValueId) : (p.modifyInstr v f).instr? x = if x = v then some (f i) else p.instr? x := by
    rw [instr?_modifyInstr]
    by_cases hx : x = v
    · simp [hx, h]
    · simp [hx, Ne.symm hx]
  ext x
  case values => simp [view, modifyInstr]
  case op | owner | user =>
    simp only [view, hat]
    by_cases hx : x = v <;> simp [hx]
  all_goals rfl

theorem view_modifyMethod {r : Method} (f : Method → Method) (h : p.method? m = some r) :
    (p.modifyMethod m f).view = { p.view with
      sort := fun n => if n = m then some (f r).kind else p.view.sort n
      entry := fun n => if n = m then some (f r).entry else p.view.entry n
      exit := fun n => if n = m then (f r).exit else p.view.exit n
      owned := fun n => if n = m then (f r).blocks else p.view.owned n
      symbols := fun n => if n = m then (f r).symbols else p.view.symbols n } := by
  have hat (n : MethodId) :
      (p.modifyMethod m f).method? n = if n = m then some (f r) else p.method? n := by
    rw [method?_modifyMethod]
    by_cases hn : n = m
    · simp [hn, h]
    · simp [hn, Ne.symm hn]
  ext n
  case methods => simp [view, modifyMethod]
  case sort | entry | exit | owned | symbols =>
    simp only [view, blocksOf, hat]
    by_cases hn : n = m <;> simp [hn]
  all_goals rfl

/-- Setting a function to what it is already. -/
theorem ite_eq_self {α β : Type} [DecidableEq α] {f : α → β} {a : α} {y : β} (h : f a = y) :
    (fun x => if x = a then y else f x) = f := by
  funext x
  split
  · next hx => rw [hx, h]
  · rfl

end Program

namespace View

/-! ## Operations on views -/

/-- Enter a user in the lists of some values. -/
def addUser (w : View) (u : ValueId) (os : List ValueId) : View :=
  { w with user := fun x y => w.user x y ∨ (y = u ∧ x ∈ os) }

/-- Strike a user from the lists of some values. -/
def dropUser (w : View) (u : ValueId) (os : List ValueId) : View :=
  { w with user := fun x y => w.user x y ∧ ¬(y = u ∧ x ∈ os) }

/-- A new value, entered in the use-lists of its operands. -/
def add (w : View) (op : Op) (owner : Option BlockId) : View :=
  let v : ValueId := ⟨w.values⟩
  { w with
    values := w.values + 1
    op := fun x => if x = v then some op else w.op x
    owner := fun x => if x = v then owner else w.owner x
    user := fun x y => w.user x y ∨ (y = v ∧ x ∈ op.operands) }

/-- A new instruction at the end of a block. -/
def emit (w : View) (b : BlockId) (op : Op) : View :=
  { w.add op (some b) with
    body := fun c => if c = b then w.body b ++ [⟨w.values⟩] else w.body c }

/-- A new phi. -/
def addPhi (w : View) (b : BlockId) (x : String) (operands : List (BlockId × ValueId)) : View :=
  { w.add (.phi x operands) (some b) with
    phis := fun c => if c = b then w.phis b ++ [⟨w.values⟩] else w.phis c }

/-- A new method with its entry block. -/
def addMethod (w : View) (kind : MethodKind) : View :=
  let m : MethodId := ⟨w.methods⟩
  let e : BlockId := ⟨w.blocks⟩
  { w with
    blocks := w.blocks + 1
    kind := fun c => if c = e then some (.entry []) else w.kind c
    home := fun c => if c = e then some m else w.home c
    methods := w.methods + 1
    sort := fun n => if n = m then some kind else w.sort n
    entry := fun n => if n = m then some e else w.entry n
    owned := fun n => if n = m then [e] else w.owned n }

/-- A new block. -/
def newBlock (w : View) (m : MethodId) (kind : BlockKind) : View :=
  let b : BlockId := ⟨w.blocks⟩
  { w with
    blocks := w.blocks + 1
    kind := fun c => if c = b then some kind else w.kind c
    home := fun c => if c = b then some m else w.home c
    owned := fun n => if n = m then w.owned m ++ [b] else w.owned n }

def setExit (w : View) (m : MethodId) (b : Option BlockId) : View :=
  { w with exit := fun n => if n = m then b else w.exit n }

def setBefore (w : View) (b : BlockId) (bindings : Bindings) : View :=
  { w with before := fun c => if c = b then some bindings else w.before c }

def setAfter (w : View) (b : BlockId) (bindings : Bindings) : View :=
  { w with after := fun c => if c = b then some bindings else w.after c }

def setIdom (w : View) (b dominator : BlockId) : View :=
  { w with idom := fun c => if c = b then some dominator else w.idom c }

def setKind (w : View) (b : BlockId) (kind : BlockKind) : View :=
  { w with kind := fun c => if c = b then some kind else w.kind c }

/-- A new edge, unless it is there already. -/
def link (w : View) (source target : BlockId) : View :=
  { w with
    succs := fun c => if c = source then
      if target ∈ w.succs source then w.succs source else w.succs source ++ [target]
      else w.succs c
    preds := fun c => if c = target then
      if source ∈ w.preds target then w.preds target else w.preds target ++ [source]
      else w.preds c }

/-- The values an instruction reads. -/
def operands (w : View) (v : ValueId) : List ValueId := ((w.op v).map Op.operands).getD []

/-- New operands for a phi. -/
def setPhi (w : View) (phi : ValueId) (x : String) (operands : List (BlockId × ValueId)) : View :=
  { w with
    op := fun y => if y = phi then some (.phi x operands) else w.op y
    user := fun y u =>
      (w.user y u ∧ ¬(u = phi ∧ y ∈ w.operands phi)) ∨ (u = phi ∧ y ∈ operands.map (·.2)) }

/-- Everything a block lists. -/
def contents (w : View) (b : BlockId) : List ValueId := w.phis b ++ w.body b

/-- Take some instructions out of all use-lists and away from their blocks. -/
def detach (w : View) (vs : List ValueId) : View :=
  { w with
    owner := fun x => if x ∈ vs then none else w.owner x
    user := fun x u => w.user x u ∧ x ∉ vs ∧ ¬(u ∈ vs ∧ x ∈ w.operands u) }

/-- Take a block without edges out of its method. -/
def drop (w : View) (b : BlockId) : View :=
  { w.detach (w.contents b) with
    phis := fun c => if c = b then [] else w.phis c
    body := fun c => if c = b then [] else w.body c
    owned := fun n => if w.home b = some n then (w.owned n).filter (· ≠ b) else w.owned n }

end View

namespace Program

variable {p q : Program} {m : MethodId} {b : BlockId} {v : ValueId} {op : Op} {line : Nat}

/-! ## Use-lists -/

theorem view_operands (p : Program) (v : ValueId) : p.view.operands v = p.operands v := by
  simp only [View.operands, view, operands]
  cases p.instr? v <;> rfl

theorem view_addUser {o : ValueId} (u : ValueId) (ho : p.view.op o ≠ none) :
    (p.modifyInstr o (·.addUser u)).view = p.view.addUser u [o] := by
  obtain ⟨i, hi, -⟩ := exists_instr (Option.ne_none_iff_exists'.1 ho).choose_spec
  have hop : (i.addUser u).op = i.op := by unfold Instr.addUser; split <;> rfl
  have howner : (i.addUser u).owner = i.owner := by unfold Instr.addUser; split <;> rfl
  rw [view_modifyInstr _ hi, hop, howner, ite_eq_self (by simp [view, hi]),
    ite_eq_self (by simp [view, hi])]
  ext x y
  case user =>
    by_cases hx : x = o
    · simp [View.addUser, view, hi, hx]
    · simp [View.addUser, hx]
  all_goals rfl

theorem view_dropUser (p : Program) (o u : ValueId) :
    (p.modifyInstr o (·.dropUser u)).view = p.view.dropUser u [o] := by
  ext x y
  case values => simp [view, modifyInstr, View.dropUser]
  case op | owner =>
    simp only [view, instr?_modifyInstr, View.dropUser]
    split
    · cases p.instr? x <;> rfl
    · rfl
  case user =>
    simp only [view, instr?_modifyInstr, View.dropUser, List.mem_singleton]
    split
    · next h =>
        subst h
        cases p.instr? o <;> simp
    · next h => simp [Ne.symm h]
  all_goals rfl

/-- Entering a user in several lists, one after the other. -/
theorem view_addUsers (u : ValueId) :
    ∀ (os : List ValueId) {p : Program}, (∀ o ∈ os, p.view.op o ≠ none) →
      (os.foldl (fun p o => p.modifyInstr o (·.addUser u)) p).view = p.view.addUser u os
  | [], p, _ => by simp [View.addUser]
  | o :: os, p, h => by
      have ho := view_addUser u (h o (List.mem_cons_self ..))
      rw [List.foldl_cons, view_addUsers u os, ho]
      · simp only [View.addUser, List.mem_cons, List.not_mem_nil, or_false, and_or_left, or_assoc]
      · rw [ho]
        exact fun x hx => h x (List.mem_cons_of_mem _ hx)

/-- Striking a user from several lists, one after the other. -/
theorem view_dropUsers (u : ValueId) :
    ∀ (os : List ValueId) (p : Program),
      (os.foldl (fun p o => p.modifyInstr o (·.dropUser u)) p).view = p.view.dropUser u os
  | [], p => by simp [View.dropUser]
  | o :: os, p => by
      rw [List.foldl_cons, view_dropUsers u os, view_dropUser]
      simp only [View.dropUser, List.mem_cons, List.not_mem_nil, or_false, and_or_left, not_or,
        and_assoc]

theorem view_dropUses (p : Program) (v : ValueId) :
    (p.dropUses v).view = p.view.dropUser v (p.view.operands v) := by
  rw [dropUses, view_dropUsers, view_operands]

/-! ## Creating instructions -/

theorem missing?_eq_none {vs : List ValueId} (h : ∀ v ∈ vs, p.view.op v ≠ none) :
    p.missing? vs = none := by
  rw [missing?, List.find?_eq_none]
  intro v hv
  have := h v hv
  cases hi : p.instr? v <;> simp_all [view]

/-- An instruction may read itself. -/
theorem addInstr_run (op : Op) (owner : Option BlockId) (line : Nat)
    (h : ∀ v ∈ op.operands, v = ⟨p.view.values⟩ ∨ p.view.op v ≠ none) :
    ∃ p', p.addInstr op owner line = .ok (⟨p.view.values⟩, p') ∧ p'.view = p.view.add op owner := by
  let q : Program := { p with values := p.values.push ⟨op, owner, line, []⟩ }
  have hat (x : ValueId) : q.instr? x =
      if x = ⟨p.values.size⟩ then some ⟨op, owner, line, []⟩ else p.instr? x := by
    obtain ⟨n⟩ := x
    simp [q, instr?, Array.getElem?_push]
  have hq : q.view = { p.view.add op owner with user := p.view.user } := by
    ext x y
    case values => simp [q, view, View.add]
    case op | owner =>
      simp only [view, hat, View.add]
      by_cases hx : x = ⟨p.values.size⟩ <;> simp [hx]
    case user =>
      have hnew : p.instr? ⟨p.values.size⟩ = none := by simp [instr?]
      simp only [view, hat]
      by_cases hx : x = ⟨p.values.size⟩ <;> simp [hx, hnew]
    all_goals rfl
  have hops : ∀ v ∈ op.operands, q.view.op v ≠ none := by
    intro v hv
    rw [hq]
    simp only [View.add]
    split
    · simp
    · next hne => exact (h v hv).resolve_left hne
  have hself : q.operands ⟨p.values.size⟩ = op.operands := by
    simp [operands, hat]
  refine ⟨q.addUses ⟨p.values.size⟩, ?_, ?_⟩
  · have hall : q.missing? op.operands = none := missing?_eq_none hops
    simp only [addInstr]
    rw [hall]
    rfl
  · rw [addUses, hself, view_addUsers _ _ hops, hq]
    rfl

theorem addInstr_ok (op : Op) (owner : Option BlockId) (line : Nat)
    (h : ∀ v ∈ op.operands, p.view.op v ≠ none) :
    ∃ p', p.addInstr op owner line = .ok (⟨p.view.values⟩, p') ∧ p'.view = p.view.add op owner :=
  addInstr_run op owner line fun v hv => Or.inr (h v hv)

theorem view_of_addInstr {owner : Option BlockId} (h : p.addInstr op owner line = .ok (v, q)) :
    v = ⟨p.view.values⟩ ∧ q.view = p.view.add op owner := by
  have hthere : ∀ u ∈ op.operands, u = ⟨p.view.values⟩ ∨ p.view.op u ≠ none := by
    rintro ⟨n⟩ hu
    simp only [addInstr] at h
    split at h
    · cases h
    · next hall =>
        rw [missing?, List.find?_eq_none] at hall
        have hsome := hall _ hu
        by_cases hn : n = p.values.size
        · exact Or.inl (congrArg ValueId.mk hn)
        · exact Or.inr (by simpa [view, instr?, Array.getElem?_push, hn] using hsome)
  obtain ⟨p', hp, hview⟩ := addInstr_run op owner line hthere
  obtain ⟨rfl, rfl⟩ := Prod.mk.inj (Except.ok.inj (h.symm.trans hp))
  exact ⟨rfl, hview⟩

theorem getBlock_ok {r : Block} (h : p.block? b = some r) : p.getBlock b = .ok r := by
  rw [getBlock, h]

theorem getMethod_ok {r : Method} (h : p.method? m = some r) : p.getMethod m = .ok r := by
  rw [getMethod, h]

theorem getInstr_ok {i : Instr} (h : p.instr? v = some i) : p.getInstr v = .ok i := by
  rw [getInstr, h]

theorem bind_eq_ok {ε α β : Type} {x : Except ε α} {f : α → Except ε β} {r : β}
    (h : (x >>= f) = .ok r) : ∃ a, x = .ok a ∧ f a = .ok r := by
  cases x with
  | error e => cases h
  | ok a => exact ⟨a, rfl, h⟩

theorem getMethod_eq_ok {r : Method} (h : p.getMethod m = .ok r) : p.method? m = some r := by
  unfold getMethod at h
  split at h
  · next hr => exact Except.ok.inj h ▸ hr
  · cases h

theorem getBlock_eq_ok {r : Block} (h : p.getBlock b = .ok r) : p.block? b = some r := by
  unfold getBlock at h
  split at h
  · next hr => exact Except.ok.inj h ▸ hr
  · cases h

theorem getInstr_eq_ok {i : Instr} (h : p.getInstr v = .ok i) : p.instr? v = some i := by
  unfold getInstr at h
  split at h
  · next hi => exact Except.ok.inj h ▸ hi
  · cases h

/-- Where an instruction was added, it stands at the end of its block. -/
theorem emit_eq_ok (h : p.emit b op line = .ok (v, q)) : ∃ r s, p.block? b = some r
      ∧ p.addInstr op (some b) line = .ok (v, s)
      ∧ q = s.modifyBlock b fun r => { r with body := r.body ++ [v] } := by
  obtain ⟨r, hr, h⟩ := bind_eq_ok h
  split at h
  · cases h
  · obtain ⟨⟨u, s⟩, hs, h⟩ := bind_eq_ok h
    obtain ⟨rfl, rfl⟩ := Prod.mk.inj (Except.ok.inj h)
    exact ⟨r, s, getBlock_eq_ok hr, hs, rfl⟩

theorem addPhi_eq_ok {x : String} {os : List (BlockId × ValueId)}
    (h : p.addPhi b x os line = .ok (v, q)) : ∃ r s, p.block? b = some r
      ∧ p.addInstr (.phi x os) (some b) line = .ok (v, s)
      ∧ q = s.modifyBlock b fun r => { r with phis := r.phis ++ [v] } := by
  obtain ⟨r, hr, h⟩ := bind_eq_ok h
  split at h
  · cases h
  · obtain ⟨⟨u, s⟩, hs, h⟩ := bind_eq_ok h
    obtain ⟨rfl, rfl⟩ := Prod.mk.inj (Except.ok.inj h)
    exact ⟨r, s, getBlock_eq_ok hr, hs, rfl⟩

theorem block_of_kind (h : p.view.kind b ≠ none) : ∃ r, p.block? b = some r := by
  obtain ⟨k, hk⟩ := Option.ne_none_iff_exists'.1 h
  obtain ⟨r, hr, -⟩ := exists_block hk
  exact ⟨r, hr⟩

theorem method_of_sort (h : p.view.sort m ≠ none) : ∃ r, p.method? m = some r := by
  obtain ⟨k, hk⟩ := Option.ne_none_iff_exists'.1 h
  obtain ⟨r, hr, -⟩ := exists_method hk
  exact ⟨r, hr⟩

/-- Listing a new instruction in a block. -/
theorem view_listBody {r : Block} (v : ValueId) (h : p.block? b = some r) :
    (p.modifyBlock b fun r => { r with body := r.body ++ [v] }).view =
      { p.view with body := fun c => if c = b then p.view.body b ++ [v] else p.view.body c } := by
  simp only [view_modifyBlock _ h, ite_eq_self, view_of_block h]

theorem view_listPhi {r : Block} (v : ValueId) (h : p.block? b = some r) :
    (p.modifyBlock b fun r => { r with phis := r.phis ++ [v] }).view =
      { p.view with phis := fun c => if c = b then p.view.phis b ++ [v] else p.view.phis c } := by
  simp only [view_modifyBlock _ h, ite_eq_self, view_of_block h]

theorem emit_ok (line : Nat) (hb : p.view.kind b ≠ none) (hopen : p.view.after b = none)
    (hops : ∀ v ∈ op.operands, p.view.op v ≠ none) :
    ∃ p', p.emit b op line = .ok (⟨p.view.values⟩, p') ∧ p'.view = p.view.emit b op := by
  obtain ⟨r, hr⟩ := block_of_kind hb
  obtain ⟨q, hq, hview⟩ := addInstr_ok op (some b) line hops
  have hsealed : r.isSealed = false := by
    have := (view_of_block hr).2.2.2.2.2.2.2.1
    simp [Block.isSealed, ← this, hopen]
  obtain ⟨rq, hrq⟩ : ∃ rq, q.block? b = some rq := by
    refine block_of_kind ?_
    rw [hview]
    exact hb
  refine ⟨q.modifyBlock b fun r => { r with body := r.body ++ [⟨p.view.values⟩] }, ?_, ?_⟩
  · simp [emit, getBlock_ok hr, hsealed, hq, bind, Except.bind, pure, Except.pure]
  · rw [view_listBody _ hrq, hview]
    rfl

theorem view_of_emit (h : p.emit b op line = .ok (v, q)) :
    v = ⟨p.view.values⟩ ∧ q.view = p.view.emit b op := by
  obtain ⟨r, s, hr, hs, rfl⟩ := emit_eq_ok h
  obtain ⟨rfl, hview⟩ := view_of_addInstr hs
  obtain ⟨r', hr'⟩ : ∃ r', s.block? b = some r' := by
    refine block_of_kind ?_
    rw [hview]
    simp [View.add, (view_of_block hr).1]
  exact ⟨rfl, by rw [view_listBody _ hr', hview]; rfl⟩

theorem addPhi_ok {k : BlockKind} (x : String) {operands : List (BlockId × ValueId)} (line : Nat)
    (hb : p.view.kind b = some k) (hmerges : k.merges = true)
    (hops : ∀ v ∈ operands.map (·.2), p.view.op v ≠ none) :
    ∃ p', p.addPhi b x operands line = .ok (⟨p.view.values⟩, p')
      ∧ p'.view = p.view.addPhi b x operands := by
  obtain ⟨r, hr, rfl⟩ := exists_block hb
  obtain ⟨q, hq, hview⟩ := addInstr_ok (.phi x operands) (some b) line hops
  obtain ⟨rq, hrq⟩ : ∃ rq, q.block? b = some rq := by
    refine block_of_kind ?_
    rw [hview]
    simp [View.add, hb]
  refine ⟨q.modifyBlock b fun r => { r with phis := r.phis ++ [⟨p.view.values⟩] }, ?_, ?_⟩
  · simp [addPhi, getBlock_ok hr, hmerges, hq, bind, Except.bind, pure, Except.pure]
  · rw [view_listPhi _ hrq, hview]
    rfl

/-! ## Methods and blocks -/

theorem view_addMethod (p : Program) (name : String) (kind : MethodKind) :
    (p.addMethod name kind).1 = ⟨p.view.methods⟩
      ∧ (p.addMethod name kind).2.view = p.view.addMethod kind := by
  refine ⟨rfl, ?_⟩
  let q := (p.addMethod name kind).2
  have hblock (c : BlockId) : q.block? c =
      if c = ⟨p.blocks.size⟩ then some (.new ⟨p.methods.size⟩ (.entry [])) else p.block? c := by
    obtain ⟨n⟩ := c
    simp [q, addMethod, block?, Array.getElem?_push]
  have hmethod (n : MethodId) : q.method? n =
      if n = ⟨p.methods.size⟩ then
        some ⟨name, kind, [⟨p.blocks.size⟩], .empty, 0, ⟨p.blocks.size⟩, none, none⟩
      else p.method? n := by
    obtain ⟨n⟩ := n
    simp [q, addMethod, method?, Array.getElem?_push]
  have hnoblock : p.block? ⟨p.blocks.size⟩ = none := by simp [block?]
  have hnomethod : p.method? ⟨p.methods.size⟩ = none := by simp [method?]
  show q.view = _
  ext c
  case blocks | methods => simp [q, addMethod, view, View.addMethod]
  case kind | home | phis | body | preds | succs | before | after | idom =>
    simp only [view, phis, preds, succs, leaving?, hblock, View.addMethod]
    by_cases hc : c = ⟨p.blocks.size⟩ <;> simp [hc, hnoblock, Block.new]
  case sort | entry | exit | owned | symbols =>
    simp only [view, blocksOf, hmethod, View.addMethod]
    by_cases hc : c = ⟨p.methods.size⟩ <;> simp [hc, hnomethod]
  all_goals rfl

theorem newBlock_ok (kind : BlockKind) (h : p.view.sort m ≠ none) :
    ∃ p', p.newBlock m kind = .ok (⟨p.view.blocks⟩, p') ∧ p'.view = p.view.newBlock m kind := by
  obtain ⟨r, hr⟩ := method_of_sort h
  let q : Program := { p with blocks := p.blocks.push (.new m kind) }
  have hblock (c : BlockId) : q.block? c =
      if c = ⟨p.blocks.size⟩ then some (.new m kind) else p.block? c := by
    obtain ⟨n⟩ := c
    simp [q, block?, Array.getElem?_push]
  have hnoblock : p.block? ⟨p.blocks.size⟩ = none := by simp [block?]
  have hq : q.view = { p.view.newBlock m kind with owned := p.view.owned } := by
    ext c
    case blocks => simp [q, view, View.newBlock]
    case kind | home | phis | body | preds | succs | before | after | idom =>
      simp only [view, phis, preds, succs, leaving?, hblock, View.newBlock]
      by_cases hc : c = ⟨p.blocks.size⟩ <;> simp [hc, hnoblock, Block.new]
    all_goals rfl
  have hrq : q.method? m = some r := hr
  refine ⟨q.modifyMethod m fun r => { r with blocks := r.blocks ++ [⟨p.view.blocks⟩], tree := none },
    ?_, ?_⟩
  · simp [newBlock, getMethod_ok hr, bind, Except.bind, pure, Except.pure]
    exact ⟨rfl, rfl⟩
  · simp only [view_modifyMethod _ hrq, ite_eq_self, view_of_method hrq]
    rw [← (view_of_method hrq).2.2.2.1, hq]
    rfl

theorem setExit_ok (b : Option BlockId) (h : p.view.sort m ≠ none) :
    ∃ p', p.setExit m b = .ok p' ∧ p'.view = p.view.setExit m b := by
  obtain ⟨r, hr⟩ := method_of_sort h
  refine ⟨p.modifyMethod m fun r => { r with exit := b }, ?_, ?_⟩
  · simp [setExit, getMethod_ok hr, bind, Except.bind, pure, Except.pure]
  · simp only [view_modifyMethod _ hr, ite_eq_self, view_of_method hr]
    rfl

/-- Changing an entry that is not there. -/
theorem modify_of_none {α : Type} {xs : Array α} {i : Nat} (f : α → α) (h : xs[i]? = none) :
    xs.modify i f = xs := by
  refine Array.ext_getElem? fun j => ?_
  rw [Array.getElem?_modify]
  split
  · next hj => rw [← hj, h]; rfl
  · rfl

theorem modifyMethod_of_none (f : Method → Method) (h : p.method? m = none) :
    p.modifyMethod m f = p := by
  rw [modifyMethod, modify_of_none f h]

theorem modifyInstr_of_none (f : Instr → Instr) (h : p.instr? v = none) :
    p.modifyInstr v f = p := by
  rw [modifyInstr, modify_of_none f h]

theorem view_forgetTree (p : Program) (b : BlockId) : (p.forgetTree b).view = p.view := by
  unfold forgetTree
  split
  · next r hr =>
      cases hm : p.method? r.method with
      | none => rw [modifyMethod_of_none _ hm]
      | some m =>
          simp only [view_modifyMethod _ hm, ite_eq_self, view_of_method hm]
  · rfl

theorem setBefore_ok (bindings : Bindings) (h : p.view.kind b ≠ none) :
    ∃ p', p.setBefore b bindings = .ok p' ∧ p'.view = p.view.setBefore b bindings := by
  obtain ⟨r, hr⟩ := block_of_kind h
  refine ⟨p.modifyBlock b fun r => { r with before := some bindings }, ?_, ?_⟩
  · simp [setBefore, getBlock_ok hr, bind, Except.bind, pure, Except.pure]
  · simp only [view_modifyBlock _ hr, ite_eq_self, view_of_block hr]
    rfl

theorem sealBlock_ok (bindings : Bindings) (h : p.view.kind b ≠ none)
    (hopen : p.view.after b = none) :
    ∃ p', p.sealBlock b bindings = .ok p' ∧ p'.view = p.view.setAfter b bindings := by
  obtain ⟨r, hr⟩ := block_of_kind h
  have hsealed : r.isSealed = false := by
    simpa [Block.isSealed, view_of_block hr] using hopen
  refine ⟨p.modifyBlock b fun r => { r with after := some bindings }, ?_, ?_⟩
  · simp [sealBlock, getBlock_ok hr, hsealed, bind, Except.bind, pure, Except.pure]
  · simp only [view_modifyBlock _ hr, ite_eq_self, view_of_block hr]
    rfl

theorem setDominator_ok (d : BlockId) (h : p.view.kind b ≠ none) :
    ∃ p', p.setDominator b d = .ok p' ∧ p'.view = p.view.setIdom b d := by
  obtain ⟨r, hr⟩ := block_of_kind h
  refine ⟨(p.modifyBlock b fun r => { r with dominator := some d }).forgetTree b, ?_, ?_⟩
  · simp [setDominator, getBlock_ok hr, bind, Except.bind, pure, Except.pure]
  · simp only [view_forgetTree, view_modifyBlock _ hr, ite_eq_self, view_of_block hr]
    rfl

/-- Listing a parameter changes nothing but the kind of the entry block. -/
theorem addParameter_ok {vs : List ValueId} (v : ValueId) (h : p.view.kind b = some (.entry vs)) :
    ∃ p', p.addParameter b v = .ok p' ∧ p'.view = p.view.setKind b (.entry (vs ++ [v])) := by
  obtain ⟨r, hr, hk⟩ := exists_block h
  refine ⟨_, by rw [addParameter, getBlock_ok hr]; rfl, ?_⟩
  simp only [view_modifyBlock _ hr, hk, ite_eq_self, view_of_block hr]
  rfl

/-! ## Edges -/

theorem link_ok {a : BlockId} (ha : p.view.kind a ≠ none) (hb : p.view.kind b ≠ none) :
    ∃ p', p.link a b = .ok p' ∧ p'.view = p.view.link a b := by
  obtain ⟨ra, hra⟩ := block_of_kind ha
  obtain ⟨rb, hrb⟩ := block_of_kind hb
  let q := p.modifyBlock a (·.addSucc b)
  have hq : q.view = { p.view with
      succs := fun c => if c = a then
        if b ∈ p.view.succs a then p.view.succs a else p.view.succs a ++ [b]
        else p.view.succs c } := by
    have hadd : ra.addSucc b =
        { ra with succs := if b ∈ ra.succs then ra.succs else ra.succs ++ [b] } := by
      unfold Block.addSucc; split <;> rfl
    simp only [q, view_modifyBlock _ hra, hadd, ite_eq_self, view_of_block hra]
  obtain ⟨rq, hrq⟩ : ∃ rq, q.block? b = some rq := by
    refine block_of_kind ?_
    rw [hq]
    exact hb
  have hadd : rq.addPred a =
      { rq with preds := if a ∈ rq.preds then rq.preds else rq.preds ++ [a] } := by
    unfold Block.addPred; split <;> rfl
  refine ⟨(q.modifyBlock b (·.addPred a)).forgetTree a, ?_, ?_⟩
  · simp [link, getBlock_ok hra, getBlock_ok hrb, bind, Except.bind, pure, Except.pure]
    rfl
  · simp only [view_forgetTree, view_modifyBlock _ hrq, hadd, ite_eq_self, view_of_block hrq]
    rw [← (view_of_block hrq).2.2.2.2.1, hq]
    rfl

/-! ## Operands of phis -/

section

variable {phi : ValueId} {x : String} {old : List (BlockId × ValueId)}
  (operands : List (BlockId × ValueId)) (hphi : p.view.op phi = some (.phi x old))
  (hops : ∀ v ∈ operands.map (·.2), p.view.op v ≠ none)
include hphi hops

theorem view_assignPhi : (p.assignPhi phi operands).view = p.view.setPhi phi x operands := by
  let q := p.dropUses phi
  have hq : q.view = p.view.dropUser phi (p.view.operands phi) := view_dropUses p phi
  obtain ⟨j, hj, hjop⟩ : ∃ j, q.instr? phi = some j ∧ j.op = .phi x old :=
    exists_instr (by rw [hq]; exact hphi)
  have hwith : j.withPhiOperands operands = { j with op := .phi x operands } := by
    simp [Instr.withPhiOperands, hjop]
  have howner : q.view.owner phi = j.owner := by simp [view, hj]
  have huser (u : ValueId) : q.view.user phi u ↔ u ∈ j.users := by simp [view, hj]
  let t := q.modifyInstr phi (·.withPhiOperands operands)
  have ht : t.view = { q.view with
      op := fun y => if y = phi then some (.phi x operands) else q.view.op y } := by
    rw [view_modifyInstr _ hj, hwith, ite_eq_self howner]
    ext y
    case user =>
      by_cases hy : y = phi
      · subst hy; simp [huser]
      · simp [hy]
    all_goals rfl
  have hself : t.operands phi = operands.map (·.2) := by
    rw [← view_operands, ht]
    simp [View.operands, Op.operands]
  show (t.addUses phi).view = _
  rw [addUses, hself, view_addUsers, ht, hq]
  · rfl
  · rw [ht]
    intro v hv
    simp only [hq, View.dropUser]
    split
    · simp
    · exact hops v hv

theorem updatePhi_ok :
    ∃ p', p.updatePhi phi operands = .ok p' ∧ p'.view = p.view.setPhi phi x operands := by
  obtain ⟨i, hi, hop⟩ := exists_instr hphi
  refine ⟨p.assignPhi phi operands, ?_, view_assignPhi operands hphi hops⟩
  have hwith : (i.withPhiOperands operands).op = .phi x operands := by
    simp [Instr.withPhiOperands, hop]
  have hnone : p.missing? (Op.phi x operands).operands = none := missing?_eq_none hops
  simp only [updatePhi, getInstr_ok hi, bind, Except.bind, hwith, hnone]

end

/-! ## Removing blocks -/

theorem view_detach (p : Program) (v : ValueId) : (p.detach v).view = p.view.detach [v] := by
  have hdrop := view_dropUses p v
  cases hi : (p.dropUses v).instr? v with
  | none =>
      have hno : p.view.op v = none := by
        have : (p.dropUses v).view.op v = none := by simp [view, hi]
        rwa [hdrop] at this
      have hnone : p.instr? v = none := by simpa [view] using hno
      rw [detach, modifyInstr_of_none _ hi, hdrop]
      ext x
      case owner =>
        by_cases hx : x = v
        · subst hx; simp [View.dropUser, View.detach, view, hnone]
        · simp [View.dropUser, View.detach, hx]
      case user =>
        simp only [View.dropUser, View.detach, List.mem_singleton]
        constructor
        · rintro ⟨⟨j, hj, hu⟩, h⟩
          refine ⟨⟨j, hj, hu⟩, ?_, fun ⟨hy, hx⟩ => h ⟨hy, hy ▸ hx⟩⟩
          rintro rfl
          rw [hnone] at hj
          cases hj
        · rintro ⟨h, -, hn⟩
          exact ⟨h, fun ⟨hy, hx⟩ => hn ⟨hy, hy ▸ hx⟩⟩
      all_goals rfl
  | some i =>
      rw [detach, view_modifyInstr _ hi, hdrop]
      have hop : (p.dropUses v).view.op v = some i.op := by simp [view, hi]
      rw [hdrop] at hop
      ext x
      case op =>
        by_cases hx : x = v
        · subst hx; simp [View.detach, ← hop, View.dropUser]
        · simp [View.detach, View.dropUser, hx]
      case owner =>
        by_cases hx : x = v <;> simp [View.dropUser, View.detach, hx]
      case user u =>
        by_cases hx : x = v
        · simp [View.detach, hx]
        · simp only [View.dropUser, View.detach, List.mem_singleton, hx, if_false, not_false_eq_true,
            true_and]
          constructor
          · rintro ⟨h, hn⟩
            exact ⟨h, fun ⟨hy, hx⟩ => hn ⟨hy, hy ▸ hx⟩⟩
          · rintro ⟨h, hn⟩
            exact ⟨h, fun ⟨hy, hx⟩ => hn ⟨hy, hy ▸ hx⟩⟩
      all_goals rfl

/-- Detaching several instructions, one after the other. -/
theorem view_detachAll :
    ∀ (vs : List ValueId) (p : Program), (vs.foldl detach p).view = p.view.detach vs
  | [], p => by simp [View.detach]
  | v :: vs, p => by
      rw [List.foldl_cons, view_detachAll vs, view_detach]
      ext x
      case owner =>
        by_cases hx : x = v <;> simp [View.detach, hx]
      case user u =>
        simp only [View.detach, List.mem_cons, List.not_mem_nil, or_false, not_or]
        constructor
        · rintro ⟨⟨h, hv, hn⟩, hvs, hns⟩
          exact ⟨h, ⟨hv, hvs⟩, fun ⟨hu, hx⟩ => hu.elim (fun hu => hn ⟨hu, hx⟩) fun hu => hns ⟨hu, hx⟩⟩
        · rintro ⟨h, ⟨hv, hvs⟩, hn⟩
          exact ⟨⟨h, hv, fun ⟨hu, hx⟩ => hn ⟨Or.inl hu, hx⟩⟩, hvs, fun ⟨hu, hx⟩ => hn ⟨Or.inr hu, hx⟩⟩
      all_goals rfl

/-- Removing a block without edges only takes its contents and its place. -/
theorem view_dropBlock (hhome : p.view.home b = some m) (hm : p.view.sort m ≠ none)
    (hsuccs : p.view.succs b = []) (hpreds : p.view.preds b = []) :
    (p.dropBlock b).view = p.view.drop b := by
  obtain ⟨r, hr⟩ : ∃ r, p.block? b = some r := by
    cases hb : p.block? b with
    | none => simp [view, hb] at hhome
    | some r => exact ⟨r, rfl⟩
  obtain ⟨h1, h2, h3, h4, h5, h6, h7, h8, h9⟩ := view_of_block hr
  obtain rfl : r.method = m := by rw [h2] at hhome; exact Option.some.inj hhome
  have hcontents : r.contents = p.view.contents b := by rw [Block.contents, View.contents, h3, h4]
  let q := r.contents.foldl detach p
  have hq : q.view = p.view.detach (p.view.contents b) := by rw [← hcontents, view_detachAll]
  obtain ⟨rq, hrq⟩ : ∃ rq, q.block? b = some rq := by
    refine block_of_kind ?_
    rw [hq]
    show p.view.kind b ≠ none
    simp [h1]
  let t := q.modifyBlock b fun r => { r with phis := [], body := [] }
  have ht : t.view = { q.view with
      phis := fun c => if c = b then [] else q.view.phis c
      body := fun c => if c = b then [] else q.view.body c } := by
    simp only [t, view_modifyBlock _ hrq, ite_eq_self, view_of_block hrq]
  obtain ⟨mt, hmt⟩ : ∃ mt, t.method? r.method = some mt := by
    refine method_of_sort ?_
    rw [ht, hq]
    exact hm
  have hdrop : p.dropBlock b = t.modifyMethod r.method fun m =>
      { m with blocks := m.blocks.filter (· ≠ b), tree := none } := by
    rw [dropBlock, hr]
    simp only [← h6, ← h5, hsuccs, hpreds, List.foldl_nil]
    rfl
  simp only [hdrop, view_modifyMethod _ hmt, ite_eq_self, view_of_method hmt]
  rw [← (view_of_method hmt).2.2.2.1, ht, hq]
  simp only [View.drop, h2, Option.some.injEq]
  congr 1
  funext n
  by_cases hn : n = r.method
  · subst hn; simp [View.detach]
  · simp [hn, Ne.symm hn, View.detach]

end Program

end StructuredSsa
