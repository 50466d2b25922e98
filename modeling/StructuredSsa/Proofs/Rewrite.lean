import StructuredSsa.Fold
import StructuredSsa.Proofs.View

/-!
# Rewriting a program

What the operations of folding do to the view of a program: putting an
instruction before another, letting everything read one value instead of
another, removing an instruction, turning a branch into a jump and taking an
edge away.
-/

namespace StructuredSsa

/-- A phi without what it reads along edges from `a`. -/
def Op.without (a : BlockId) : Op → Op
  | phi x os => phi x (os.filter (·.1 ≠ a))
  | op => op

theorem Op.isPhi_without (a : BlockId) (op : Op) : (op.without a).isPhi = op.isPhi := by
  cases op <;> rfl

theorem Op.without_of_not_phi {a : BlockId} {op : Op} (h : op.isPhi = false) :
    op.without a = op := by
  cases op with
  | phi => cases h
  | _ => rfl

namespace View

/-- Put a detached instruction before another one of the block `b`. -/
def place (w : View) (b : BlockId) (anchor v : ValueId) : View :=
  { w with
    owner := fun x => if x = v then some b else w.owner x
    body := fun c => if c = b then insertBefore anchor v (w.body b) else w.body c }

open Classical in
/-- Let the users of `old` and the recorded bindings read `new`. -/
noncomputable def redirect (w : View) (old new : ValueId) : View :=
  { w with
    op := fun u => if w.user old u then (w.op u).map (·.substitute old new) else w.op u
    user := fun v u => v ≠ old ∧ (w.user v u ∨ v = new ∧ w.user old u)
    before := fun b => (w.before b).map (·.substitute old new)
    after := fun b => (w.after b).map (·.substitute old new) }

/-- Take an instruction of the block `b` out of it. -/
def remove (w : View) (b : BlockId) (v : ValueId) : View :=
  { w.dropUser v (w.operands v) with
    owner := fun x => if x = v then none else w.owner x
    phis := fun c => if c = b then (w.phis b).filter (· ≠ v) else w.phis c
    body := fun c => if c = b then (w.body b).filter (· ≠ v) else w.body c }

/-- Turn an instruction into a jump. -/
def becomeJump (w : View) (v : ValueId) (target : BlockId) : View :=
  { w.dropUser v (w.operands v) with
    op := fun x => if x = v then some (.jump target) else w.op x }

/-- Drop what the phi `v` reads along edges from `a`. -/
def dropOperand (w : View) (a : BlockId) (v : ValueId) : View :=
  match w.op v with
  | some (.phi x os) => w.setPhi v x (os.filter (·.1 ≠ a))
  | _ => w

/-- Take an edge away. -/
def dropEdge (w : View) (a b : BlockId) : View :=
  { w with
    succs := fun c => if c = a then (w.succs a).filter (· ≠ b) else w.succs c
    preds := fun c => if c = b then (w.preds b).filter (· ≠ a) else w.preds c }

/-- Take an edge away, and with it what phis read along it. -/
def unlink (w : View) (a b : BlockId) : View :=
  (w.phis b).foldl (fun w v => w.dropOperand a v) (w.dropEdge a b)

/-! ## Phis that lose an operand -/

theorem dropOperand_op (w : View) (a : BlockId) (v u : ValueId) :
    (w.dropOperand a v).op u = if u = v then (w.op v).map (·.without a) else w.op u := by
  rw [dropOperand]
  split
  · next x os hop => simp [setPhi, hop, Op.without]
  · next hnot =>
      by_cases hu : u = v
      · subst hu
        cases hop : w.op u with
        | none => simp
        | some op =>
            have hno : op.isPhi = false := by
              cases op with
              | phi x os => exact absurd hop (hnot x os)
              | _ => rfl
            simp [Op.without_of_not_phi hno]
      · simp [hu]

theorem without_without (a : BlockId) (op : Op) : (op.without a).without a = op.without a := by
  cases op <;> simp [Op.without, List.filter_filter]

/-- The phis of a list lose an operand, one after the other. -/
theorem foldl_dropOperand_op (a : BlockId) (u : ValueId) :
    ∀ (vs : List ValueId) (w : View), (vs.foldl (fun w v => w.dropOperand a v) w).op u
      = if u ∈ vs then (w.op u).map (·.without a) else w.op u
  | [], w => by simp
  | v :: vs, w => by
      rw [List.foldl_cons, foldl_dropOperand_op a u vs, dropOperand_op]
      by_cases huv : u = v
      · subst huv
        by_cases hmem : u ∈ vs
        · cases w.op u <;> simp [hmem, without_without]
        · simp [hmem]
      · simp [huv]

theorem operands_without {a : BlockId} {op : Op} {u : ValueId} (h : u ∈ (op.without a).operands) :
    u ∈ op.operands := by
  cases op with
  | phi x os =>
      obtain ⟨q, hq, rfl⟩ := List.mem_map.1 h
      exact List.mem_map_of_mem (List.mem_filter.1 hq).1
  | _ => exact h

end View

namespace Program

variable {p : Program} {b : BlockId} {old new v : ValueId}

theorem instr_of_op (h : p.view.op v ≠ none) : ∃ i, p.instr? v = some i := by
  obtain ⟨op, hop⟩ := Option.ne_none_iff_exists'.1 h
  obtain ⟨i, hi, -⟩ := exists_instr hop
  exact ⟨i, hi⟩

/-- An instruction is read through its record. -/
theorem view_of_instr {i : Instr} (h : p.instr? v = some i) :
    p.view.op v = some i.op ∧ p.view.owner v = i.owner
      ∧ ∀ u, p.view.user v u ↔ u ∈ i.users := by
  simp [view, h]

/-- Changing what an instruction does and nothing else. -/
theorem view_modifyOp (f : Op → Op) :
    (p.modifyInstr v fun i => { i with op := f i.op }).view = { p.view with
      op := fun x => if x = v then (p.view.op v).map f else p.view.op x } := by
  ext x u
  case values => simp [view, modifyInstr]
  case op | owner | user =>
    simp only [view, instr?_modifyInstr]
    by_cases hx : x = v
    · subst hx
      cases p.instr? x <;> simp
    · simp [hx, Ne.symm hx]
  all_goals rfl

/-- Changing where an instruction stands and nothing else. -/
theorem view_setOwner {o : Option BlockId} (hv : p.view.op v ≠ none) :
    (p.modifyInstr v fun i => { i with owner := o }).view = { p.view with
      owner := fun x => if x = v then o else p.view.owner x } := by
  obtain ⟨i, hi⟩ := instr_of_op hv
  obtain ⟨hop, -, huser⟩ := view_of_instr hi
  rw [view_modifyInstr _ hi, ite_eq_self hop]
  ext x u
  case user =>
    by_cases hx : x = v
    · subst hx; simp [huser]
    · simp [hx]
  all_goals rfl

/-- Changing the lists of a block and nothing else. -/
theorem view_setLists (f g : List ValueId → List ValueId) (hb : p.view.kind b ≠ none) :
    (p.modifyBlock b fun r => { r with phis := f r.phis, body := g r.body }).view = { p.view with
      phis := fun c => if c = b then f (p.view.phis b) else p.view.phis c
      body := fun c => if c = b then g (p.view.body b) else p.view.body c } := by
  obtain ⟨r, hr⟩ := block_of_kind hb
  simp only [view_modifyBlock _ hr, ite_eq_self, view_of_block hr]

/-! ## Moving and removing -/

theorem placeBefore_ok {anchor : ValueId} (hv : p.view.op v ≠ none) (hfree : p.view.owner v = none)
    (hanchor : p.view.owner anchor = some b) (hop : p.view.op anchor ≠ none)
    (hb : p.view.kind b ≠ none) :
    ∃ p', p.placeBefore anchor v = .ok p' ∧ p'.view = p.view.place b anchor v := by
  obtain ⟨i, hi⟩ := instr_of_op hv
  obtain ⟨a, ha⟩ := instr_of_op hop
  obtain ⟨-, hiowner, -⟩ := view_of_instr hi
  obtain ⟨-, haowner, -⟩ := view_of_instr ha
  have hi' : i.owner = none := hiowner.symm.trans hfree
  have ha' : a.owner = some b := haowner.symm.trans hanchor
  refine ⟨_, by simp [placeBefore, getInstr_ok hi, getInstr_ok ha, hi', ha', bind, Except.bind,
    pure, Except.pure]; rfl, ?_⟩
  have hblock : (p.modifyBlock b fun r => { r with body := insertBefore anchor v r.body }).view
      = { p.view with body := fun c =>
            if c = b then insertBefore anchor v (p.view.body b) else p.view.body c } := by
    refine (view_setLists id (insertBefore anchor v) hb).trans ?_
    simp only [id_eq, ite_eq_self (f := p.view.phis) (a := b) rfl]
  rw [view_setOwner (by rw [hblock]; exact hv), hblock]
  rfl

theorem removeInstr_ok (hv : p.view.op v ≠ none) (howner : p.view.owner v = some b)
    (hb : p.view.kind b ≠ none) (hfree : ∀ u, ¬p.view.user v u) :
    ∃ p', p.removeInstr v = .ok p' ∧ p'.view = p.view.remove b v := by
  obtain ⟨i, hi⟩ := instr_of_op hv
  obtain ⟨-, -, huser⟩ := view_of_instr hi
  have hnil : i.users = [] := List.eq_nil_iff_forall_not_mem.2 fun u hu => hfree u ((huser u).2 hu)
  refine ⟨(p.dropUses v).unlist v, by simp [removeInstr, getInstr_ok hi, hnil, bind, Except.bind,
    pure, Except.pure], ?_⟩
  have hdrop := view_dropUses p v
  have howner' : ((p.dropUses v).instr? v).bind (·.owner) = some b := by
    have : (p.dropUses v).view.owner v = some b := by
      rw [hdrop]
      exact howner
    simpa [view] using this
  rw [unlist, howner']
  have hset := view_setOwner (p := p.dropUses v) (v := v) (o := none) (by rw [hdrop]; exact hv)
  dsimp only
  rw [view_setLists (·.filter (· ≠ v)) (·.filter (· ≠ v)) (by rw [hset, hdrop]; exact hb), hset,
    hdrop]
  rfl

theorem becomeJump_ok (target : BlockId) (hv : p.view.op v ≠ none) :
    ∃ p', p.becomeJump v target = .ok p' ∧ p'.view = p.view.becomeJump v target := by
  obtain ⟨i, hi⟩ := instr_of_op hv
  refine ⟨_, by simp [becomeJump, getInstr_ok hi, bind, Except.bind, pure, Except.pure]; rfl, ?_⟩
  rw [view_modifyOp fun _ => .jump target, view_dropUses]
  obtain ⟨op, hop⟩ := Option.ne_none_iff_exists'.1 hv
  have hop' : (p.view.dropUser v (p.view.operands v)).op v = some op := hop
  simp only [hop', Option.map_some]
  rfl

/-! ## Reading another value -/

theorem view_redirectUse (old u : ValueId) (hnew : p.view.op new ≠ none) :
    (redirectUse old new p u).view = { p.view with
      op := fun x => if x = u then (p.view.op u).map (·.substitute old new) else p.view.op x
      user := fun v x => p.view.user v x ∨ v = new ∧ x = u } := by
  have hop := view_modifyOp (p := p) (v := u) (·.substitute old new)
  rw [redirectUse, view_addUser, hop]
  · ext v x
    case user => simp [View.addUser, and_comm]
    all_goals rfl
  · rw [hop]
    dsimp only
    split
    · next heq =>
        subst heq
        simpa using hnew
    · exact hnew

/-- Substituting twice is substituting once. -/
theorem substitute_substitute (hne : new ≠ old) (op : Op) :
    (op.substitute old new).substitute old new = op.substitute old new := by
  have hidem (v : ValueId) : (if (if v = old then new else v) = old then new
      else if v = old then new else v) = if v = old then new else v := by
    by_cases hv : v = old <;> simp [hv, hne]
  cases op <;> simp [Op.substitute, Op.mapOperands, hidem, Function.comp_def]

/-- Redirecting several users, one after the other. -/
theorem view_redirectUses (hne : new ≠ old) :
    ∀ (us : List ValueId) {p : Program}, p.view.op new ≠ none →
      (us.foldl (redirectUse old new) p).view = { p.view with
        op := fun x =>
          if x ∈ us then (p.view.op x).map (·.substitute old new) else p.view.op x
        user := fun v x => p.view.user v x ∨ v = new ∧ x ∈ us }
  | [], p, _ => by simp
  | u :: us, p, hnew => by
      have hu := view_redirectUse old u hnew
      have hnew' : (redirectUse old new p u).view.op new ≠ none := by
        rw [hu]
        dsimp only
        split
        · next heq =>
            subst heq
            simpa using hnew
        · exact hnew
      rw [List.foldl_cons, view_redirectUses hne us hnew', hu]
      ext x y
      case op =>
        dsimp only
        by_cases hxu : x = u
        · subst hxu
          by_cases hmem : x ∈ us
          · cases p.view.op x <;> simp [hmem, substitute_substitute hne]
          · simp [hmem]
        · simp [hxu]
      case user =>
        simp only [List.mem_cons, and_or_left, or_assoc]
      all_goals rfl

/-- Bindings recorded on blocks, all changed at once. -/
theorem view_substituteBlocks (old new : ValueId) :
    ({ p with blocks := p.blocks.map (·.substitute old new) } : Program).view = { p.view with
      before := fun b => (p.view.before b).map (·.substitute old new)
      after := fun b => (p.view.after b).map (·.substitute old new) } := by
  have hat (b : BlockId) :
      ({ p with blocks := p.blocks.map (·.substitute old new) } : Program).block? b
        = (p.block? b).map (·.substitute old new) := by
    simp [block?]
  ext b
  case blocks => simp [view]
  case kind | home | phis | body | preds | succs | before | after | idom =>
    simp only [view, phis, preds, succs, leaving?, hat]
    cases p.block? b <;> rfl
  all_goals rfl

theorem view_redirect (hne : new ≠ old) (hold : p.view.op old ≠ none)
    (hnew : p.view.op new ≠ none) :
    (p.redirect old new).view = p.view.redirect old new := by
  obtain ⟨i, hi⟩ := instr_of_op hold
  obtain ⟨hop, howner, huser⟩ := view_of_instr hi
  let q := p.modifyInstr old fun i => { i with users := [] }
  have hq : q.view = { p.view with user := fun v u => v ≠ old ∧ p.view.user v u } := by
    rw [view_modifyInstr _ hi, ite_eq_self hop, ite_eq_self howner]
    ext v u
    case user => by_cases hv : v = old <;> simp [hv]
    all_goals rfl
  have hredirected := view_redirectUses hne i.users (p := q) (by rw [hq]; exact hnew)
  rw [redirect, hi]
  dsimp only
  rw [view_substituteBlocks, hredirected, hq]
  ext v u
  case op =>
    simp only [View.redirect, huser]
  case user =>
    simp only [View.redirect, huser]
    by_cases hv : v = old
    · simp [hv, Ne.symm hne]
    · simp [hv]
  all_goals rfl

theorem replace_ok (hne : new ≠ old) (hold : p.view.op old ≠ none) (hnew : p.view.op new ≠ none) :
    ∃ p', p.replace old new = .ok p' ∧ p'.view = p.view.redirect old new := by
  obtain ⟨i, hi⟩ := instr_of_op hold
  obtain ⟨j, hj⟩ := instr_of_op hnew
  refine ⟨p.redirect old new, ?_, view_redirect hne hold hnew⟩
  rw [replace, if_neg (Ne.symm hne)]
  simp only [getInstr_ok hi, getInstr_ok hj, bind, Except.bind, pure, Except.pure]
  split <;> rfl

/-! ## Taking an edge away -/

theorem view_dropPhiOperand {a : BlockId} (h : ∀ u ∈ p.view.operands v, p.view.op u ≠ none) :
    (p.dropPhiOperand a v).view = p.view.dropOperand a v := by
  rw [dropPhiOperand]
  split
  · next x os _ _ _ hi =>
      have hop : p.view.op v = some (.phi x os) := by simp [view, hi]
      rw [View.dropOperand, hop]
      refine view_assignPhi _ hop fun u hu => h u ?_
      rw [View.operands, hop]
      obtain ⟨q, hq, rfl⟩ := List.mem_map.1 hu
      exact List.mem_map_of_mem (List.mem_filter.1 hq).1
  · next hnot =>
      rw [View.dropOperand]
      split
      · next x os hop =>
          obtain ⟨⟨_, _, _, _⟩, hi, rfl⟩ := exists_instr hop
          exact absurd hi (hnot _ _ _ _ _)
      · rfl

theorem view_dropPhiOperands (a : BlockId) :
    ∀ (vs : List ValueId) {p : Program}, (∀ v ∈ vs, ∀ u ∈ p.view.operands v, p.view.op u ≠ none) →
      (vs.foldl (fun p v => p.dropPhiOperand a v) p).view
        = vs.foldl (fun w v => w.dropOperand a v) p.view
  | [], p, _ => rfl
  | v :: vs, p, h => by
      have hv := view_dropPhiOperand (a := a) (h v (List.mem_cons_self ..))
      rw [List.foldl_cons, List.foldl_cons, ← hv]
      refine view_dropPhiOperands a vs fun x hx u hu => ?_
      rw [hv] at hu ⊢
      have hkept (y : ValueId) (hy : p.view.op y ≠ none) : (p.view.dropOperand a v).op y ≠ none := by
        rw [View.dropOperand_op]
        split
        · next heq => simpa [heq] using heq ▸ hy
        · exact hy
      refine hkept u (h x (List.mem_cons_of_mem _ hx) u ?_)
      rw [View.operands, View.dropOperand_op] at hu
      rw [View.operands]
      by_cases hxv : x = v
      · subst hxv
        cases hop : p.view.op x with
        | none => simp [hop] at hu
        | some op =>
            simp only [hop, ↓reduceIte, Option.map_some, Option.getD_some] at hu ⊢
            exact View.operands_without hu
      · simpa [hxv] using hu

theorem view_dropEdge {a : BlockId} (ha : p.view.kind a ≠ none) (hb : p.view.kind b ≠ none) :
    ((p.modifyBlock a (·.dropSucc b)).modifyBlock b (·.dropPred a)).view = p.view.dropEdge a b := by
  obtain ⟨r, hr⟩ := block_of_kind ha
  let q := p.modifyBlock a (·.dropSucc b)
  have hq : q.view = { p.view with
      succs := fun c => if c = a then (p.view.succs a).filter (· ≠ b) else p.view.succs c } := by
    simp only [q, view_modifyBlock _ hr, Block.dropSucc, ite_eq_self, view_of_block hr]
  obtain ⟨r', hr'⟩ := block_of_kind (p := q) (b := b) (by rw [hq]; exact hb)
  rw [view_modifyBlock _ hr']
  simp only [Block.dropPred, ite_eq_self, view_of_block hr']
  rw [← (view_of_block hr').2.2.2.2.1, hq]
  rfl

theorem unlink_ok {a : BlockId} (ha : p.view.kind a ≠ none) (hb : p.view.kind b ≠ none)
    (hops : ∀ v ∈ p.view.phis b, ∀ u ∈ p.view.operands v, p.view.op u ≠ none) :
    ∃ p', p.unlink a b = .ok p' ∧ p'.view = p.view.unlink a b := by
  obtain ⟨r, hr⟩ := block_of_kind ha
  obtain ⟨r', hr'⟩ := block_of_kind hb
  refine ⟨p.removeEdge a b, by simp [unlink, getBlock_ok hr, getBlock_ok hr', bind, Except.bind,
    pure, Except.pure], ?_⟩
  let q := (p.modifyBlock a (·.dropSucc b)).modifyBlock b (·.dropPred a)
  have hq : q.view = p.view.dropEdge a b := view_dropEdge ha hb
  have hphis : q.phis b = p.view.phis b := by
    show q.view.phis b = _
    rw [hq]
    rfl
  show (Program.forgetTree ((q.phis b).foldl (fun p v => p.dropPhiOperand a v) q) a).view = _
  rw [view_forgetTree, view_dropPhiOperands, hq, hphis]
  · rfl
  · rw [hphis, hq]
    exact hops

end Program

end StructuredSsa
