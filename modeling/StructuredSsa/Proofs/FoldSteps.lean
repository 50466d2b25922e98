import StructuredSsa.Proofs.Edits
import StructuredSsa.Proofs.Folding

/-!
# What folding does to any program

A visit that changes a program puts a constant in the place of an instruction
(`Program.FoldedAt`) or lets a branch take one way (`Program.FollowedAt`). Here
each of the two is described table by table, for any program whose tables agree:
blocks may be listed nowhere, use-lists may miss readers, a branch may have the
same block on both ways.

A pass is a sequence of such steps (`Fold.Steps`), and it ends in one of the ways
that `Fold.Ran` lists. If there is no step at all, then nothing that the pass
visits could be folded.
-/

namespace StructuredSsa

/-- An instruction apart from its readers. -/
def Instr.bare (i : Instr) : Instr := { i with users := [] }

/-- A method apart from the tree that is kept for it. -/
def Method.bare (m : Method) : Method := { m with tree := none }

/-- A phi with other operands. -/
def Op.withPhi (os : List (BlockId × ValueId)) : Op → Op
  | phi name _ => phi name os
  | op => op

namespace Program

variable {p q : Program} {b : BlockId} {old v : ValueId}

/-- The blocks of all methods, in the order in which a pass visits them. -/
def listedBlocks (p : Program) : List BlockId := p.methods.toList.flatMap (·.blocks)

/-! ## Use-lists, record by record -/

theorem instr?_addUses (p : Program) (v x : ValueId) : (p.addUses v).instr? x
    = (p.instr? x).map fun i => if x ∈ p.operands v then i.addUser v else i :=
  instr?_foldl_modify (fun i => addUser_idem i v) _ p x

theorem instr?_dropUses (p : Program) (v x : ValueId) : (p.dropUses v).instr? x
    = (p.instr? x).map fun i => if x ∈ p.operands v then i.dropUser v else i :=
  instr?_foldl_modify (fun i => by simp [Instr.dropUser]) _ p x

theorem mem_users_foldl_addUser {u : ValueId} : ∀ (us : List ValueId) (i : Instr),
    u ∈ (us.foldl Instr.addUser i).users ↔ u ∈ i.users ∨ u ∈ us
  | [], i => by simp
  | x :: us, i => by
      rw [List.foldl_cons, mem_users_foldl_addUser us, Instr.mem_users_addUser, List.mem_cons, or_assoc]

theorem foldl_addUser_eq : ∀ (us : List ValueId) (i : Instr),
    us.foldl Instr.addUser i = { i with users := (us.foldl Instr.addUser i).users }
  | [], _ => rfl
  | u :: us, i => by
      have haddUser : i.addUser u = { i with users := (i.addUser u).users } := by
        unfold Instr.addUser
        split <;> rfl
      rw [List.foldl_cons, foldl_addUser_eq us, haddUser]

/-- Who is listed depends on who was listed only. -/
theorem users_foldl_addUser : ∀ (us : List ValueId) {i j : Instr}, i.users = j.users →
    (us.foldl Instr.addUser i).users = (us.foldl Instr.addUser j).users
  | [], _, _, h => h
  | u :: us, i, j, h => users_foldl_addUser us (by
      unfold Instr.addUser
      rw [h]
      split
      · exact h
      · rfl)

theorem instr?_redirectUse (old new u : ValueId) (p : Program) (x : ValueId) :
    (redirectUse old new p u).instr? x = (p.instr? x).map fun i =>
      { i with
        op := if x = u then i.op.substitute old new else i.op
        users := if x = new then (i.addUser u).users else i.users } := by
  have hadd (i : Instr) : i.addUser u = { i with users := (i.addUser u).users } :=
    foldl_addUser_eq [u] i
  rw [redirectUse, instr?_modifyInstr, instr?_modifyInstr]
  cases p.instr? x with
  | none => simp
  | some i =>
      simp only [eq_comm (a := x)]
      by_cases hx : new = x
      · simp only [if_pos hx]
        split
        · exact congrArg some ((hadd _).trans
            (congrArg (Instr.mk _ _ _) (users_foldl_addUser [u] (i := { i with op := _ }) rfl)))
        · exact congrArg some (hadd i)
      · simp only [if_neg hx]
        split <;> rfl

/-- Readers of `old` come to read `new`, which lists them. -/
theorem instr?_redirectUses {new : ValueId} (hne : new ≠ old) :
    ∀ (us : List ValueId) (p : Program) (x : ValueId),
      (us.foldl (redirectUse old new) p).instr? x = (p.instr? x).map fun i =>
        { i with
          op := if x ∈ us then i.op.substitute old new else i.op
          users := if x = new then (us.foldl Instr.addUser i).users else i.users }
  | [], p, x => by simp
  | u :: us, p, x => by
      rw [List.foldl_cons, instr?_redirectUses hne us, instr?_redirectUse, Option.map_map]
      refine congrArg (Option.map · _) (funext fun i => ?_)
      simp only [Function.comp_apply, Instr.mk.injEq, true_and, List.mem_cons, List.foldl_cons]
      constructor
      · by_cases hu : x = u <;> by_cases hmem : x ∈ us <;> simp [hu, hmem, substitute_substitute hne]
      · by_cases hx : x = new
        · simp only [if_pos hx]
          exact users_foldl_addUser us rfl
        · simp only [if_neg hx]

/-! ## A constant in the place of an instruction -/

/-- The program `q` is `p` with the constant `n` in the place of the instruction
`old` of the block `b`. -/
structure FoldedAt (p q : Program) (b : BlockId) (old : ValueId) (n : Int64) (line : Nat) : Prop where
  consistent : q.Consistent
  methods : q.methods = p.methods
  globals : q.globals = p.globals
  values : q.values.size = p.values.size + 1
  block : ∀ a, q.block? a = (p.block? a).map fun r =>
    { r.substitute old ⟨p.values.size⟩ with body := r.body.map (rename old ⟨p.values.size⟩) }
  constant : ∃ us, q.instr? ⟨p.values.size⟩ = some ⟨.const n, some b, line, us⟩
    ∧ ∀ u, u ∈ us ↔ u ∈ p.users old
  removed : q.instr? old = (p.instr? old).map fun i => { i with owner := none, users := [] }
  other : ∀ u, u ≠ ⟨p.values.size⟩ → u ≠ old → q.instr? u = (p.instr? u).map fun i =>
    { i with
      op := if u ∈ p.users old then i.op.substitute old ⟨p.values.size⟩ else i.op
      users := if u ∈ p.operands old then i.users.filter (· ≠ old) else i.users }

theorem create_const (p : Program) (n : Int64) (line : Nat) : p.create (.const n) line
    = .ok (⟨p.values.size⟩, { p with values := p.values.push ⟨.const n, none, line, []⟩ }) := by
  simp [create, addInstr, missing?, Op.operands, addUses, operands, instr?]

theorem instr?_fresh (p : Program) : p.instr? ⟨p.values.size⟩ = none := by simp [instr?]

theorem Consistent.exists_instr (h : p.Consistent) (hv : v ∈ p.contents b) :
    ∃ i, p.instr? v = some i ∧ i.owner = some b := by
  have howner := (h.housed.owner v b).2 hv
  obtain ⟨i, hi, ho⟩ := Option.bind_eq_some_iff.1 howner
  exact ⟨i, hi, ho⟩

/-- What no step of a sequence changes, the sequence does not change. -/
theorem foldl_keeps {α β : Type} {f : Program → α → Program} {part : Program → β}
    (hf : ∀ p a, part (f p a) = part p) : ∀ (l : List α) (p : Program), part (l.foldl f p) = part p
  | [], _ => rfl
  | a :: l, p => (foldl_keeps hf l (f p a)).trans (hf p a)

/-- Everything but the table of values. -/
def frame (p : Program) : Array Method × Scope × Array Block × Nat :=
  (p.methods, p.globals, p.blocks, p.values.size)

theorem frame_modifyInstr (p : Program) (v : ValueId) (g : Instr → Instr) :
    (p.modifyInstr v g).frame = p.frame := by
  simp [frame, modifyInstr]

theorem frame_dropUses (p : Program) (v : ValueId) : (p.dropUses v).frame = p.frame :=
  foldl_keeps (fun p o => frame_modifyInstr p o _) _ p

theorem frame_addUses (p : Program) (v : ValueId) : (p.addUses v).frame = p.frame :=
  foldl_keeps (fun p o => frame_modifyInstr p o _) _ p

theorem frame_redirectUses (old new : ValueId) (us : List ValueId) (p : Program) :
    (us.foldl (redirectUse old new) p).frame = p.frame :=
  foldl_keeps (fun p u => (frame_modifyInstr _ new _).trans (frame_modifyInstr p u _)) us p

theorem block?_of_frame (h : q.frame = p.frame) (b : BlockId) : q.block? b = p.block? b := by
  have hblocks : q.blocks = p.blocks := congrArg (·.2.2.1) h
  rw [block?, block?, hblocks]

theorem instr?_redirect {new : ValueId} (hne : new ≠ old) (x : ValueId) :
    (p.redirect old new).instr? x = (p.instr? x).map fun i =>
      { i with
        op := if x ∈ p.users old then i.op.substitute old new else i.op
        users := if x = old then []
          else if x = new then ((p.users old).foldl Instr.addUser i).users else i.users } := by
  cases hold : p.instr? old with
  | none =>
      have hnone : p.users old = [] := by simp [users, hold]
      simp only [redirect, hold, hnone, List.foldl_nil, List.not_mem_nil, if_false, ite_self]
      cases hx : p.instr? x with
      | none => rfl
      | some i =>
          have : x ≠ old := by
            rintro rfl
            cases hold.symm.trans hx
          simp [this]
  | some j =>
      have husers : p.users old = j.users := by simp [users, hold]
      have hat : (p.redirect old new).instr? x = (j.users.foldl (redirectUse old new)
          (p.modifyInstr old fun i => { i with users := [] })).instr? x := by
        simp only [redirect, hold]
        rfl
      rw [husers, hat, instr?_redirectUses hne, instr?_modifyInstr]
      by_cases hx : x = old
      · subst hx
        cases p.instr? x <;> simp [Ne.symm hne]
      · simp only [if_neg hx, if_neg (Ne.symm hx)]

theorem replace_eq {new : ValueId} (hne : old ≠ new) (hold : p.instr? old ≠ none)
    (hnew : p.instr? new ≠ none) : p.replace old new = .ok (p.redirect old new) := by
  obtain ⟨i, hi⟩ := Option.ne_none_iff_exists'.1 hold
  obtain ⟨j, hj⟩ := Option.ne_none_iff_exists'.1 hnew
  rw [replace, if_neg hne, getInstr_ok hi, getInstr_ok hj]
  simp only [bind, Except.bind, pure, Except.pure]
  split <;> rfl

theorem redirect_rest (p : Program) (new : ValueId) (hold : p.instr? old ≠ none) :
    (p.redirect old new).frame
      = (p.methods, p.globals, p.blocks.map (·.substitute old new), p.values.size) := by
  obtain ⟨j, hj⟩ := Option.ne_none_iff_exists'.1 hold
  have hfold : (j.users.foldl (redirectUse old new)
      (p.modifyInstr old fun i => { i with users := [] })).frame = p.frame :=
    (frame_redirectUses ..).trans (frame_modifyInstr ..)
  simp only [redirect, hj]
  simp only [frame, Prod.mk.injEq] at hfold ⊢
  obtain ⟨h1, h2, h3, h4⟩ := hfold
  exact ⟨h1, h2, by rw [h3], h4⟩

theorem mem_contents_of_body (hv : v ∈ p.view.body b) : v ∈ p.contents b := by
  rw [view] at hv
  rw [contents]
  cases hr : p.block? b with
  | none => simp [hr] at hv
  | some r => simpa [hr, Block.contents] using Or.inr (by simpa [hr] using hv)

theorem mem_contents_of_phi (hv : v ∈ p.phis b) : v ∈ p.contents b := by
  rw [phis] at hv
  rw [contents]
  cases hr : p.block? b with
  | none => simp [hr] at hv
  | some r => simpa [hr, Block.contents] using Or.inl (by simpa [hr] using hv)

/-- What stands in the body of a block stands nowhere else, and once. -/
theorem Consistent.body_nodup (h : p.Consistent) {r : Block} (hr : p.block? b = some r) :
    r.body.Nodup ∧ ∀ v ∈ r.body, v ∉ r.phis := by
  have hnodup := h.housed.contents_nodup b
  simp only [contents, hr, Option.map_some, Option.getD_some, Block.contents] at hnodup
  obtain ⟨-, hbody, hapart⟩ := List.nodup_append.1 hnodup
  exact ⟨hbody, fun v hv hphi => hapart v hphi v hv rfl⟩

theorem Consistent.eq_of_contents (h : p.Consistent) {a : BlockId} (ha : v ∈ p.contents a)
    (hb : v ∈ p.contents b) : a = b :=
  Option.some.inj (((h.housed.owner v a).2 ha).symm.trans ((h.housed.owner v b).2 hb))

/-- The constant `n`, put right before the instruction `old` of the block `b`. -/
def withConstant (p : Program) (b : BlockId) (old : ValueId) (n : Int64) (line : Nat) : Program :=
  (({ p with values := p.values.push ⟨.const n, none, line, []⟩ } : Program).modifyBlock b
    fun r => { r with body := insertBefore old ⟨p.values.size⟩ r.body }).modifyInstr
      ⟨p.values.size⟩ fun i => { i with owner := some b }

/-- An instruction of the block `b` that a new value can be put in the place of. -/
structure Replaceable (p : Program) (b : BlockId) (old : ValueId) (i : Instr) : Prop where
  instr : p.instr? old = some i
  owner : i.owner = some b
  fresh : (⟨p.values.size⟩ : ValueId) ≠ old
  self : old ∉ p.operands old
  unread : old ∉ p.users old
  stranger : (⟨p.values.size⟩ : ValueId) ∉ p.users old

theorem Consistent.replaceable (h : p.Consistent) (hold : old ∈ p.contents b)
    (hself : old ∉ p.operands old) : ∃ i, p.Replaceable b old i := by
  obtain ⟨i, hi, howner⟩ := h.exists_instr hold
  refine ⟨i, hi, howner, ?_, hself, fun hu => hself (h.registered.user_reads old old hu), fun hu => ?_⟩
  · rintro rfl
    cases p.instr?_fresh.symm.trans hi
  · have := h.registered.user_reads old _ hu
    simp [operands, p.instr?_fresh] at this

section

variable {n : Int64} {line : Nat}

theorem instr?_withConstant (x : ValueId) : (p.withConstant b old n line).instr? x
    = if x = ⟨p.values.size⟩ then some ⟨.const n, some b, line, []⟩ else p.instr? x := by
  rw [withConstant, instr?_modifyInstr, instr?_modifyBlock, instr?_push]
  by_cases hx : x = ⟨p.values.size⟩
  · simp [hx]
  · simp [hx, Ne.symm hx]

theorem block?_withConstant (a : BlockId) : (p.withConstant b old n line).block? a
    = if b = a then (p.block? a).map fun r =>
        { r with body := insertBefore old ⟨p.values.size⟩ r.body } else p.block? a := by
  rw [withConstant, block?_modifyInstr, block?_modifyBlock]
  rfl

variable {i : Instr} (h : p.Replaceable b old i)

include h

/-- The readers of `old` read the constant instead. -/
theorem instr?_redirectToConstant (x : ValueId) :
    ((p.withConstant b old n line).redirect old ⟨p.values.size⟩).instr? x
      = if x = old then some { i with users := [] }
        else if x = ⟨p.values.size⟩ then
          some ((p.users old).foldl Instr.addUser ⟨.const n, some b, line, []⟩)
        else (p.instr? x).map fun j =>
          { j with op := if x ∈ p.users old then j.op.substitute old ⟨p.values.size⟩ else j.op } := by
  have husers : (p.withConstant b old n line).users old = p.users old := by
    rw [users, instr?_withConstant, if_neg (Ne.symm h.fresh), users]
  rw [instr?_redirect h.fresh, husers, instr?_withConstant]
  by_cases hx : x = old
  · subst hx
    simp [Ne.symm h.fresh, h.instr, h.unread]
  · by_cases hc : x = ⟨p.values.size⟩
    · rw [foldl_addUser_eq]
      simp [hc, h.fresh, h.stranger]
    · simp [hx, hc]

theorem replaceByConstant_run : Fold.replaceByConstant old n line p
    = .ok () ((((p.withConstant b old n line).redirect old ⟨p.values.size⟩).dropUses old).unlist old) := by
  have hplace : ({ p with values := p.values.push ⟨.const n, none, line, []⟩ } :
      Program).placeBefore old ⟨p.values.size⟩ = .ok (p.withConstant b old n line) := by
    rw [placeBefore, getInstr_ok ((instr?_push ..).trans (if_pos rfl)),
      getInstr_ok ((instr?_push ..).trans ((if_neg (Ne.symm h.fresh)).trans h.instr))]
    simp [bind, Except.bind, pure, Except.pure, h.owner, withConstant]
  have hreplace : (p.withConstant b old n line).replace old ⟨p.values.size⟩
      = .ok ((p.withConstant b old n line).redirect old ⟨p.values.size⟩) :=
    replace_eq (Ne.symm h.fresh) (by simp [instr?_withConstant, Ne.symm h.fresh, h.instr])
      (by simp [instr?_withConstant])
  have hremove (q : Program) (hq : q.instr? old = some { i with users := [] }) :
      q.removeInstr old = .ok ((q.dropUses old).unlist old) := by
    rw [removeInstr, getInstr_ok hq]
    simp [bind, Except.bind, pure, Except.pure]
  simp [Fold.replaceByConstant, bind, EStateM.bind, Fold.editWith, Fold.edit, create_const, hplace,
    hreplace, hremove _ ((instr?_redirectToConstant h old).trans (if_pos rfl))]

/-- Taking `old` out of its block, once it has no readers. -/
theorem unlist_eq (hq : q.instr? old = some { i with users := [] }) :
    (q.dropUses old).unlist old = ((q.dropUses old).modifyInstr old fun i =>
      { i with owner := none }).modifyBlock b fun r =>
        { r with body := r.body.filter (· ≠ old), phis := r.phis.filter (· ≠ old) } := by
  have hstands : ((q.dropUses old).instr? old).bind (·.owner) = some b := by
    rw [instr?_dropUses, hq, Option.map_some, Option.bind_some]
    split <;> exact h.owner
  rw [unlist, hstands]

end

/-- The blocks, once `old` is taken out: each lists the constant where it listed
`old`. -/
theorem Consistent.block?_replaced (h : p.Consistent) (hold : old ∈ p.view.body b)
    (hfresh : (⟨p.values.size⟩ : ValueId) ≠ old) {n : Int64} {line : Nat}
    (hq : q.blocks = (p.withConstant b old n line).blocks.map (·.substitute old ⟨p.values.size⟩))
    (a : BlockId) : (q.modifyBlock b fun r =>
        { r with body := r.body.filter (· ≠ old), phis := r.phis.filter (· ≠ old) }).block? a
      = (p.block? a).map fun r => { r.substitute old ⟨p.values.size⟩ with
          body := r.body.map (rename old ⟨p.values.size⟩) } := by
  have hat : q.block? a = ((p.withConstant b old n line).block? a).map
      (·.substitute old ⟨p.values.size⟩) := by
    rw [block?, hq, Array.getElem?_map, block?]
  rw [block?_modifyBlock, hat, block?_withConstant]
  cases hr : p.block? a with
  | none => split <;> rfl
  | some r =>
      by_cases ha : b = a
      · subst ha
        obtain ⟨hnodup, hapart⟩ := h.body_nodup hr
        have hbody : old ∈ r.body := by simpa [view, hr] using hold
        have hphis : r.phis.filter (· ≠ old) = r.phis :=
          List.filter_eq_self.2 fun v hv => decide_eq_true (by rintro rfl; exact hapart v hbody hv)
        simp only [if_pos, Option.map_some, Block.substitute, hphis,
          filter_insertBefore hnodup hbody hfresh]
      · have hmap : r.body.map (rename old ⟨p.values.size⟩) = r.body := by
          conv_rhs => rw [← List.map_id r.body]
          refine List.map_congr_left fun v hv => rename_of_ne ?_
          rintro rfl
          exact ha (h.eq_of_contents (mem_contents_of_body hold)
            (by simp [contents, hr, Block.contents, hv]))
        simp only [if_neg ha, Option.map_some, hmap]
        rfl

theorem exists_foldedAt (h : p.Consistent) (hold : old ∈ p.view.body b)
    (hself : old ∉ p.operands old) (n : Int64) (line : Nat) :
    ∃ q, Fold.replaceByConstant old n line p = .ok () q ∧ p.FoldedAt q b old n line := by
  have hcontents := mem_contents_of_body hold
  obtain ⟨i, hi⟩ := h.replaceable hcontents hself
  have hrun : Fold.replaceByConstant old n line p = _ := replaceByConstant_run hi
  have hconsistent := Fold.lasting_consistent.replaceByConstant old n line p h
  rw [hrun] at hconsistent
  obtain ⟨q, hq⟩ : ∃ q, q = (p.withConstant b old n line).redirect old ⟨p.values.size⟩ := ⟨_, rfl⟩
  have hinstr (x : ValueId) : ((p.withConstant b old n line).redirect old ⟨p.values.size⟩).instr? x
      = _ := instr?_redirectToConstant hi x
  have hframe : (q.dropUses old).frame = (p.methods, p.globals,
      (p.withConstant b old n line).blocks.map (·.substitute old ⟨p.values.size⟩),
      p.values.size + 1) := by
    have hold' : (p.withConstant b old n line).instr? old ≠ none := by
      simp [instr?_withConstant, Ne.symm hi.fresh, hi.instr]
    rw [frame_dropUses, hq, redirect_rest _ _ hold']
    simp [withConstant, modifyInstr, modifyBlock]
  rw [← hq] at hinstr hrun hconsistent
  have hold₁ : q.instr? old = some { i with users := [] } := (hinstr old).trans (if_pos rfl)
  have hreads : q.operands old = p.operands old := by simp [operands, hold₁, hi.instr]
  have hdrop (x : ValueId) : (q.dropUses old).instr? x = (q.instr? x).map fun i =>
      if x ∈ p.operands old then i.dropUser old else i := by
    rw [instr?_dropUses, hreads]
  rw [unlist_eq hi hold₁] at hrun hconsistent
  simp only [frame, Prod.mk.injEq] at hframe
  obtain ⟨hmethods, hglobals, hblocks, hsize⟩ := hframe
  refine ⟨_, hrun, hconsistent, hmethods, hglobals, ?_, fun a => ?_, ?_, ?_, fun u hu hne => ?_⟩
  · simpa [modifyBlock, modifyInstr] using hsize
  · exact h.block?_replaced hold hi.fresh hblocks a
  · rw [instr?_modifyBlock, instr?_modifyInstr, if_neg (Ne.symm hi.fresh), hdrop, hinstr,
      if_neg hi.fresh, if_pos rfl, foldl_addUser_eq, Option.map_some]
    have hmem (u : ValueId) :
        u ∈ ((p.users old).foldl Instr.addUser ⟨.const n, some b, line, []⟩).users
          ↔ u ∈ p.users old := by
      simp [mem_users_foldl_addUser]
    split
    · refine ⟨_, rfl, fun u => ?_⟩
      rw [List.mem_filter, hmem]
      exact and_iff_left_of_imp fun hu => decide_eq_true (by rintro rfl; exact hi.unread hu)
    · exact ⟨_, rfl, hmem⟩
  · rw [instr?_modifyBlock, instr?_modifyInstr, if_pos rfl, hdrop, hold₁, hi.instr]
    simp [hself]
  · rw [instr?_modifyBlock, instr?_modifyInstr, if_neg (Ne.symm hne), hdrop, hinstr, if_neg hne,
      if_neg hu]
    cases p.instr? u with
    | none => rfl
    | some j => by_cases hread : u ∈ p.operands old <;> simp [hread, Instr.dropUser]

/-! ## A branch that takes one way -/

/-- The instruction `u` of `q` does `f` of what it did in `p`, on the same line of the
same block; its readers are left open. -/
def Redone (p q : Program) (u : ValueId) (f : Op → Op) : Prop :=
  (q.instr? u).map Instr.bare = (p.instr? u).map fun i => { i.bare with op := f i.op }

section

variable {s : Program} {u : ValueId} {f g : Op → Op}

theorem Redone.refl (p : Program) (u : ValueId) : Redone p p u id := rfl

theorem Redone.trans (h : Redone p q u f) (k : Redone q s u g) : Redone p s u fun op => g (f op) := by
  unfold Redone at *
  rw [k]
  cases hi : p.instr? u with
  | none =>
      rw [hi] at h
      simp_all
  | some i =>
      rw [hi] at h
      obtain ⟨⟨op, owner, line, us⟩, hj, hij⟩ := Option.map_eq_some_iff.1 h
      obtain ⟨rfl, rfl, rfl, -⟩ := Instr.mk.inj hij
      rw [hj]
      rfl

theorem Redone.congr (h : Redone p q u f) (hfg : ∀ i, p.instr? u = some i → f i.op = g i.op) :
    Redone p q u g := by
  unfold Redone at *
  rw [h]
  cases hi : p.instr? u with
  | none => rfl
  | some i => simp only [Option.map_some, hfg i hi]

theorem Redone.of_instr? {k : Instr → Instr} (h : q.instr? u = (p.instr? u).map k)
    (hk : ∀ i, (k i).bare = { i.bare with op := f i.op }) : Redone p q u f := by
  unfold Redone
  rw [h, Option.map_map]
  exact congrArg (Option.map · (p.instr? u)) (funext hk)

theorem Redone.exists_instr (h : Redone p q u f) {i : Instr} (hi : p.instr? u = some i) :
    ∃ i', q.instr? u = some i' ∧ i'.op = f i.op ∧ i'.owner = i.owner ∧ i'.line = i.line := by
  unfold Redone at h
  rw [hi, Option.map_some, Option.map_eq_some_iff] at h
  obtain ⟨i', hi', hbare⟩ := h
  simp only [Instr.bare, Instr.mk.injEq] at hbare
  exact ⟨i', hi', hbare.1, hbare.2.1, hbare.2.2.1⟩

theorem Redone.view_op (h : Redone p q u f) : q.view.op u = (p.view.op u).map f := by
  have hop := congrArg (Option.map Instr.op) h
  simp only [Option.map_map, Function.comp_def] at hop
  simp only [view, Option.map_map, Function.comp_def]
  exact hop

/-- What an instruction reads, once it is done otherwise. -/
theorem Redone.operands (h : Redone p q u f) (hf : ∀ op x, x ∈ (f op).operands → x ∈ op.operands)
    {x : ValueId} (hx : x ∈ q.operands u) : x ∈ p.operands u := by
  unfold Redone at h
  rw [operands_eq] at hx ⊢
  have hops := congrArg (Option.map fun i : Instr => i.op.operands) h
  simp only [Option.map_map, Function.comp_def] at hops
  have hat : (q.instr? u).map (fun i => i.op.operands) = _ := hops
  rw [hat] at hx
  cases hi : p.instr? u with
  | none => simp [hi] at hx
  | some i =>
      simp only [hi, Option.map_some, Option.getD_some] at hx ⊢
      exact hf i.op x hx

end

theorem redone_dropUses (p : Program) (v u : ValueId) : Redone p (p.dropUses v) u id := by
  refine .of_instr? (instr?_dropUses p v u) fun i => ?_
  split <;> rfl

theorem redone_addUses (p : Program) (v u : ValueId) : Redone p (p.addUses v) u id := by
  refine .of_instr? (instr?_addUses p v u) fun i => ?_
  dsimp only [Instr.addUser]
  split
  · split <;> rfl
  · rfl

theorem redone_modifyOp (p : Program) (v u : ValueId) (f : Op → Op) :
    Redone p (p.modifyInstr v fun i => { i with op := f i.op }) u fun op =>
      if u = v then f op else op := by
  unfold Redone
  rw [instr?_modifyInstr]
  by_cases hu : v = u
  · subst hu
    cases p.instr? v <;> simp [Instr.bare]
  · rw [if_neg hu]
    simp only [if_neg (Ne.symm hu)]
    rfl

theorem withPhiOperands_eq (i : Instr) (os : List (BlockId × ValueId)) :
    i.withPhiOperands os = { i with op := i.op.withPhi os } := by
  obtain ⟨op, owner, line, users⟩ := i
  cases op <;> rfl

theorem redone_assignPhi (p : Program) (phi u : ValueId) (os : List (BlockId × ValueId)) :
    Redone p (p.assignPhi phi os) u fun op => if u = phi then op.withPhi os else op := by
  have hphi : (·.withPhiOperands os) = fun i : Instr => { i with op := i.op.withPhi os } :=
    funext fun i => withPhiOperands_eq i os
  have hmodify := redone_modifyOp (p.dropUses phi) phi u (·.withPhi os)
  rw [← hphi] at hmodify
  exact ((redone_dropUses p phi u).trans hmodify).trans (redone_addUses _ phi u)

/-- A phi that gets fewer operands is listed as a reader of those it keeps. -/
theorem mem_users_assignPhi {phi x u : ValueId} {os : List (BlockId × ValueId)}
    (hu : u ∈ p.users x) (hx : x ∈ (p.assignPhi phi os).operands u) :
    u ∈ (p.assignPhi phi os).users x := by
  rw [assignPhi, (addUses_rest _ _).2] at hx
  obtain ⟨q, hq⟩ : ∃ q, q = (p.dropUses phi).modifyInstr phi (·.withPhiOperands os) := ⟨_, rfl⟩
  have husers : q.users = (p.dropUses phi).users :=
    hq ▸ users_modifyInstr fun i => (withPhiOperands_rest i os).1
  have hother (hne : u ≠ phi) : u ∈ q.users x :=
    husers ▸ (mem_users_foldl_drop _ p).2 ⟨hu, fun h => hne h.1⟩
  rw [assignPhi, ← hq]
  rw [← hq] at hx
  cases hi : q.instr? x with
  | none =>
      have hsize : q.values.size = p.values.size :=
        hq ▸ congrArg (·.2.2.2) ((frame_modifyInstr _ phi _).trans (frame_dropUses p phi))
      have hnone : p.instr? x = none := by simpa [instr?, hsize] using hi
      simp [users, hnone] at hu
  | some i =>
      simp only [users, instr?_addUses, hi, Option.map_some, Option.getD_some] at hother ⊢
      by_cases hne : u = phi
      · rw [if_pos (hne ▸ hx), Instr.mem_users_addUser]
        exact Or.inr hne
      · split
        · exact (Instr.mem_users_addUser ..).2 (Or.inl (hother hne))
        · exact hother hne

theorem redone_dropPhiOperand (p : Program) (a : BlockId) (phi u : ValueId) :
    Redone p (p.dropPhiOperand a phi) u fun op => if u = phi then op.without a else op := by
  rw [dropPhiOperand]
  split
  · next name os owner line us hphi =>
      refine (redone_assignPhi p phi u _).congr fun i hi => ?_
      by_cases hu : u = phi
      · subst hu
        obtain rfl := Option.some.inj (hphi.symm.trans hi)
        rfl
      · simp [hu]
  · next hnot =>
      refine (Redone.refl p u).congr fun i hi => ?_
      by_cases hu : u = phi
      · subst hu
        obtain ⟨op, owner, line, us⟩ := i
        cases op with
        | phi name os => exact absurd hi (hnot name os owner line us)
        | _ => simp [Op.without]
      · simp [hu]

theorem mem_users_dropPhiOperand {a : BlockId} {phi x u : ValueId} (hu : u ∈ p.users x)
    (hx : x ∈ (p.dropPhiOperand a phi).operands u) : u ∈ (p.dropPhiOperand a phi).users x := by
  unfold dropPhiOperand at hx ⊢
  split
  · next h =>
      simp only [h] at hx
      exact mem_users_assignPhi hu hx
  · exact hu

theorem operands_ite_without {c : Prop} [Decidable c] {a : BlockId} (op : Op) (x : ValueId)
    (hx : x ∈ (if c then op.without a else op).operands) : x ∈ op.operands := by
  split at hx
  · exact View.operands_without hx
  · exact hx

theorem redone_dropPhiOperands (a : BlockId) (u : ValueId) : ∀ (phis : List ValueId) (p : Program),
    Redone p (phis.foldl (fun p phi => p.dropPhiOperand a phi) p) u fun op =>
      if u ∈ phis then op.without a else op
  | [], p => (Redone.refl p u).congr fun i _ => by simp
  | phi :: phis, p => by
      refine ((redone_dropPhiOperand p a phi u).trans
        (redone_dropPhiOperands a u phis (p.dropPhiOperand a phi))).congr fun i _ => ?_
      by_cases hu : u = phi <;> by_cases hmem : u ∈ phis <;>
        simp only [hu, hmem, List.mem_cons, if_true, if_false, true_or, or_true, or_self, ite_self,
          View.without_without]

theorem mem_users_dropPhiOperands {a : BlockId} {x u : ValueId} :
    ∀ (phis : List ValueId) {p : Program}, u ∈ p.users x →
      x ∈ (phis.foldl (fun p phi => p.dropPhiOperand a phi) p).operands u →
      u ∈ (phis.foldl (fun p phi => p.dropPhiOperand a phi) p).users x
  | [], _, hu, _ => hu
  | phi :: phis, p, hu, hx => by
      have hread := (redone_dropPhiOperands a u phis (p.dropPhiOperand a phi)).operands
        operands_ite_without hx
      exact mem_users_dropPhiOperands phis (mem_users_dropPhiOperand hu hread) hx

theorem bare_forgetTree (p : Program) (b : BlockId) :
    (p.forgetTree b).methods.map Method.bare = p.methods.map Method.bare
      ∧ (p.forgetTree b).globals = p.globals := by
  unfold forgetTree
  split
  · refine ⟨?_, rfl⟩
    ext1
    · simp [modifyMethod]
    · next k hk hk' =>
        simp only [modifyMethod, Array.getElem_map, Array.getElem_modify]
        split <;> rfl
  · exact ⟨rfl, rfl⟩

theorem frame_dropPhiOperand (p : Program) (a : BlockId) (phi : ValueId) :
    (p.dropPhiOperand a phi).frame = p.frame := by
  unfold dropPhiOperand
  split
  · exact (frame_addUses _ phi).trans ((frame_modifyInstr _ phi _).trans (frame_dropUses p phi))
  · rfl

/-- The blocks without the edge from `a` to `b`. -/
theorem block?_dropEdge (a b c : BlockId) :
    ((p.modifyBlock a (·.dropSucc b)).modifyBlock b (·.dropPred a)).block? c
      = (p.block? c).map fun r =>
        { r with
          succs := if c = a then r.succs.filter (· ≠ b) else r.succs
          preds := if c = b then r.preds.filter (· ≠ a) else r.preds } := by
  rw [block?_modifyBlock, block?_modifyBlock]
  by_cases ha : a = c <;> by_cases hb : b = c <;> cases p.block? c <;>
    simp [ha, hb, eq_comm, Block.dropSucc, Block.dropPred]

/-- What taking an edge away does to each table. -/
structure EdgeRemoved (p q : Program) (a b : BlockId) : Prop where
  methods : q.methods.map Method.bare = p.methods.map Method.bare
  globals : q.globals = p.globals
  values : q.values.size = p.values.size
  block : ∀ c, q.block? c = (p.block? c).map fun r =>
    { r with
      succs := if c = a then r.succs.filter (· ≠ b) else r.succs
      preds := if c = b then r.preds.filter (· ≠ a) else r.preds }
  instr : ∀ u, Redone p q u fun op => if u ∈ p.phis b then op.without a else op
  reader : ∀ x u, u ∈ p.users x → x ∈ q.operands u → u ∈ q.users x

theorem edgeRemoved_removeEdge (p : Program) (a b : BlockId) : p.EdgeRemoved (p.removeEdge a b) a b := by
  obtain ⟨q, hq⟩ : ∃ q, q = (p.modifyBlock a (·.dropSucc b)).modifyBlock b (·.dropPred a) := ⟨_, rfl⟩
  obtain ⟨s, hs⟩ : ∃ s, s = (q.phis b).foldl (fun p phi => p.dropPhiOperand a phi) q := ⟨_, rfl⟩
  have hedge : p.removeEdge a b = s.forgetTree a := by rw [hs, hq]; rfl
  have hphis : q.phis b = p.phis b := by
    rw [phis, phis, hq, block?_dropEdge]
    cases p.block? b <;> rfl
  have hframe : s.frame = q.frame := hs ▸ foldl_keeps (fun p phi => frame_dropPhiOperand p a phi) _ q
  simp only [frame, Prod.mk.injEq] at hframe
  obtain ⟨hmethods, hglobals, hblocks, hvalues⟩ := hframe
  obtain ⟨htree, hscope⟩ := s.bare_forgetTree a
  obtain ⟨hblocks', hvalues'⟩ := s.forgetTree_tables a
  obtain ⟨-, husers, hoperands⟩ := value_tables hvalues'
  have hinstr : (s.forgetTree a).instr? = s.instr? := by funext x; rw [instr?, instr?, hvalues']
  rw [hedge]
  refine
    { methods := by rw [htree, hmethods, hq]; rfl
      globals := by rw [hscope, hglobals, hq]; rfl
      values := by rw [hvalues', hvalues, hq]; rfl
      block := fun c => by rw [block?, hblocks', hblocks, hq]; exact block?_dropEdge a b c
      instr := fun u => ?_
      reader := fun x u hu hx => ?_ }
  · unfold Redone
    rw [hinstr, hs, redone_dropPhiOperands a u, hphis, hq]
    rfl
  · rw [husers]
    rw [hoperands, hs] at hx
    rw [hs]
    exact mem_users_dropPhiOperands _ (by rw [hq]; exact hu) hx

/-- The program `q` is `p` with a jump to `taken` in the place of the branch `v` of
the block `b`, and without the edge to `dropped`. -/
structure FollowedAt (p q : Program) (b : BlockId) (v : ValueId) (taken dropped : BlockId) : Prop where
  consistent : q.Consistent
  methods : q.methods.map Method.bare = p.methods.map Method.bare
  globals : q.globals = p.globals
  values : q.values.size = p.values.size
  block : ∀ c, q.block? c = (p.block? c).map fun r =>
    { r with
      succs := if c = b then r.succs.filter (· ≠ dropped) else r.succs
      preds := if c = dropped then r.preds.filter (· ≠ b) else r.preds }
  instr : ∀ u, Redone p q u fun op =>
    if u = v then .jump taken else if u ∈ p.phis dropped then op.without b else op
  /-- Who still reads a value is still listed as its reader. -/
  reader : ∀ x u, u ∈ p.users x → u ≠ v → x ∈ q.operands u → u ∈ q.users x

theorem followedAt_of_unlink (h : p.Consistent) {taken dropped : BlockId} {s : Program}
    (hjump : p.becomeJump v taken = .ok s) (hq : s.unlink b dropped = .ok q) :
    p.FollowedAt q b v taken dropped := by
  have hconsistent := (h.becomeJump hjump).unlink hq
  obtain ⟨-, -, hjump⟩ := bind_eq_ok hjump
  have hs := Except.ok.inj hjump
  obtain ⟨-, -, hq⟩ := bind_eq_ok hq
  obtain ⟨-, -, hq⟩ := bind_eq_ok hq
  obtain rfl := Except.ok.inj hq
  have hframe : s.frame = p.frame := hs ▸ (frame_modifyInstr _ v _).trans (frame_dropUses p v)
  have hblock : s.block? = p.block? := funext (block?_of_frame hframe)
  have hphis : s.phis dropped = p.phis dropped := by rw [phis, phis, hblock]
  simp only [frame, Prod.mk.injEq] at hframe
  obtain ⟨hmethods, hglobals, -, hvalues⟩ := hframe
  have hcut := edgeRemoved_removeEdge s b dropped
  refine
    { consistent := hconsistent
      methods := by rw [hcut.methods, hmethods]
      globals := by rw [hcut.globals, hglobals]
      values := by rw [hcut.values, hvalues]
      block := fun c => by rw [hcut.block, hblock]
      instr := fun u => ?_
      reader := fun x u hu huv hx => hcut.reader x u ?_ hx }
  · have hjumps : Redone p s u fun op => if u = v then .jump taken else op :=
      hs ▸ (redone_dropUses p v u).trans (redone_modifyOp _ v u fun _ => .jump taken)
    refine (hjumps.trans (hcut.instr u)).congr fun i _ => ?_
    rw [hphis]
    by_cases huv : u = v <;> by_cases hmem : u ∈ p.phis dropped <;> simp [huv, hmem, Op.without]
  · have husers : s.users = (p.dropUses v).users := hs ▸ users_modifyInstr fun _ => rfl
    rw [husers]
    exact (mem_users_foldl_drop _ p).2 ⟨hu, fun h => huv h.1⟩

end Program

end StructuredSsa
