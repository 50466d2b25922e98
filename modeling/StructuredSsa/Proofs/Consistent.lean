import Mathlib.Data.List.Nodup
import StructuredSsa.Fold
import StructuredSsa.Verify

/-!
# Consistency under any edits

The tables of a program say several things twice: an edge stands on both of its
ends, an instruction knows its block and the block lists it, and what an
instruction reads has it in its use-list. `Program.Consistent` says that the two
sides agree.

Nothing is assumed about where a program comes from. `Edit` is any request that
the editing interface takes, whatever the handles in it, and
`afterEdits_consistent` is about every sequence of requests that does not fault:
phis may read themselves, blocks may be taken out while they loop back to
themselves, and instructions may be put back after they were removed.
-/

namespace StructuredSsa

namespace Program

variable {p q : Program}

/-- Everything that stands in a block. -/
def contents (p : Program) (b : BlockId) : List ValueId :=
  ((p.block? b).map (·.contents)).getD []

/-- The block an instruction stands in. -/
def owner? (p : Program) (v : ValueId) : Option BlockId := (p.instr? v).bind (·.owner)

/-- The instructions that are listed as readers of a value. -/
def users (p : Program) (v : ValueId) : List ValueId := ((p.instr? v).map (·.users)).getD []

/-- An edge stands on both of its ends, and once on each. -/
structure Linked (p : Program) : Prop where
  edge : ∀ a b, b ∈ p.succs a ↔ a ∈ p.preds b
  succs_nodup : ∀ a, (p.succs a).Nodup
  preds_nodup : ∀ b, (p.preds b).Nodup

/-- An instruction stands where its block lists it, in one place. -/
structure Housed (p : Program) : Prop where
  owner : ∀ v b, p.owner? v = some b ↔ v ∈ p.contents b
  contents_nodup : ∀ b, (p.contents b).Nodup

/-- A use-list names readers of its value, and each of them once. -/
structure Registered (p : Program) : Prop where
  user_reads : ∀ v, ∀ u ∈ p.users v, v ∈ p.operands u
  users_nodup : ∀ v, (p.users v).Nodup

/-- Whatever the tables say twice, they say the same. -/
structure Consistent (p : Program) : Prop where
  linked : p.Linked
  housed : p.Housed
  registered : p.Registered

/-! ## What decides each part -/

theorem Linked.congr (h : p.Linked) (hs : q.succs = p.succs) (hp : q.preds = p.preds) : q.Linked :=
  ⟨by rw [hs, hp]; exact h.edge, by rw [hs]; exact h.succs_nodup, by rw [hp]; exact h.preds_nodup⟩

theorem Housed.congr (h : p.Housed) (ho : q.owner? = p.owner?) (hc : q.contents = p.contents) :
    q.Housed :=
  ⟨by rw [ho, hc]; exact h.owner, by rw [hc]; exact h.contents_nodup⟩

theorem Registered.congr (h : p.Registered) (hu : q.users = p.users) (ho : q.operands = p.operands) :
    q.Registered :=
  ⟨by rw [hu, ho]; exact h.user_reads, by rw [hu]; exact h.users_nodup⟩

/-- Edges and contents are read from the table of blocks. -/
theorem block_tables (h : q.blocks = p.blocks) :
    q.succs = p.succs ∧ q.preds = p.preds ∧ q.contents = p.contents := by
  have hat : q.block? = p.block? := by
    funext b
    rw [block?, block?, h]
  refine ⟨?_, ?_, ?_⟩ <;> funext b
  · rw [succs, succs, hat]
  · rw [preds, preds, hat]
  · rw [contents, contents, hat]

/-- Owners, users and operands are read from the table of values. -/
theorem value_tables (h : q.values = p.values) :
    q.owner? = p.owner? ∧ q.users = p.users ∧ q.operands = p.operands := by
  have hat : q.instr? = p.instr? := by
    funext v
    rw [instr?, instr?, h]
  refine ⟨?_, ?_, ?_⟩ <;> funext v
  · rw [owner?, owner?, hat]
  · rw [users, users, hat]
  · rw [operands, operands, hat]

/-- Methods do not matter. -/
theorem Consistent.of_tables (h : p.Consistent) (hb : q.blocks = p.blocks)
    (hv : q.values = p.values) : q.Consistent := by
  obtain ⟨hs, hp, hc⟩ := block_tables hb
  obtain ⟨ho, hu, hr⟩ := value_tables hv
  exact ⟨h.linked.congr hs hp, h.housed.congr ho hc, h.registered.congr hu hr⟩

theorem forgetTree_tables (p : Program) (b : BlockId) :
    (p.forgetTree b).blocks = p.blocks ∧ (p.forgetTree b).values = p.values := by
  unfold forgetTree
  split <;> exact ⟨rfl, rfl⟩

theorem Consistent.forgetTree (h : p.Consistent) (b : BlockId) : (p.forgetTree b).Consistent :=
  h.of_tables (p.forgetTree_tables b).1 (p.forgetTree_tables b).2

/-! ## Changing one record -/

theorem succs_eq (p : Program) (b : BlockId) : p.succs b = ((p.block? b).map (·.succs)).getD [] := by
  rw [succs]
  cases p.block? b <;> rfl

theorem preds_eq (p : Program) (b : BlockId) : p.preds b = ((p.block? b).map (·.preds)).getD [] := by
  rw [preds]
  cases p.block? b <;> rfl

theorem operands_eq (p : Program) (v : ValueId) :
    p.operands v = ((p.instr? v).map (·.op.operands)).getD [] := by
  rw [operands]
  cases p.instr? v <;> rfl

theorem owner?_eq (p : Program) (v : ValueId) : p.owner? v = ((p.instr? v).map (·.owner)).join := by
  rw [owner?]
  cases p.instr? v <;> rfl

section

variable {α : Type} {p : Program} {b : BlockId} {v : ValueId} {f : Block → Block}
  {g : Instr → Instr}

/-- A part of a block record, after a change of one of the records. -/
theorem field_modifyBlock (field : Block → α) (c : BlockId) :
    ((p.modifyBlock b f).block? c).map field
      = if b = c then (p.block? c).map fun r => field (f r) else (p.block? c).map field := by
  rw [block?_modifyBlock]
  split
  · cases p.block? c <;> rfl
  · rfl

theorem field_modifyBlock_eq {field : Block → α} (hf : ∀ r, field (f r) = field r) (c : BlockId) :
    ((p.modifyBlock b f).block? c).map field = (p.block? c).map field := by
  rw [field_modifyBlock]
  simp only [hf, ite_self]

/-- A part of an instruction, after a change of one of them. -/
theorem field_modifyInstr (field : Instr → α) (x : ValueId) :
    ((p.modifyInstr v g).instr? x).map field
      = if v = x then (p.instr? x).map fun i => field (g i) else (p.instr? x).map field := by
  rw [instr?_modifyInstr]
  split
  · cases p.instr? x <;> rfl
  · rfl

theorem field_modifyInstr_eq {field : Instr → α} (hg : ∀ i, field (g i) = field i) (x : ValueId) :
    ((p.modifyInstr v g).instr? x).map field = (p.instr? x).map field := by
  rw [field_modifyInstr]
  simp only [hg, ite_self]

theorem succs_modifyBlock (hf : ∀ r, (f r).succs = r.succs) :
    (p.modifyBlock b f).succs = p.succs := by
  funext c
  rw [succs_eq, field_modifyBlock_eq hf, ← succs_eq]

theorem preds_modifyBlock (hf : ∀ r, (f r).preds = r.preds) :
    (p.modifyBlock b f).preds = p.preds := by
  funext c
  rw [preds_eq, field_modifyBlock_eq hf, ← preds_eq]

theorem contents_modifyBlock (hf : ∀ r, (f r).contents = r.contents) :
    (p.modifyBlock b f).contents = p.contents := by
  funext c
  rw [contents, field_modifyBlock_eq hf, ← contents]

theorem owner?_modifyInstr (hg : ∀ i, (g i).owner = i.owner) :
    (p.modifyInstr v g).owner? = p.owner? := by
  funext x
  rw [owner?_eq, field_modifyInstr_eq hg, ← owner?_eq]

theorem users_modifyInstr (hg : ∀ i, (g i).users = i.users) :
    (p.modifyInstr v g).users = p.users := by
  funext x
  rw [users, field_modifyInstr_eq hg, ← users]

theorem operands_modifyInstr (hg : ∀ i, (g i).op = i.op) :
    (p.modifyInstr v g).operands = p.operands := by
  funext x
  rw [operands_eq, field_modifyInstr_eq fun i => by rw [hg i], ← operands_eq]

theorem Registered.modifyBlock (h : p.Registered) : (p.modifyBlock b f).Registered := h.congr rfl rfl

/-- A block in which only the recorded bindings and pointers change. -/
theorem Consistent.modifyBlock (h : p.Consistent) (hs : ∀ r, (f r).succs = r.succs)
    (hp : ∀ r, (f r).preds = r.preds) (hc : ∀ r, (f r).contents = r.contents) :
    (p.modifyBlock b f).Consistent :=
  ⟨h.linked.congr (succs_modifyBlock hs) (preds_modifyBlock hp),
    h.housed.congr rfl (contents_modifyBlock hc), h.registered.modifyBlock⟩

end

/-! ## Use-lists -/

theorem addUser_rest (i : Instr) (u : ValueId) :
    (i.addUser u).op = i.op ∧ (i.addUser u).owner = i.owner := by
  unfold Instr.addUser
  split <;> exact ⟨rfl, rfl⟩

theorem addUser_nodup {i : Instr} (h : i.users.Nodup) (u : ValueId) : (i.addUser u).users.Nodup := by
  unfold Instr.addUser
  split
  · exact h
  · next hu => simpa using (List.nodup_concat _ u).2 ⟨hu, h⟩

theorem addUser_idem (i : Instr) (v : ValueId) : (i.addUser v).addUser v = i.addUser v := by
  rw [Instr.addUser, if_pos ((i.mem_users_addUser v v).2 (Or.inr rfl))]

theorem instr?_push (p : Program) (i : Instr) (x : ValueId) :
    ({ p with values := p.values.push i } : Program).instr? x
      = if x = ⟨p.values.size⟩ then some i else p.instr? x := by
  obtain ⟨n⟩ := x
  simp [instr?, Array.getElem?_push]

/-- The same change of several instructions that is no change the second time. -/
theorem instr?_foldl_modify {g : Instr → Instr} (hg : ∀ i, g (g i) = g i) :
    ∀ (os : List ValueId) (p : Program) (x : ValueId),
      (os.foldl (fun p o => p.modifyInstr o g) p).instr? x
        = (p.instr? x).map fun i => if x ∈ os then g i else i
  | [], p, x => by simp
  | o :: os, p, x => by
      rw [List.foldl_cons, instr?_foldl_modify hg os, instr?_modifyInstr]
      by_cases hx : o = x
      · subst hx
        cases p.instr? o with
        | none => simp
        | some i => by_cases hmem : o ∈ os <;> simp [hmem, hg]
      · cases p.instr? x with
        | none => simp [hx]
        | some i => simp [hx, Ne.symm hx]

/-- Instructions differ, but not where they stand. -/
structure OpsOnly (p q : Program) : Prop where
  blocks : q.blocks = p.blocks
  owner : q.owner? = p.owner?

theorem OpsOnly.refl (p : Program) : OpsOnly p p := ⟨rfl, rfl⟩

theorem OpsOnly.trans {r : Program} (h : OpsOnly p q) (k : OpsOnly q r) : OpsOnly p r :=
  ⟨k.blocks.trans h.blocks, k.owner.trans h.owner⟩

theorem OpsOnly.linked (h : OpsOnly p q) (hp : p.Linked) : q.Linked :=
  hp.congr (block_tables h.blocks).1 (block_tables h.blocks).2.1

theorem OpsOnly.housed (h : OpsOnly p q) (hp : p.Housed) : q.Housed :=
  hp.congr h.owner (block_tables h.blocks).2.2

theorem opsOnly_modifyInstr {v : ValueId} {g : Instr → Instr} (hg : ∀ i, (g i).owner = i.owner) :
    OpsOnly p (p.modifyInstr v g) :=
  ⟨rfl, owner?_modifyInstr hg⟩

/-- Changes of use-lists, one after the other. -/
theorem foldl_modifyUsers {g : Instr → Instr} (hop : ∀ i, (g i).op = i.op)
    (howner : ∀ i, (g i).owner = i.owner) : ∀ (os : List ValueId) (p : Program),
    OpsOnly p (os.foldl (fun p o => p.modifyInstr o g) p)
      ∧ (os.foldl (fun p o => p.modifyInstr o g) p).operands = p.operands
  | [], p => ⟨.refl p, rfl⟩
  | o :: os, p => by
      obtain ⟨hrest, hoperands⟩ := foldl_modifyUsers hop howner os (p.modifyInstr o g)
      exact ⟨(opsOnly_modifyInstr howner).trans hrest, hoperands.trans (operands_modifyInstr hop)⟩

theorem addUses_rest (p : Program) (v : ValueId) :
    OpsOnly p (p.addUses v) ∧ (p.addUses v).operands = p.operands :=
  foldl_modifyUsers (fun i => (addUser_rest i v).1) (fun i => (addUser_rest i v).2) _ p

theorem dropUses_rest (p : Program) (v : ValueId) :
    OpsOnly p (p.dropUses v) ∧ (p.dropUses v).operands = p.operands :=
  foldl_modifyUsers (g := (·.dropUser v)) (fun _ => rfl) (fun _ => rfl) _ p

theorem mem_users_foldl_add {v u x : ValueId} : ∀ (os : List ValueId) (p : Program),
    u ∈ (os.foldl (fun p o => p.modifyInstr o (·.addUser v)) p).users x →
      u ∈ p.users x ∨ (u = v ∧ x ∈ os)
  | [], _, h => Or.inl h
  | o :: os, p, h => by
      rcases mem_users_foldl_add os _ h with h | ⟨rfl, hx⟩
      · rw [users, field_modifyInstr] at h
        split at h
        · next hox =>
            subst hox
            cases hi : p.instr? o with
            | none => simp [hi] at h
            | some i =>
                simp only [hi, Option.map_some, Option.getD_some, Instr.mem_users_addUser] at h
                refine h.imp (fun h => ?_) (fun h => ⟨h, List.mem_cons_self ..⟩)
                simpa [users, hi] using h
        · exact Or.inl h
      · exact Or.inr ⟨rfl, List.mem_cons_of_mem _ hx⟩

theorem mem_users_foldl_drop {v u x : ValueId} : ∀ (os : List ValueId) (p : Program),
    u ∈ (os.foldl (fun p o => p.modifyInstr o (·.dropUser v)) p).users x ↔
      u ∈ p.users x ∧ ¬(u = v ∧ x ∈ os)
  | [], p => by simp
  | o :: os, p => by
      rw [List.foldl_cons, mem_users_foldl_drop os, users, field_modifyInstr]
      by_cases hox : o = x
      · subst hox
        rw [if_pos rfl, users]
        cases p.instr? o with
        | none => simp
        | some i =>
            simp only [Option.map_some, Option.getD_some, Instr.mem_users_dropUser,
              List.mem_cons_self, and_true]
            exact ⟨fun h => h.1, fun h => ⟨h, fun k => h.2 k.1⟩⟩
      · simp [users, hox, Ne.symm hox]

theorem users_foldl_nodup {g : Instr → Instr} (hg : ∀ i, i.users.Nodup → (g i).users.Nodup) :
    ∀ (os : List ValueId) (p : Program), (∀ v, (p.users v).Nodup) →
      ∀ v, ((os.foldl (fun p o => p.modifyInstr o g) p).users v).Nodup
  | [], _, h => h
  | o :: os, p, h => by
      refine users_foldl_nodup hg os _ fun x => ?_
      have hx := h x
      rw [users] at hx ⊢
      rw [field_modifyInstr]
      split
      · cases hi : p.instr? x with
        | none => simp
        | some i => exact hg i (by simpa [hi] using hx)
      · exact hx

section

variable (h : p.Registered)
include h

theorem Registered.addUses (v : ValueId) : (p.addUses v).Registered := by
  refine ⟨fun x u hu => ?_, users_foldl_nodup (fun i hi => addUser_nodup hi v) _ p h.users_nodup⟩
  rw [(p.addUses_rest v).2]
  rcases mem_users_foldl_add _ p hu with hu | ⟨rfl, hx⟩
  · exact h.user_reads x u hu
  · exact hx

theorem Registered.dropUses (v : ValueId) : (p.dropUses v).Registered := by
  refine ⟨fun x u hu => ?_, users_foldl_nodup (g := (·.dropUser v))
    (fun i hi => List.Nodup.filter _ hi) _ p h.users_nodup⟩
  rw [(p.dropUses_rest v).2]
  exact h.user_reads x u ((mem_users_foldl_drop _ p).1 hu).1

/-- An instruction whose uses are dropped is in no use-list. -/
theorem Registered.not_user (v x : ValueId) : v ∉ (p.dropUses v).users x := by
  intro hv
  obtain ⟨hv, hnot⟩ := (mem_users_foldl_drop _ p).1 hv
  exact hnot ⟨rfl, h.user_reads x v hv⟩

/-- An instruction that is in no use-list may come to read anything. -/
theorem Registered.modifyOp {v : ValueId} (hfree : ∀ x, v ∉ p.users x) {g : Instr → Instr}
    (hg : ∀ i, (g i).users = i.users) : (p.modifyInstr v g).Registered := by
  have husers : (p.modifyInstr v g).users = p.users := users_modifyInstr hg
  refine ⟨fun x u hu => ?_, fun x => husers ▸ h.users_nodup x⟩
  rw [husers] at hu
  rw [operands_eq, field_modifyInstr, if_neg, ← operands_eq]
  · exact h.user_reads x u hu
  · rintro rfl
    exact hfree x hu

/-- A value may lose its whole use-list. -/
theorem Registered.clearUsers {v : ValueId} {g : Instr → Instr} (hop : ∀ i, (g i).op = i.op)
    (hg : ∀ i, (g i).users = []) : (p.modifyInstr v g).Registered := by
  have husers (x : ValueId) :
      (p.modifyInstr v g).users x = [] ∨ (p.modifyInstr v g).users x = p.users x := by
    rw [users, field_modifyInstr]
    split
    · left
      cases p.instr? x <;> simp [hg]
    · exact Or.inr rfl
  refine ⟨fun x u hu => ?_, fun x => ?_⟩
  · rw [operands_modifyInstr hop]
    rcases husers x with hx | hx <;> rw [hx] at hu
    · cases hu
    · exact h.user_reads x u hu
  · rcases husers x with hx | hx <;> rw [hx]
    · exact List.nodup_nil
    · exact h.users_nodup x

end

/-! ## New operands for a phi -/

theorem withPhiOperands_rest (i : Instr) (os : List (BlockId × ValueId)) :
    (i.withPhiOperands os).users = i.users ∧ (i.withPhiOperands os).owner = i.owner := by
  unfold Instr.withPhiOperands
  split <;> exact ⟨rfl, rfl⟩

theorem Registered.assignPhi (h : p.Registered) (v : ValueId) (os : List (BlockId × ValueId)) :
    (p.assignPhi v os).Registered :=
  ((h.dropUses v).modifyOp (h.not_user v) fun i => (withPhiOperands_rest i os).1).addUses v

theorem opsOnly_assignPhi (p : Program) (v : ValueId) (os : List (BlockId × ValueId)) :
    OpsOnly p (p.assignPhi v os) :=
  ((p.dropUses_rest v).1.trans (opsOnly_modifyInstr fun i => (withPhiOperands_rest i os).2)).trans
    (addUses_rest _ v).1

/-! ## Edges -/

section

variable {a b x y : BlockId}

theorem mem_succs_addSucc (ha : p.block? a ≠ none) :
    y ∈ (p.modifyBlock a (·.addSucc b)).succs x ↔ y ∈ p.succs x ∨ x = a ∧ y = b := by
  obtain ⟨r, hr⟩ := Option.ne_none_iff_exists'.1 ha
  rw [succs_eq, field_modifyBlock]
  by_cases hx : a = x
  · subst hx
    simp [succs_eq, hr]
  · simp [succs_eq, hx, Ne.symm hx]

theorem mem_preds_addPred (hb : p.block? b ≠ none) :
    y ∈ (p.modifyBlock b (·.addPred a)).preds x ↔ y ∈ p.preds x ∨ x = b ∧ y = a := by
  obtain ⟨r, hr⟩ := Option.ne_none_iff_exists'.1 hb
  rw [preds_eq, field_modifyBlock]
  by_cases hx : b = x
  · subst hx
    simp [preds_eq, hr]
  · simp [preds_eq, hx, Ne.symm hx]

theorem addSucc_rest (r : Block) (b : BlockId) :
    (r.addSucc b).preds = r.preds ∧ (r.addSucc b).contents = r.contents := by
  unfold Block.addSucc
  split <;> exact ⟨rfl, rfl⟩

theorem addPred_rest (r : Block) (a : BlockId) :
    (r.addPred a).succs = r.succs ∧ (r.addPred a).contents = r.contents := by
  unfold Block.addPred
  split <;> exact ⟨rfl, rfl⟩

theorem succs_addSucc_nodup (h : ∀ x, (p.succs x).Nodup) :
    ((p.modifyBlock a (·.addSucc b)).succs x).Nodup := by
  have hx := h x
  rw [succs_eq] at hx ⊢
  rw [field_modifyBlock]
  split
  · cases hr : p.block? x with
    | none => simp
    | some r =>
        rw [hr] at hx
        show (r.addSucc b).succs.Nodup
        unfold Block.addSucc
        split
        · exact hx
        · next hb => simpa using (List.nodup_concat _ b).2 ⟨hb, hx⟩
  · exact hx

theorem preds_addPred_nodup (h : ∀ x, (p.preds x).Nodup) :
    ((p.modifyBlock b (·.addPred a)).preds x).Nodup := by
  have hx := h x
  rw [preds_eq] at hx ⊢
  rw [field_modifyBlock]
  split
  · cases hr : p.block? x with
    | none => simp
    | some r =>
        rw [hr] at hx
        show (r.addPred a).preds.Nodup
        unfold Block.addPred
        split
        · exact hx
        · next ha => simpa using (List.nodup_concat _ a).2 ⟨ha, hx⟩
  · exact hx

/-- An edge that is entered on both of its ends. -/
theorem Consistent.addEdge (h : p.Consistent) (ha : p.block? a ≠ none) (hb : p.block? b ≠ none) :
    ((p.modifyBlock a (·.addSucc b)).modifyBlock b (·.addPred a)).Consistent := by
  let q := p.modifyBlock a (·.addSucc b)
  have hsuccs : (q.modifyBlock b (·.addPred a)).succs = q.succs :=
    succs_modifyBlock fun r => (addPred_rest r a).1
  have hpreds : q.preds = p.preds := preds_modifyBlock fun r => (addSucc_rest r b).1
  have hb' : q.block? b ≠ none := by
    rw [block?_modifyBlock]
    split
    · simpa using hb
    · exact hb
  refine ⟨⟨fun x y => ?_, fun x => ?_, fun x => preds_addPred_nodup fun y => ?_⟩,
    h.housed.congr rfl ?_, h.registered.modifyBlock.modifyBlock⟩
  · rw [hsuccs, mem_succs_addSucc ha, mem_preds_addPred hb', hpreds, h.linked.edge,
      and_comm (a := x = a)]
  · rw [hsuccs]
    exact succs_addSucc_nodup h.linked.succs_nodup
  · rw [hpreds]
    exact h.linked.preds_nodup y
  · exact (contents_modifyBlock (f := (·.addPred a)) fun r => (addPred_rest r a).2).trans
      (contents_modifyBlock (f := (·.addSucc b)) fun r => (addSucc_rest r b).2)

theorem succs_dropSucc : (p.modifyBlock a (·.dropSucc b)).succs x
    = if a = x then (p.succs x).filter (· ≠ b) else p.succs x := by
  rw [succs_eq, field_modifyBlock, succs_eq]
  split
  · cases p.block? x <;> rfl
  · rfl

theorem preds_dropPred : (p.modifyBlock b (·.dropPred a)).preds x
    = if b = x then (p.preds x).filter (· ≠ a) else p.preds x := by
  rw [preds_eq, field_modifyBlock, preds_eq]
  split
  · cases p.block? x <;> rfl
  · rfl

/-- An edge that is struck out on both of its ends. -/
theorem Linked.dropEdge (h : p.Linked) (a b : BlockId) :
    ((p.modifyBlock a (·.dropSucc b)).modifyBlock b (·.dropPred a)).Linked := by
  let q := p.modifyBlock a (·.dropSucc b)
  have hsuccs : (q.modifyBlock b (·.dropPred a)).succs = q.succs := succs_modifyBlock fun _ => rfl
  have hpreds : q.preds = p.preds := preds_modifyBlock fun _ => rfl
  refine ⟨fun x y => ?_, fun x => ?_, fun x => ?_⟩
  · rw [hsuccs, succs_dropSucc, preds_dropPred, hpreds]
    have hedge := h.edge x y
    by_cases hx : a = x <;> by_cases hy : b = y
    · subst hx hy
      simp
    · subst hx
      simpa [hy, Ne.symm hy] using hedge
    · subst hy
      simpa [hx, Ne.symm hx] using hedge
    · simpa [hx, hy] using hedge
  · rw [hsuccs, succs_dropSucc]
    split
    · exact (h.succs_nodup x).filter _
    · exact h.succs_nodup x
  · rw [preds_dropPred, hpreds]
    split
    · exact (h.preds_nodup x).filter _
    · exact h.preds_nodup x

/-! Phis lose what they read along an edge. -/

theorem opsOnly_dropPhiOperand (p : Program) (a : BlockId) (v : ValueId) :
    OpsOnly p (p.dropPhiOperand a v) := by
  unfold dropPhiOperand
  split
  · exact opsOnly_assignPhi ..
  · exact .refl p

theorem Registered.dropPhiOperand (h : p.Registered) (a : BlockId) (v : ValueId) :
    (p.dropPhiOperand a v).Registered := by
  unfold Program.dropPhiOperand
  split
  · exact h.assignPhi ..
  · exact h

theorem opsOnly_dropPhiOperands (a : BlockId) : ∀ (vs : List ValueId) (p : Program),
    OpsOnly p (vs.foldl (fun p v => p.dropPhiOperand a v) p)
  | [], p => .refl p
  | v :: vs, p => (opsOnly_dropPhiOperand p a v).trans (opsOnly_dropPhiOperands a vs _)

theorem Registered.dropPhiOperands (a : BlockId) : ∀ (vs : List ValueId) {p : Program},
    p.Registered → (vs.foldl (fun p v => p.dropPhiOperand a v) p).Registered
  | [], _, h => h
  | v :: vs, _, h => Registered.dropPhiOperands a vs (h.dropPhiOperand a v)

/-- What taking edges away leaves as it was, and what it keeps up. -/
structure FewerEdges (p q : Program) : Prop where
  owner : q.owner? = p.owner?
  contents : q.contents = p.contents
  linked : p.Linked → q.Linked
  registered : p.Registered → q.Registered

theorem FewerEdges.refl (p : Program) : FewerEdges p p := ⟨rfl, rfl, id, id⟩

theorem FewerEdges.trans {r : Program} (h : FewerEdges p q) (k : FewerEdges q r) : FewerEdges p r :=
  ⟨k.owner.trans h.owner, k.contents.trans h.contents, fun hp => k.linked (h.linked hp),
    fun hp => k.registered (h.registered hp)⟩

theorem fewerEdges_removeEdge (p : Program) (a b : BlockId) : FewerEdges p (p.removeEdge a b) := by
  let q := (p.modifyBlock a (·.dropSucc b)).modifyBlock b (·.dropPred a)
  let s := (q.phis b).foldl (fun p v => p.dropPhiOperand a v) q
  have hs : OpsOnly q s := opsOnly_dropPhiOperands a _ q
  obtain ⟨hqo, hqu, hqr⟩ := value_tables (p := p) (q := q) rfl
  have hqc : q.contents = p.contents :=
    (contents_modifyBlock (f := (·.dropPred a)) fun _ => rfl).trans
      (contents_modifyBlock (f := (·.dropSucc b)) fun _ => rfl)
  have hedge : p.removeEdge a b = s.forgetTree a := rfl
  obtain ⟨hblocks, hvalues⟩ := s.forgetTree_tables a
  obtain ⟨hsuccs, hpreds, hcontents⟩ := block_tables hblocks
  obtain ⟨howner, husers, hoperands⟩ := value_tables hvalues
  rw [hedge]
  refine ⟨howner.trans (hs.owner.trans hqo), ?_, fun h => ?_, fun h => ?_⟩
  · exact hcontents.trans ((block_tables hs.blocks).2.2.trans hqc)
  · exact (hs.linked (h.dropEdge a b)).congr hsuccs hpreds
  · have hq : q.Registered := h.congr hqu hqr
    have hreg : s.Registered := .dropPhiOperands a (q.phis b) hq
    exact hreg.congr husers hoperands

theorem Consistent.removeEdge (h : p.Consistent) (a b : BlockId) :
    (p.removeEdge a b).Consistent :=
  have k := fewerEdges_removeEdge p a b
  ⟨k.linked h.linked, h.housed.congr k.owner k.contents, k.registered h.registered⟩

theorem fewerEdges_succs (b : BlockId) : ∀ (l : List BlockId) (p : Program),
    FewerEdges p (l.foldl (fun p s => p.removeEdge b s) p)
  | [], p => .refl p
  | s :: l, p => (fewerEdges_removeEdge p b s).trans (fewerEdges_succs b l _)

theorem fewerEdges_preds (b : BlockId) : ∀ (l : List BlockId) (p : Program),
    FewerEdges p (l.foldl (fun p q => p.removeEdge q b) p)
  | [], p => .refl p
  | q :: l, p => (fewerEdges_removeEdge p q b).trans (fewerEdges_preds b l _)

end

/-! ## Removing blocks -/

theorem detach_kept (p : Program) (v : ValueId) : (p.detach v).blocks = p.blocks
    ∧ (∀ x, (p.detach v).owner? x = if x = v then none else p.owner? x)
    ∧ (p.Registered → (p.detach v).Registered) := by
  obtain ⟨hdrop, -⟩ := p.dropUses_rest v
  refine ⟨hdrop.blocks, fun x => ?_, fun h => (h.dropUses v).clearUsers (fun _ => rfl) fun _ => rfl⟩
  rw [← hdrop.owner, detach, owner?_eq, field_modifyInstr, owner?_eq]
  by_cases hx : v = x
  · subst hx
    cases (p.dropUses v).instr? v <;> simp
  · simp [hx, Ne.symm hx]

theorem detachAll_kept : ∀ (vs : List ValueId) (p : Program),
    (vs.foldl detach p).blocks = p.blocks
      ∧ (∀ x, (vs.foldl detach p).owner? x = if x ∈ vs then none else p.owner? x)
      ∧ (p.Registered → (vs.foldl detach p).Registered)
  | [], p => ⟨rfl, fun _ => rfl, id⟩
  | v :: vs, p => by
      obtain ⟨hblocks, howner, hregistered⟩ := detachAll_kept vs (p.detach v)
      obtain ⟨hblocks', howner', hregistered'⟩ := p.detach_kept v
      refine ⟨hblocks.trans hblocks', fun x => ?_, fun h => hregistered (hregistered' h)⟩
      rw [List.foldl_cons, howner, howner']
      by_cases hx : x = v
      · simp [hx]
      · simp [hx]

/-- A block that is taken out takes its contents with it. Where it has an edge
to itself its phis are entered in use-lists again, but they do read there. -/
theorem Consistent.dropBlock (h : p.Consistent) (b : BlockId) : (p.dropBlock b).Consistent := by
  unfold Program.dropBlock
  split
  · exact h
  · next r hr =>
      obtain ⟨hblocks, howner, hregistered⟩ := detachAll_kept r.contents p
      obtain ⟨hsuccs, hpreds, hcontents⟩ := block_tables hblocks
      -- The program without the edges of the block; its lists are still full.
      obtain ⟨q, hq, hfewer⟩ : ∃ q, q = r.preds.foldl (fun p q => p.removeEdge q b)
          (r.succs.foldl (fun p s => p.removeEdge b s) (r.contents.foldl detach p))
          ∧ FewerEdges (r.contents.foldl detach p) q :=
        ⟨_, rfl, (fewerEdges_succs b ..).trans (fewerEdges_preds b ..)⟩
      have hfull : q.contents = p.contents := hfewer.contents.trans hcontents
      have hmem (v : ValueId) : v ∈ r.contents ↔ v ∈ p.contents b := by simp [contents, hr]
      refine Consistent.of_tables (p := q.modifyBlock b fun r => { r with phis := [], body := [] })
        ⟨?_, ⟨fun v c => ?_, fun c => ?_⟩, ?_⟩ (by rw [hq]; rfl) (by rw [hq]; rfl)
      · exact (hfewer.linked (h.linked.congr hsuccs hpreds)).congr
          (succs_modifyBlock fun _ => rfl) (preds_modifyBlock fun _ => rfl)
      · show q.owner? v = some c ↔ _
        rw [hfewer.owner, howner, contents, field_modifyBlock]
        simp only [hmem]
        by_cases hc : b = c
        · subst hc
          by_cases hv : v ∈ p.contents b
          · cases q.block? b <;> simp [hv, Block.contents]
          · have := mt (h.housed.owner v b).1 hv
            cases q.block? b <;> simpa [hv, Block.contents] using this
        · rw [if_neg hc, ← contents, hfull]
          split
          · next hv =>
              have hb := (h.housed.owner v b).2 hv
              simp [← h.housed.owner, hb, hc]
          · exact h.housed.owner v c
      · rw [contents, field_modifyBlock]
        split
        · cases q.block? c <;> simp [Block.contents]
        · rw [← contents, hfull]
          exact h.housed.contents_nodup c
      · exact (hfewer.registered (hregistered h.registered)).modifyBlock

theorem Consistent.dropBlocks : ∀ (bs : List BlockId) {p : Program}, p.Consistent →
    (bs.foldl Program.dropBlock p).Consistent
  | [], _, h => h
  | b :: bs, _, h => Consistent.dropBlocks bs (h.dropBlock b)

end Program

end StructuredSsa
