import StructuredSsa.Proofs.Edits

/-!
# Kept dominator trees

A dominator tree that was asked for is kept with its method until the method's
graph changes. `Request` lists what the interface takes, with questions for
trees among the edits, and `afterRequests_tree` says that an answer out of the
keeping is the tree that the pointers describe at that moment.

A tree is read from the entry and the blocks of a method and from the pointers
of those blocks. Most requests leave all of these alone (`Program.SameTrees`). A
new pointer makes the program forget the tree of the method that the block says
it is in, so the argument needs that no other method lists the block
(`TreesKept.listed`).
-/

namespace StructuredSsa

namespace Program

/-! ## What a tree is read from -/

/-- The method a block is in, and its pointer. -/
def pointer? (p : Program) (b : BlockId) : Option (MethodId × Option BlockId) :=
  (p.block? b).map fun r => (r.method, r.dominator)

/-- Blocks are listed where they say they are, and a tree that is kept is the
tree as the pointers have it. -/
structure TreesKept (p : Program) : Prop where
  listed : ∀ {m r b}, p.method? m = some r → b ∈ r.blocks →
    ∃ k, p.block? b = some k ∧ k.method = m
  kept : ∀ {m r t}, p.method? m = some r → r.tree = some t → t = p.treeOf r

/-- Trees are read from the same entries, blocks and pointers as before, and no
tree is kept that was not. -/
structure SameTrees (p q : Program) : Prop where
  pointer : ∀ b, q.pointer? b = p.pointer? b
  method : ∀ {m r}, q.method? m = some r → ∃ s, p.method? m = some s
    ∧ r.entry = s.entry ∧ r.blocks = s.blocks ∧ (r.tree = none ∨ r.tree = s.tree)

theorem SameTrees.refl (p : Program) : SameTrees p p :=
  ⟨fun _ => rfl, fun h => ⟨_, h, rfl, rfl, Or.inr rfl⟩⟩

theorem SameTrees.trans {p q s : Program} (h : SameTrees p q) (k : SameTrees q s) :
    SameTrees p s := by
  refine ⟨fun b => (k.pointer b).trans (h.pointer b), fun hm => ?_⟩
  obtain ⟨r, hr, hentry, hblocks, htree⟩ := k.method hm
  obtain ⟨r', hr', hentry', hblocks', htree'⟩ := h.method hr
  refine ⟨r', hr', hentry.trans hentry', hblocks.trans hblocks', ?_⟩
  rcases htree with htree | htree
  · exact Or.inl htree
  · rw [htree]
    exact htree'

theorem SameTrees.foldl {α : Type} {f : Program → α → Program} (hf : ∀ p a, SameTrees p (f p a)) :
    ∀ (l : List α) (p : Program), SameTrees p (l.foldl f p)
  | [], p => .refl p
  | a :: l, p => (hf p a).trans (SameTrees.foldl hf l (f p a))

theorem treeOf_congr {p q : Program} {r s : Method} (hentry : r.entry = s.entry)
    (hblocks : r.blocks = s.blocks) (hpointer : ∀ b ∈ s.blocks, q.pointer? b = p.pointer? b) :
    q.treeOf r = p.treeOf s := by
  have hedges : s.blocks.filterMap q.dominatorEdge? = s.blocks.filterMap p.dominatorEdge? := by
    refine List.filterMap_congr fun b hb => ?_
    have hb := congrArg (Option.map Prod.snd) (hpointer b hb)
    simp only [pointer?, Option.map_map, Function.comp_def] at hb
    unfold dominatorEdge?
    cases hq : q.block? b <;> cases hp : p.block? b <;> simp_all
  rw [treeOf, treeOf, hentry, hblocks, hedges]

theorem TreesKept.of_same {p q : Program} (h : p.TreesKept) (k : SameTrees p q) : q.TreesKept := by
  constructor
  · intro m r b hr hb
    obtain ⟨s, hs, -, hblocks, -⟩ := k.method hr
    obtain ⟨c, hc, hm⟩ := h.listed hs (hblocks ▸ hb)
    have hpointer : q.pointer? b = some (m, c.dominator) := by rw [k.pointer, pointer?, hc, ← hm]; rfl
    obtain ⟨d, hd, hdm⟩ := Option.map_eq_some_iff.1 hpointer
    exact ⟨d, hd, congrArg Prod.fst hdm⟩
  · intro m r t hr ht
    obtain ⟨s, hs, hentry, hblocks, htree⟩ := k.method hr
    rw [treeOf_congr hentry hblocks fun b _ => k.pointer b]
    rcases htree with htree | htree
    · rw [htree] at ht
      cases ht
    · exact h.kept hs (htree ▸ ht)

/-! ## Changes of one record -/

section

variable {p q : Program} {m : MethodId} {b : BlockId} {v : ValueId}

theorem same_of_tables (hmethods : q.methods = p.methods) (hblocks : q.blocks = p.blocks) :
    SameTrees p q :=
  ⟨fun b => by rw [pointer?, block?, hblocks]; rfl,
    fun h => ⟨_, by rw [method?, ← hmethods]; exact h, rfl, rfl, Or.inr rfl⟩⟩

theorem same_modifyInstr (p : Program) (v : ValueId) (g : Instr → Instr) :
    SameTrees p (p.modifyInstr v g) := same_of_tables rfl rfl

theorem same_modifyBlock (p : Program) (b : BlockId) {f : Block → Block}
    (hf : ∀ r, ((f r).method, (f r).dominator) = (r.method, r.dominator)) :
    SameTrees p (p.modifyBlock b f) :=
  ⟨field_modifyBlock_eq hf, fun h => ⟨_, h, rfl, rfl, Or.inr rfl⟩⟩

/-- A method of a changed table was in the table, and changed if it is the one. -/
theorem exists_of_modifyMethod {n : MethodId} {f : Method → Method} {r : Method}
    (h : (p.modifyMethod m f).method? n = some r) :
    ∃ s, p.method? n = some s ∧ (m = n ∧ r = f s ∨ m ≠ n ∧ r = s) := by
  rw [method?_modifyMethod] at h
  split at h
  · next hmn =>
      obtain ⟨s, hs, rfl⟩ := Option.map_eq_some_iff.1 h
      exact ⟨s, hs, Or.inl ⟨hmn, rfl⟩⟩
  · next hmn => exact ⟨r, h, Or.inr ⟨hmn, rfl⟩⟩

theorem same_modifyMethod (p : Program) (m : MethodId) {f : Method → Method}
    (hf : ∀ r, (f r).entry = r.entry ∧ (f r).blocks = r.blocks
      ∧ ((f r).tree = none ∨ (f r).tree = r.tree)) :
    SameTrees p (p.modifyMethod m f) := by
  refine ⟨fun _ => rfl, fun h => ?_⟩
  obtain ⟨s, hs, ⟨-, rfl⟩ | ⟨-, rfl⟩⟩ := exists_of_modifyMethod h
  · exact ⟨s, hs, hf s⟩
  · exact ⟨_, hs, rfl, rfl, Or.inr rfl⟩

theorem same_forgetTree (p : Program) (b : BlockId) : SameTrees p (p.forgetTree b) := by
  unfold forgetTree
  split
  · exact same_modifyMethod p _ fun _ => ⟨rfl, rfl, Or.inl rfl⟩
  · exact .refl p

/-! ## Requests that leave trees alone -/

theorem same_addUses (p : Program) (v : ValueId) : SameTrees p (p.addUses v) :=
  SameTrees.foldl (fun p o => same_modifyInstr p o (·.addUser v)) _ p

theorem same_dropUses (p : Program) (v : ValueId) : SameTrees p (p.dropUses v) :=
  SameTrees.foldl (fun p o => same_modifyInstr p o (·.dropUser v)) _ p

theorem same_addInstr {op : Op} {owner : Option BlockId} {line : Nat}
    (h : p.addInstr op owner line = .ok (v, q)) : SameTrees p q := by
  simp only [addInstr] at h
  split at h
  · cases h
  · obtain ⟨-, rfl⟩ := Prod.mk.inj (Except.ok.inj h)
    have hpush : SameTrees p { p with values := p.values.push ⟨op, owner, line, []⟩ } :=
      same_of_tables rfl rfl
    exact hpush.trans (same_addUses ..)

theorem same_emit {op : Op} {line : Nat} (h : p.emit b op line = .ok (v, q)) : SameTrees p q := by
  obtain ⟨r, s, -, hs, rfl⟩ := emit_eq_ok h
  exact (same_addInstr hs).trans (same_modifyBlock s b fun _ => rfl)

theorem same_addPhi {name : String} {os : List (BlockId × ValueId)} {line : Nat}
    (h : p.addPhi b name os line = .ok (v, q)) : SameTrees p q := by
  obtain ⟨r, s, -, hs, rfl⟩ := addPhi_eq_ok h
  exact (same_addInstr hs).trans (same_modifyBlock s b fun _ => rfl)

theorem same_assignPhi (p : Program) (v : ValueId) (os : List (BlockId × ValueId)) :
    SameTrees p (p.assignPhi v os) :=
  ((same_dropUses p v).trans (same_modifyInstr _ v _)).trans (same_addUses _ v)

theorem same_updatePhi {os : List (BlockId × ValueId)} (h : p.updatePhi v os = .ok q) :
    SameTrees p q := by
  obtain ⟨i, -, h⟩ := bind_eq_ok h
  split at h
  · cases h
  · exact Except.ok.inj h ▸ same_assignPhi p v os

theorem same_placeBefore {anchor : ValueId} (h : p.placeBefore anchor v = .ok q) :
    SameTrees p q := by
  obtain ⟨i, -, h⟩ := bind_eq_ok h
  split at h
  · cases h
  · obtain ⟨a, -, h⟩ := bind_eq_ok h
    split at h
    · cases h
    · next b hb =>
        obtain rfl := Except.ok.inj h
        exact .trans (same_modifyBlock p b (f := fun r =>
          { r with body := insertBefore anchor v r.body }) fun _ => rfl) (same_modifyInstr _ v _)

theorem same_redirect (p : Program) (old new : ValueId) : SameTrees p (p.redirect old new) := by
  unfold redirect
  split
  · exact .refl p
  · next i hi =>
      have husers : SameTrees p (i.users.foldl (redirectUse old new)
          (p.modifyInstr old fun i => { i with users := [] })) :=
        (same_modifyInstr ..).trans <| SameTrees.foldl
          (fun p u => (same_modifyInstr p u _).trans (same_modifyInstr _ new _)) _ _
      refine husers.trans ⟨fun b => ?_, fun h => ⟨_, h, rfl, rfl, Or.inr rfl⟩⟩
      simp only [pointer?, block?, Array.getElem?_map, Option.map_map]
      rfl

theorem same_replace {old new : ValueId} (h : p.replace old new = .ok q) : SameTrees p q := by
  unfold replace at h
  split at h
  · exact Except.ok.inj h ▸ .refl p
  · obtain ⟨i, -, h⟩ := bind_eq_ok h
    split at h
    · obtain ⟨j, -, h⟩ := bind_eq_ok h
      exact Except.ok.inj h ▸ same_redirect p old new
    · exact Except.ok.inj h ▸ same_redirect p old new

theorem same_removeInstr (h : p.removeInstr v = .ok q) : SameTrees p q := by
  obtain ⟨i, -, h⟩ := bind_eq_ok h
  split at h
  · cases h
  · obtain rfl := Except.ok.inj h
    refine (same_dropUses p v).trans ?_
    unfold unlist
    split
    · exact .refl _
    · next b hb => exact (same_modifyInstr _ v _).trans (same_modifyBlock _ b fun _ => rfl)

theorem same_becomeJump {target : BlockId} (h : p.becomeJump v target = .ok q) : SameTrees p q := by
  obtain ⟨i, -, h⟩ := bind_eq_ok h
  obtain rfl := Except.ok.inj h
  exact (same_dropUses p v).trans (same_modifyInstr _ v _)

theorem same_link {a : BlockId} (h : p.link a b = .ok q) : SameTrees p q := by
  obtain ⟨r, -, h⟩ := bind_eq_ok h
  obtain ⟨s, -, h⟩ := bind_eq_ok h
  obtain rfl := Except.ok.inj h
  refine ((same_modifyBlock p a fun r => ?_).trans (same_modifyBlock _ b fun r => ?_)).trans
    (same_forgetTree _ a)
  · unfold Block.addSucc
    split <;> rfl
  · unfold Block.addPred
    split <;> rfl

theorem same_removeEdge (p : Program) (a b : BlockId) : SameTrees p (p.removeEdge a b) := by
  have hends : SameTrees p ((p.modifyBlock a (·.dropSucc b)).modifyBlock b (·.dropPred a)) :=
    .trans (same_modifyBlock p a (f := (·.dropSucc b)) fun _ => rfl)
      (same_modifyBlock _ b fun _ => rfl)
  refine (hends.trans (SameTrees.foldl (fun p v => ?_) _ _)).trans (same_forgetTree _ a)
  unfold dropPhiOperand
  split
  · exact same_assignPhi ..
  · exact .refl p

theorem same_unlink {a : BlockId} (h : p.unlink a b = .ok q) : SameTrees p q := by
  obtain ⟨r, -, h⟩ := bind_eq_ok h
  obtain ⟨s, -, h⟩ := bind_eq_ok h
  exact Except.ok.inj h ▸ same_removeEdge p a b

theorem same_setBefore {st : Bindings} (h : p.setBefore b st = .ok q) : SameTrees p q := by
  obtain ⟨r, -, h⟩ := bind_eq_ok h
  exact Except.ok.inj h ▸ same_modifyBlock p b fun _ => rfl

theorem same_sealBlock {st : Bindings} (h : p.sealBlock b st = .ok q) : SameTrees p q := by
  obtain ⟨r, -, h⟩ := bind_eq_ok h
  split at h
  · cases h
  · exact Except.ok.inj h ▸ same_modifyBlock p b fun _ => rfl

theorem same_setExit {exit : Option BlockId} (h : p.setExit m exit = .ok q) : SameTrees p q := by
  obtain ⟨r, -, h⟩ := bind_eq_ok h
  exact Except.ok.inj h ▸ same_modifyMethod p m fun _ => ⟨rfl, rfl, Or.inr rfl⟩

/-! ## Requests that change what a tree is read from -/

theorem treesKept_empty : Program.empty.TreesKept := by
  constructor <;> intro m r _ h <;> simp [method?, Program.empty] at h

/-- A block that no method lists is behind all that some method lists. -/
theorem TreesKept.pointer_push (h : p.TreesKept) {r : Method} (hr : p.method? m = some r)
    (k : Block) (hb : b ∈ r.blocks) :
    ({ p with blocks := p.blocks.push k } : Program).block? b = p.block? b := by
  obtain ⟨c, hc, -⟩ := h.listed hr hb
  obtain ⟨n⟩ := b
  have hn : n < p.blocks.size := (Array.getElem?_eq_some_iff.1 hc).1
  simp [block?, Array.getElem?_push, Nat.ne_of_lt hn]

theorem TreesKept.addMethod (h : p.TreesKept) (name : String) (kind : MethodKind) :
    (p.addMethod name kind).2.TreesKept := by
  have hat (n : MethodId) (r : Method) (hr : (p.addMethod name kind).2.method? n = some r) :
      p.method? n = some r ∨ n = ⟨p.methods.size⟩ ∧
        r = ⟨name, kind, [⟨p.blocks.size⟩], .empty, 0, ⟨p.blocks.size⟩, none, none⟩ := by
    obtain ⟨n⟩ := n
    simp only [Program.addMethod, method?, Array.getElem?_push] at hr
    split at hr
    · next hn => exact Or.inr ⟨by rw [hn], (Option.some.inj hr).symm⟩
    · exact Or.inl hr
  constructor
  · intro n r b hr hb
    rcases hat n r hr with hr | ⟨rfl, rfl⟩
    · obtain ⟨c, hc, hm⟩ := h.listed hr hb
      exact ⟨c, (h.pointer_push hr _ hb).trans hc, hm⟩
    · obtain rfl := List.mem_singleton.1 hb
      exact ⟨.new ⟨p.methods.size⟩ (.entry []), by simp [Program.addMethod, block?], rfl⟩
  · intro n r t hr ht
    rcases hat n r hr with hr | ⟨rfl, rfl⟩
    · rw [h.kept hr ht]
      refine (treeOf_congr rfl rfl fun b hb => ?_).symm
      exact congrArg (Option.map _) (h.pointer_push hr _ hb)
    · cases ht

theorem TreesKept.newBlock (h : p.TreesKept) {kind : BlockKind}
    (hq : p.newBlock m kind = .ok (b, q)) : q.TreesKept := by
  obtain ⟨-, -, hq⟩ := bind_eq_ok hq
  obtain ⟨-, rfl⟩ := Prod.mk.inj (Except.ok.inj hq)
  have hold {n : MethodId} {r : Method} {c : BlockId} (hr : p.method? n = some r)
      (hc : c ∈ r.blocks) : ∃ k, ({ p with blocks := p.blocks.push (.new m kind) } : Program).block? c
        = some k ∧ k.method = n := by
    obtain ⟨d, hd, hm⟩ := h.listed hr hc
    exact ⟨d, (h.pointer_push hr _ hc).trans hd, hm⟩
  constructor
  · intro n r c hr hc
    obtain ⟨s, hs, ⟨rfl, rfl⟩ | ⟨-, rfl⟩⟩ := exists_of_modifyMethod hr
    · rcases List.mem_append.1 hc with hc | hc
      · exact hold hs hc
      · obtain rfl := List.mem_singleton.1 hc
        exact ⟨.new m kind, by simp [block?, modifyMethod], rfl⟩
    · exact hold hs hc
  · intro n r t hr ht
    obtain ⟨s, hs, ⟨-, rfl⟩ | ⟨-, rfl⟩⟩ := exists_of_modifyMethod hr
    · cases ht
    · rw [h.kept hs ht]
      refine (treeOf_congr rfl rfl fun c hc => ?_).symm
      exact congrArg (Option.map _) (h.pointer_push hs _ hc)

theorem TreesKept.setDominator (h : p.TreesKept) {d : BlockId} (hq : p.setDominator b d = .ok q) :
    q.TreesKept := by
  obtain ⟨k, hk, hq⟩ := bind_eq_ok hq
  have hk := getBlock_eq_ok hk
  obtain rfl := Except.ok.inj hq
  have hset : ((p.modifyBlock b fun r => { r with dominator := some d }).forgetTree b)
      = (p.modifyBlock b fun r => { r with dominator := some d }).modifyMethod k.method
        fun m => { m with tree := none } := by
    rw [forgetTree, block?_modifyBlock, if_pos rfl, hk]
    rfl
  have hblock (c : BlockId) : (p.modifyBlock b fun r => { r with dominator := some d }).block? c
      = if b = c then (p.block? c).map fun r => { r with dominator := some d } else p.block? c :=
    block?_modifyBlock ..
  rw [hset]
  constructor
  · intro n r c hr hc
    obtain ⟨s, hs, hc⟩ : ∃ s, p.method? n = some s ∧ c ∈ s.blocks := by
      obtain ⟨s, hs, ⟨-, rfl⟩ | ⟨-, rfl⟩⟩ := exists_of_modifyMethod hr <;> exact ⟨_, hs, hc⟩
    obtain ⟨e, he, hm⟩ := h.listed hs hc
    refine ⟨if b = c then { e with dominator := some d } else e, ?_, by split <;> exact hm⟩
    rw [block?_modifyMethod, hblock, he]
    split <;> rfl
  · intro n r t hr ht
    obtain ⟨s, hs, ⟨-, rfl⟩ | ⟨hn, rfl⟩⟩ := exists_of_modifyMethod hr
    · cases ht
    · -- The block stands in another method than the one that keeps a tree.
      rw [h.kept hs ht]
      refine (treeOf_congr rfl rfl fun c hc => ?_).symm
      obtain ⟨e, he, hm⟩ := h.listed hs hc
      have hbc : b ≠ c := by
        rintro rfl
        rw [hk] at he
        exact hn (Option.some.inj he ▸ hm)
      rw [pointer?, pointer?, block?_modifyMethod, hblock, if_neg hbc]

/-- A block is emptied and cut off before its method stops listing it. -/
theorem same_emptied (p : Program) (b : BlockId) (k : Block) :
    SameTrees p ((k.preds.foldl (fun p q => p.removeEdge q b)
      (k.succs.foldl (fun p s => p.removeEdge b s) (k.contents.foldl detach p))).modifyBlock b
        fun r => { r with phis := [], body := [] }) :=
  (((SameTrees.foldl (fun p v => (same_dropUses p v).trans (same_modifyInstr _ v _)) _ p).trans
    (SameTrees.foldl (fun p s => same_removeEdge p b s) _ _)).trans
    (SameTrees.foldl (fun p q => same_removeEdge p q b) _ _)).trans
    (same_modifyBlock _ b fun _ => rfl)

theorem TreesKept.dropBlock (h : p.TreesKept) (b : BlockId) : (p.dropBlock b).TreesKept := by
  unfold Program.dropBlock
  split
  · exact h
  · next k hk =>
      have hq := h.of_same (same_emptied p b k)
      constructor
      · intro n r c hr hc
        obtain ⟨s, hs, ⟨-, rfl⟩ | ⟨-, rfl⟩⟩ := exists_of_modifyMethod hr
        · exact hq.listed hs (List.mem_of_mem_filter hc)
        · exact hq.listed hs hc
      · intro n r t hr ht
        obtain ⟨s, hs, ⟨-, rfl⟩ | ⟨-, rfl⟩⟩ := exists_of_modifyMethod hr
        · cases ht
        · exact hq.kept hs ht

theorem TreesKept.dropBlocks : ∀ (bs : List BlockId) {p : Program}, p.TreesKept →
    (bs.foldl Program.dropBlock p).TreesKept
  | [], _, h => h
  | b :: bs, _, h => TreesKept.dropBlocks bs (h.dropBlock b)

/-- The tree that a question makes the program keep is the one it has now. -/
theorem TreesKept.dominatorTree (h : p.TreesKept) {t : DominatorTree}
    (hq : p.dominatorTree m = .ok (t, q)) : p.buildTree m = .ok t ∧ q.TreesKept := by
  obtain ⟨s, hs, hq⟩ := bind_eq_ok hq
  obtain ⟨rfl, rfl⟩ := Prod.mk.inj (Except.ok.inj hq)
  have htree : s.tree.getD (p.treeOf s) = p.treeOf s := by
    cases ht : s.tree with
    | none => rfl
    | some t => exact h.kept (getMethod_eq_ok hs) ht
  refine ⟨by rw [htree, buildTree, hs]; rfl, ⟨fun hr hc => ?_, fun {n r t} hr ht => ?_⟩⟩
  · obtain ⟨k, hk, ⟨-, rfl⟩ | ⟨-, rfl⟩⟩ := exists_of_modifyMethod hr <;> exact h.listed hk hc
  · obtain ⟨k, hk, ⟨rfl, rfl⟩ | ⟨-, rfl⟩⟩ := exists_of_modifyMethod hr
    · obtain rfl : s = k := Option.some.inj ((getMethod_eq_ok hs).symm.trans hk)
      exact (Option.some.inj ht).symm.trans htree
    · exact h.kept hk ht

end

end Program

/-- Folding leaves trees alone. -/
theorem Fold.lasting_sameTrees (p : Program) : Fold.Lasting (Program.SameTrees p) where
  create h hq := h.trans (Program.same_addInstr hq)
  placeBefore h hq := h.trans (Program.same_placeBefore hq)
  replace h hq := h.trans (Program.same_replace hq)
  removeInstr h hq := h.trans (Program.same_removeInstr hq)
  becomeJump h hq := h.trans (Program.same_becomeJump hq)
  unlink h hq := h.trans (Program.same_unlink hq)

/-! ## Requests -/

/-- Whether an edit goes through the interface. Only a new table of methods does
not: it may hold any trees. -/
def Edit.throughInterface : Edit → Bool
  | setMethods .. => false
  | _ => true

/-- What may be asked of a program. -/
inductive Request where
  | edit (e : Edit) (h : e.throughInterface = true)
  | setExit (m : MethodId) (exit : Option BlockId)
  /-- A name is declared in a method or, without one, for the whole program. -/
  | declare (m : Option MethodId) (d : Symbol)
  | dominatorTree (m : MethodId)

/-- Carry out a request. -/
def Request.apply (p : Program) : Request → Except Fault Program
  | edit e _ => e.apply p
  | setExit m exit => p.setExit m exit
  | declare none d => .ok { p with globals := p.globals.declare d }
  | declare (some m) d => do
      let _ ← p.getMethod m
      return p.modifyMethod m fun r => { r with symbols := r.symbols.declare d }
  | dominatorTree m => (·.2) <$> p.dominatorTree m

/-- The program that a sequence of requests makes out of nothing, if none of
them is refused. -/
def Program.afterRequests (requests : List Request) : Except Fault Program :=
  requests.foldlM Request.apply .empty

/-- What a request can do to all that trees are read from. -/
inductive Program.Reshaped (p q : Program) : Prop where
  | same (h : SameTrees p q)
  | addMethod (name : String) (kind : MethodKind) (h : q = (p.addMethod name kind).2)
  | newBlock {m : MethodId} {kind : BlockKind} {b : BlockId} (h : p.newBlock m kind = .ok (b, q))
  | setDominator {b d : BlockId} (h : p.setDominator b d = .ok q)
  | dropBlocks (bs : List BlockId) (h : q = bs.foldl dropBlock p)
  | asked {m : MethodId} {t : DominatorTree} (h : p.dominatorTree m = .ok (t, q))

theorem Edit.apply_reshaped {p q : Program} {e : Edit} (he : e.throughInterface = true)
    (hq : e.apply p = .ok q) : p.Reshaped q := by
  cases e with
  | addMethod name kind => exact .addMethod name kind (Except.ok.inj hq).symm
  | newBlock m kind => obtain ⟨b, hq⟩ := map_eq_ok hq; exact .newBlock hq
  | setMethods methods globals => cases he
  | link a b => exact .same (Program.same_link hq)
  | unlink a b => exact .same (Program.same_unlink hq)
  | setBefore b st => exact .same (Program.same_setBefore hq)
  | sealBlock b st => exact .same (Program.same_sealBlock hq)
  | setDominator b d => exact .setDominator hq
  | emit b op line => obtain ⟨v, hq⟩ := map_eq_ok hq; exact .same (Program.same_emit hq)
  | create op line => obtain ⟨v, hq⟩ := map_eq_ok hq; exact .same (Program.same_addInstr hq)
  | addPhi b name os line => obtain ⟨v, hq⟩ := map_eq_ok hq; exact .same (Program.same_addPhi hq)
  | updatePhi v os => exact .same (Program.same_updatePhi hq)
  | placeBefore a v => exact .same (Program.same_placeBefore hq)
  | replace old new => exact .same (Program.same_replace hq)
  | removeInstr v => exact .same (Program.same_removeInstr hq)
  | removeBlock b =>
      obtain ⟨r, -, hq⟩ := Program.bind_eq_ok hq
      exact .dropBlocks [b] (Except.ok.inj hq).symm
  | prune m =>
      obtain ⟨n, hq⟩ := map_eq_ok hq
      obtain ⟨r, -, hq⟩ := Program.bind_eq_ok hq
      obtain ⟨-, rfl⟩ := Prod.mk.inj (Except.ok.inj hq)
      exact .dropBlocks _ rfl
  | fold level maxPasses => exact .same ((Fold.lasting_sameTrees p).fold (.refl p) hq)

theorem Request.apply_reshaped {p q : Program} {r : Request} (hq : r.apply p = .ok q) :
    p.Reshaped q := by
  cases r with
  | edit e he => exact Edit.apply_reshaped he hq
  | setExit m exit => exact .same (Program.same_setExit hq)
  | declare m d =>
      cases m with
      | none =>
          obtain rfl := Except.ok.inj hq
          exact .same (Program.same_of_tables rfl rfl)
      | some m =>
          obtain ⟨r, -, hq⟩ := Program.bind_eq_ok hq
          obtain rfl := Except.ok.inj hq
          exact .same (Program.same_modifyMethod p m fun _ => ⟨rfl, rfl, Or.inr rfl⟩)
  | dominatorTree m =>
      obtain ⟨t, hq⟩ := map_eq_ok hq
      exact .asked hq

theorem Request.apply_treesKept {p q : Program} (h : p.TreesKept) {r : Request}
    (hq : r.apply p = .ok q) : q.TreesKept := by
  cases Request.apply_reshaped hq with
  | same k => exact h.of_same k
  | addMethod name kind k => exact k ▸ h.addMethod name kind
  | newBlock k => exact h.newBlock k
  | setDominator k => exact h.setDominator k
  | dropBlocks bs k => exact k ▸ .dropBlocks bs h
  | asked k => exact (h.dominatorTree k).2

/-- After any requests, the answer to a question for a dominator tree is the
tree that is built from the pointers at that moment; it is missing only where no
tree can be built, for want of the method. -/
theorem afterRequests_tree {requests : List Request} {p : Program}
    (h : Program.afterRequests requests = .ok p) (m : MethodId) :
    Prod.fst <$> p.dominatorTree m = p.buildTree m := by
  have hp := Program.foldlM_keeps (fun h hr => Request.apply_treesKept h hr) requests
    Program.treesKept_empty h
  cases hq : p.dominatorTree m with
  | ok a => exact (hp.dominatorTree hq).1.symm
  | error f =>
      cases hm : p.getMethod m with
      | ok r => simp [Program.dominatorTree, hm, bind, Except.bind, pure, Except.pure] at hq
      | error g =>
          simp only [Program.dominatorTree, hm, bind, Except.bind, Except.error.injEq] at hq
          simp only [Program.buildTree, hm, hq, bind, Except.bind]
          rfl

/-- A tree that is asked for before, between and after changes: a pointer is set
and moved, one branch is folded away, a block goes. -/
def repointed : List Request :=
  [.edit (.addMethod "main" .main) rfl, .edit (.newBlock ⟨0⟩ .plain) rfl, .dominatorTree ⟨0⟩,
    .edit (.newBlock ⟨0⟩ .plain) rfl, .edit (.link ⟨0⟩ ⟨1⟩) rfl, .edit (.link ⟨0⟩ ⟨2⟩) rfl,
    .edit (.setDominator ⟨1⟩ ⟨0⟩) rfl, .edit (.setDominator ⟨2⟩ ⟨1⟩) rfl, .dominatorTree ⟨0⟩,
    .edit (.emit ⟨0⟩ (.const 1) 1) rfl, .edit (.emit ⟨0⟩ (.branch ⟨0⟩ ⟨2⟩ ⟨1⟩) 1) rfl,
    .edit (.fold 1 1) rfl, .dominatorTree ⟨0⟩, .edit (.setDominator ⟨2⟩ ⟨0⟩) rfl,
    .setExit ⟨0⟩ (some ⟨2⟩), .dominatorTree ⟨0⟩, .edit (.prune ⟨0⟩) rfl]

theorem repointed_tree : ∃ p, Program.afterRequests repointed = .ok p
    ∧ Prod.fst <$> p.dominatorTree ⟨0⟩ = p.buildTree ⟨0⟩
    ∧ p.buildTree ⟨0⟩ = .ok ⟨⟨0⟩, [(⟨0⟩, ⟨2⟩)]⟩ := by
  have hrun : ((Program.afterRequests repointed).toOption.map fun p =>
      (p.buildTree ⟨0⟩).toOption) = some (some ⟨⟨0⟩, [(⟨0⟩, ⟨2⟩)]⟩) := by
    decide +kernel
  cases h : Program.afterRequests repointed with
  | error e => rw [h] at hrun; cases hrun
  | ok p =>
      refine ⟨p, rfl, afterRequests_tree h ⟨0⟩, ?_⟩
      rw [h] at hrun
      cases ht : p.buildTree ⟨0⟩ with
      | error e => simp [ht, Except.toOption] at hrun
      | ok t => simpa [ht, Except.toOption] using hrun

end StructuredSsa
