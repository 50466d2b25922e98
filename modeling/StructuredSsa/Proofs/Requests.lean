import StructuredSsa.Proofs.FoldSteps
import StructuredSsa.Proofs.KeptTrees

/-!
# Programs made by requests

What holds of a program whatever was asked of it before (`afterRequests_tables`): its
tables agree, and no block is listed twice, neither by one method nor by two
(`Program.ListedOnce`). A pass may therefore be told from the list of all listed
blocks as if that were a set. Nor is anything read that does not exist
(`Program.ReadsExist`), whether the reader stands in a block or not.
-/

namespace StructuredSsa

namespace Program

variable {p q : Program}

/-- Blocks are listed where they say they are, and once. -/
structure ListedOnce (p : Program) : Prop extends p.TreesKept where
  once : ∀ {m r}, p.method? m = some r → r.blocks.Nodup

/-- No method lists more than it did. -/
def NoMoreListed (p q : Program) : Prop :=
  ∀ m r, q.method? m = some r → ∃ s, p.method? m = some s ∧ r.blocks.Sublist s.blocks

theorem NoMoreListed.refl (p : Program) : NoMoreListed p p := fun _ r hr => ⟨r, hr, .refl _⟩

theorem SameTrees.noMoreListed (h : SameTrees p q) : NoMoreListed p q := by
  intro m r hr
  obtain ⟨s, hs, -, hblocks, -⟩ := h.method hr
  exact ⟨s, hs, hblocks ▸ List.Sublist.refl _⟩

theorem NoMoreListed.trans {s : Program} (h : NoMoreListed p q) (k : NoMoreListed q s) :
    NoMoreListed p s := by
  intro m r hr
  obtain ⟨t, ht, hsub⟩ := k m r hr
  obtain ⟨o, ho, hsub'⟩ := h m t ht
  exact ⟨o, ho, hsub.trans hsub'⟩

theorem ListedOnce.of_noMore (h : p.ListedOnce) (hq : q.TreesKept) (hno : NoMoreListed p q) :
    q.ListedOnce := by
  refine ⟨hq, fun {m r} hr => ?_⟩
  obtain ⟨s, hs, hsub⟩ := hno m r hr
  exact (h.once hs).sublist hsub

theorem noMoreListed_modifyMethod (p : Program) (m : MethodId) {f : Method → Method}
    (hf : ∀ r, (f r).blocks.Sublist r.blocks) : NoMoreListed p (p.modifyMethod m f) := by
  intro n r hr
  obtain ⟨s, hs, ⟨-, rfl⟩ | ⟨-, rfl⟩⟩ := exists_of_modifyMethod hr
  · exact ⟨s, hs, hf s⟩
  · exact ⟨_, hs, .refl _⟩

theorem noMoreListed_setDominator {b d : BlockId} (hq : p.setDominator b d = .ok q) :
    NoMoreListed p q := by
  obtain ⟨k, -, hq⟩ := bind_eq_ok hq
  obtain rfl := Except.ok.inj hq
  have hblock : NoMoreListed p (p.modifyBlock b fun r => { r with dominator := some d }) := .refl p
  exact hblock.trans (same_forgetTree _ b).noMoreListed

theorem noMoreListed_dropBlock (p : Program) (b : BlockId) : NoMoreListed p (p.dropBlock b) := by
  unfold dropBlock
  split
  · exact .refl p
  · next k hk =>
      exact (same_emptied p b k).noMoreListed.trans
        (noMoreListed_modifyMethod _ _ fun r => List.filter_sublist)

theorem noMoreListed_dropBlocks : ∀ (bs : List BlockId) (p : Program),
    NoMoreListed p (bs.foldl dropBlock p)
  | [], p => .refl p
  | b :: bs, p => (noMoreListed_dropBlock p b).trans (noMoreListed_dropBlocks bs (p.dropBlock b))

/-- A new method lists its entry only. -/
theorem ListedOnce.addMethod (h : p.ListedOnce) (name : String) (kind : MethodKind) :
    (p.addMethod name kind).2.ListedOnce := by
  refine ⟨h.toTreesKept.addMethod name kind, fun {m r} hr => ?_⟩
  obtain ⟨n⟩ := m
  simp only [Program.addMethod, method?, Array.getElem?_push] at hr
  split at hr
  · obtain rfl := Option.some.inj hr
    exact List.nodup_singleton _
  · exact h.once (m := ⟨n⟩) hr

/-- A new block was listed nowhere before. -/
theorem ListedOnce.newBlock (h : p.ListedOnce) {m : MethodId} {kind : BlockKind} {b : BlockId}
    (hq : p.newBlock m kind = .ok (b, q)) : q.ListedOnce := by
  refine ⟨h.toTreesKept.newBlock hq, fun hr => ?_⟩
  obtain ⟨-, -, hq⟩ := bind_eq_ok hq
  obtain ⟨-, rfl⟩ := Prod.mk.inj (Except.ok.inj hq)
  obtain ⟨s, hs, ⟨rfl, rfl⟩ | ⟨-, rfl⟩⟩ := exists_of_modifyMethod hr
  · have hs : p.method? m = some s := hs
    refine List.nodup_append.2 ⟨h.once hs, List.nodup_singleton _, fun a ha c hc => ?_⟩
    obtain rfl := List.mem_singleton.1 hc
    rintro rfl
    obtain ⟨k, hk, -⟩ := h.listed hs ha
    simp [block?] at hk
  · exact h.once hs

theorem listedOnce_empty : Program.empty.ListedOnce :=
  ⟨treesKept_empty, fun {m r} h => by simp [method?, Program.empty] at h⟩

/-- No block is listed by two methods. -/
theorem ListedOnce.nodup (h : p.ListedOnce) : p.listedBlocks.Nodup := by
  have hat {i : Nat} {r : Method} (hr : p.methods.toList[i]? = some r) : p.method? ⟨i⟩ = some r := by
    simpa [method?] using hr
  refine List.nodup_flatMap.2 ⟨fun r hr => ?_, ?_⟩
  · obtain ⟨i, hi⟩ := List.getElem?_of_mem hr
    exact h.once (hat hi)
  · rw [List.pairwise_iff_getElem]
    intro i j hi hj hlt b hbi hbj
    obtain ⟨k, hk, hki⟩ := h.listed (hat (List.getElem?_eq_getElem hi)) hbi
    obtain ⟨k', hk', hkj⟩ := h.listed (hat (List.getElem?_eq_getElem hj)) hbj
    obtain rfl := Option.some.inj (hk.symm.trans hk')
    have hij : i = j := congrArg MethodId.index (hki.symm.trans hkj)
    omega

end Program

theorem Request.apply_listedOnce {p q : Program} (h : p.ListedOnce) {r : Request}
    (hq : r.apply p = .ok q) : q.ListedOnce := by
  have hkept := Request.apply_treesKept h.toTreesKept hq
  cases Request.apply_reshaped hq with
  | same k => exact h.of_noMore hkept k.noMoreListed
  | addMethod name kind k => exact k ▸ h.addMethod name kind
  | newBlock k => exact h.newBlock k
  | setDominator k => exact h.of_noMore hkept (Program.noMoreListed_setDominator k)
  | dropBlocks bs k => exact h.of_noMore hkept (k ▸ Program.noMoreListed_dropBlocks bs p)
  | @asked m t k =>
      obtain ⟨s, -, k⟩ := Program.bind_eq_ok k
      obtain ⟨-, rfl⟩ := Prod.mk.inj (Except.ok.inj k)
      exact h.of_noMore hkept (Program.noMoreListed_modifyMethod p m fun r => .refl r.blocks)

/-! ## What is read exists -/

namespace Program

variable {p q : Program}

/-- Whatever an instruction reads is a value of the program. -/
def ReadsExist (p : Program) : Prop := ∀ u, ∀ v ∈ p.operands u, p.instr? v ≠ none

theorem instr?_modifyInstr_ne_none {u v : ValueId} {g : Instr → Instr} :
    (p.modifyInstr u g).instr? v ≠ none ↔ p.instr? v ≠ none := by
  rw [instr?_modifyInstr]
  split <;> simp

theorem ReadsExist.of_values (h : p.ReadsExist) (hq : q.values = p.values) : q.ReadsExist := by
  have hinstr : q.instr? = p.instr? := by funext v; rw [instr?, instr?, hq]
  intro u v hv
  rw [operands, hinstr] at hv
  rw [hinstr]
  exact h u v hv

/-- An instruction comes to read values that exist. -/
theorem ReadsExist.modifyInstr (h : p.ReadsExist) {u : ValueId} {g : Instr → Instr}
    (hg : ∀ i, p.instr? u = some i → ∀ v ∈ (g i).op.operands, p.instr? v ≠ none) :
    (p.modifyInstr u g).ReadsExist := by
  intro x v hv
  rw [instr?_modifyInstr_ne_none]
  rw [operands_eq, field_modifyInstr] at hv
  by_cases hx : u = x
  · subst hx
    cases hi : p.instr? u with
    | none => simp [hi] at hv
    | some i => exact hg i hi v (by simpa [hi] using hv)
  · rw [if_neg hx, ← operands_eq] at hv
    exact h x v hv

theorem ReadsExist.modifyRest (h : p.ReadsExist) (u : ValueId) {g : Instr → Instr}
    (hg : ∀ i, (g i).op = i.op) : (p.modifyInstr u g).ReadsExist :=
  h.modifyInstr fun i hi v hv => h u v (by simpa [operands, hi, hg] using hv)

theorem ReadsExist.foldl {α : Type} {f : Program → α → Program}
    (hf : ∀ p a, p.ReadsExist → (f p a).ReadsExist) :
    ∀ (l : List α) {p : Program}, p.ReadsExist → (l.foldl f p).ReadsExist
  | [], _, h => h
  | a :: l, p, h => ReadsExist.foldl hf l (hf p a h)

theorem ReadsExist.addUses (h : p.ReadsExist) (v : ValueId) : (p.addUses v).ReadsExist :=
  ReadsExist.foldl (fun _ o h => h.modifyRest o fun i => (addUser_rest i v).1) _ h

theorem ReadsExist.dropUses (h : p.ReadsExist) (v : ValueId) : (p.dropUses v).ReadsExist :=
  ReadsExist.foldl (f := fun p o => p.modifyInstr o (·.dropUser v))
    (fun _ o h => h.modifyRest o fun _ => rfl) _ h

theorem instr?_dropUses_ne_none {v x : ValueId} :
    (p.dropUses v).instr? x ≠ none ↔ p.instr? x ≠ none := by
  rw [instr?_dropUses]
  simp

theorem ne_none_of_missing? {vs : List ValueId} (h : p.missing? vs = none) :
    ∀ v ∈ vs, p.instr? v ≠ none := by
  intro v hv
  simpa using List.find?_eq_none.1 h v hv

section

variable (h : p.ReadsExist)
include h

theorem ReadsExist.addInstr {op : Op} {owner : Option BlockId} {line : Nat} {v : ValueId}
    (hq : p.addInstr op owner line = .ok (v, q)) : q.ReadsExist := by
  simp only [Program.addInstr] at hq
  split at hq
  · cases hq
  · next hmissing =>
      obtain ⟨-, rfl⟩ := Prod.mk.inj (Except.ok.inj hq)
      refine ReadsExist.addUses (fun u x hx => ?_) _
      rw [operands, instr?_push] at hx
      by_cases hu : u = ⟨p.values.size⟩
      · rw [if_pos hu] at hx
        exact ne_none_of_missing? hmissing x hx
      · rw [if_neg hu] at hx
        rw [instr?_push]
        split
        · exact Option.some_ne_none _
        · exact h u x hx

theorem ReadsExist.assignPhi {phi : ValueId} {os : List (BlockId × ValueId)}
    (hos : ∀ i, p.instr? phi = some i → ∀ v ∈ (i.withPhiOperands os).op.operands, p.instr? v ≠ none) :
    (p.assignPhi phi os).ReadsExist := by
  refine ((h.dropUses phi).modifyInstr fun i hi v hv => ?_).addUses phi
  rw [instr?_dropUses_ne_none]
  rw [instr?_dropUses] at hi
  obtain ⟨j, hj, rfl⟩ := Option.map_eq_some_iff.1 hi
  refine hos j hj v ?_
  have hop : ((if phi ∈ p.operands phi then j.dropUser phi else j).withPhiOperands os).op
      = (j.withPhiOperands os).op := by
    rw [withPhiOperands_eq, withPhiOperands_eq]
    split <;> rfl
  rwa [hop] at hv

theorem ReadsExist.dropPhiOperand (a : BlockId) (phi : ValueId) :
    (p.dropPhiOperand a phi).ReadsExist := by
  unfold Program.dropPhiOperand
  split
  · next name os owner line us hphi =>
      refine h.assignPhi fun i hi v hv => h phi v ?_
      obtain rfl := Option.some.inj (hphi.symm.trans hi)
      obtain ⟨o, ho, rfl⟩ := List.mem_map.1 hv
      simpa [operands, hphi, Op.operands] using ⟨o.1, (List.mem_filter.1 ho).1⟩
  · exact h

theorem ReadsExist.forgetTree (b : BlockId) : (p.forgetTree b).ReadsExist :=
  h.of_values (p.forgetTree_tables b).2

theorem ReadsExist.removeEdge (a b : BlockId) : (p.removeEdge a b).ReadsExist :=
  (ReadsExist.foldl (fun _ phi h => h.dropPhiOperand a phi) _
    (h.of_values (q := (p.modifyBlock a (·.dropSucc b)).modifyBlock b (·.dropPred a)) rfl)).forgetTree a

theorem ReadsExist.unlink {a b : BlockId} (hq : p.unlink a b = .ok q) : q.ReadsExist := by
  obtain ⟨r, -, hq⟩ := bind_eq_ok hq
  obtain ⟨s, -, hq⟩ := bind_eq_ok hq
  exact Except.ok.inj hq ▸ h.removeEdge a b

theorem ReadsExist.placeBefore {anchor v : ValueId} (hq : p.placeBefore anchor v = .ok q) :
    q.ReadsExist := by
  obtain ⟨i, -, hq⟩ := bind_eq_ok hq
  split at hq
  · cases hq
  · obtain ⟨a, -, hq⟩ := bind_eq_ok hq
    split at hq
    · cases hq
    · next b _ =>
        obtain rfl := Except.ok.inj hq
        exact ReadsExist.modifyRest (p := p.modifyBlock b _) (h.of_values rfl) v fun _ => rfl

end

theorem ReadsExist.redirectUse {old new : ValueId} (h : p.ReadsExist) (hnew : p.instr? new ≠ none)
    (u : ValueId) : (redirectUse old new p u).ReadsExist ∧ (redirectUse old new p u).instr? new ≠ none := by
  refine ⟨(h.modifyInstr fun i hi v hv => ?_).modifyRest new fun i => (addUser_rest i u).1, ?_⟩
  · rw [Op.substitute_eq, Op.operands_mapOperands] at hv
    obtain ⟨x, hx, rfl⟩ := List.mem_map.1 hv
    rw [rename]
    split
    · exact hnew
    · exact h u x (by simpa [operands, hi] using hx)
  · rw [Program.redirectUse, instr?_modifyInstr_ne_none, instr?_modifyInstr_ne_none]
    exact hnew

theorem ReadsExist.redirectUses {old new : ValueId} : ∀ (us : List ValueId) {p : Program},
    p.ReadsExist → p.instr? new ≠ none → (us.foldl (Program.redirectUse old new) p).ReadsExist
  | [], _, h, _ => h
  | u :: us, _, h, hnew =>
      ReadsExist.redirectUses us (h.redirectUse hnew u).1 (h.redirectUse hnew u).2

theorem ReadsExist.replace (h : p.ReadsExist) {old new : ValueId} (hq : p.replace old new = .ok q) :
    q.ReadsExist := by
  unfold Program.replace at hq
  split at hq
  · exact Except.ok.inj hq ▸ h
  · obtain ⟨i, hi, hq⟩ := bind_eq_ok hq
    have hi := getInstr_eq_ok hi
    have hcleared : (p.modifyInstr old fun i => { i with users := [] }).ReadsExist :=
      h.modifyRest old fun _ => rfl
    -- Without a reader it does not matter whether the new value exists.
    have hdone (hnew : i.users = [] ∨ p.instr? new ≠ none) : (p.redirect old new).ReadsExist := by
      unfold redirect
      rw [hi]
      refine ReadsExist.of_values (p := i.users.foldl (Program.redirectUse old new) _) ?_ rfl
      rcases hnew with hnone | hnew
      · rw [hnone]
        exact hcleared
      · exact hcleared.redirectUses _ (instr?_modifyInstr_ne_none.2 hnew)
    split at hq
    · obtain ⟨j, hj, hq⟩ := bind_eq_ok hq
      exact Except.ok.inj hq ▸ hdone (Or.inr (by simp [getInstr_eq_ok hj]))
    · next hempty =>
        exact Except.ok.inj hq ▸ hdone (Or.inl (by simpa using hempty))

theorem ReadsExist.removeInstr (h : p.ReadsExist) {v : ValueId} (hq : p.removeInstr v = .ok q) :
    q.ReadsExist := by
  obtain ⟨i, -, hq⟩ := bind_eq_ok hq
  split at hq
  · cases hq
  · obtain rfl := Except.ok.inj hq
    unfold unlist
    split
    · exact h.dropUses v
    · exact ((h.dropUses v).modifyRest v (g := fun i => { i with owner := none }) fun _ => rfl).of_values
        rfl

theorem ReadsExist.becomeJump (h : p.ReadsExist) {v : ValueId} {target : BlockId}
    (hq : p.becomeJump v target = .ok q) : q.ReadsExist := by
  obtain ⟨i, -, hq⟩ := bind_eq_ok hq
  exact Except.ok.inj hq ▸ (h.dropUses v).modifyInstr fun i _ x hx => nomatch hx

theorem ReadsExist.dropBlock (h : p.ReadsExist) (b : BlockId) : (p.dropBlock b).ReadsExist := by
  unfold Program.dropBlock
  split
  · exact h
  · next r hr =>
      have hdetached := ReadsExist.foldl (f := detach)
        (fun p v h => (h.dropUses v).modifyRest v fun _ => rfl) r.contents h
      have hsuccs := ReadsExist.foldl (fun p s h => h.removeEdge b s) r.succs hdetached
      exact (ReadsExist.foldl (fun p a h => h.removeEdge a b) r.preds hsuccs).of_values rfl

end Program

theorem Fold.lasting_readsExist : Fold.Lasting Program.ReadsExist where
  create h hq := h.addInstr hq
  placeBefore h hq := h.placeBefore hq
  replace h hq := h.replace hq
  removeInstr h hq := h.removeInstr hq
  becomeJump h hq := h.becomeJump hq
  unlink h hq := h.unlink hq

theorem Edit.apply_readsExist {p q : Program} (h : p.ReadsExist) {e : Edit}
    (hq : e.apply p = .ok q) : q.ReadsExist := by
  cases e with
  | addMethod name kind => exact Except.ok.inj hq ▸ h.of_values rfl
  | newBlock m kind =>
      obtain ⟨b, hq⟩ := map_eq_ok hq
      obtain ⟨r, -, hq⟩ := Program.bind_eq_ok hq
      obtain ⟨-, rfl⟩ := Prod.mk.inj (Except.ok.inj hq)
      exact h.of_values rfl
  | setMethods methods globals => exact Except.ok.inj hq ▸ h.of_values rfl
  | link a b =>
      obtain ⟨r, -, hq⟩ := Program.bind_eq_ok hq
      obtain ⟨s, -, hq⟩ := Program.bind_eq_ok hq
      obtain rfl := Except.ok.inj hq
      exact h.of_values (Program.forgetTree_tables _ a).2
  | unlink a b => exact h.unlink hq
  | setBefore b st =>
      obtain ⟨r, -, hq⟩ := Program.bind_eq_ok hq
      exact Except.ok.inj hq ▸ h.of_values rfl
  | sealBlock b st =>
      obtain ⟨r, -, hq⟩ := Program.bind_eq_ok hq
      split at hq
      · cases hq
      · exact Except.ok.inj hq ▸ h.of_values rfl
  | setDominator b d =>
      obtain ⟨r, -, hq⟩ := Program.bind_eq_ok hq
      exact Except.ok.inj hq ▸ h.of_values (Program.forgetTree_tables _ b).2
  | emit b op line =>
      obtain ⟨v, hq⟩ := map_eq_ok hq
      obtain ⟨r, s, -, hs, rfl⟩ := Program.emit_eq_ok hq
      exact (h.addInstr hs).of_values rfl
  | create op line => obtain ⟨v, hq⟩ := map_eq_ok hq; exact h.addInstr hq
  | addPhi b name os line =>
      obtain ⟨v, hq⟩ := map_eq_ok hq
      obtain ⟨r, s, -, hs, rfl⟩ := Program.addPhi_eq_ok hq
      exact (h.addInstr hs).of_values rfl
  | updatePhi v os =>
      obtain ⟨i, hi, hq⟩ := Program.bind_eq_ok hq
      have hi := Program.getInstr_eq_ok hi
      split at hq
      · cases hq
      · next hmissing =>
          refine Except.ok.inj hq ▸ h.assignPhi fun j hj => ?_
          obtain rfl := Option.some.inj (hi.symm.trans hj)
          exact Program.ne_none_of_missing? hmissing
  | placeBefore a v => exact h.placeBefore hq
  | replace old new => exact h.replace hq
  | removeInstr v => exact h.removeInstr hq
  | removeBlock b =>
      obtain ⟨r, -, hq⟩ := Program.bind_eq_ok hq
      exact Except.ok.inj hq ▸ h.dropBlock b
  | prune m =>
      obtain ⟨n, hq⟩ := map_eq_ok hq
      obtain ⟨r, -, hq⟩ := Program.bind_eq_ok hq
      obtain ⟨-, rfl⟩ := Prod.mk.inj (Except.ok.inj hq)
      exact Program.ReadsExist.foldl (fun p b h => h.dropBlock b) _ h
  | fold level maxPasses => exact Fold.lasting_readsExist.fold h hq

/-! ## Any requests -/

/-- The request for an edit that goes through the interface. -/
def Request.ofEdit? (e : Edit) : Option Request :=
  if h : e.throughInterface = true then some (.edit e h) else none

/-- A request that is no edit leaves blocks and values alone. -/
theorem Request.apply_tables {p q : Program} {r : Request} (hq : r.apply p = .ok q) :
    (∃ e h, r = .edit e h) ∨ q.blocks = p.blocks ∧ q.values = p.values := by
  cases r with
  | edit e h => exact Or.inl ⟨e, h, rfl⟩
  | setExit m exit =>
      obtain ⟨r, -, hq⟩ := Program.bind_eq_ok hq
      exact Except.ok.inj hq ▸ Or.inr ⟨rfl, rfl⟩
  | declare m d =>
      cases m with
      | none => exact Except.ok.inj hq ▸ Or.inr ⟨rfl, rfl⟩
      | some m =>
          obtain ⟨r, -, hq⟩ := Program.bind_eq_ok hq
          exact Except.ok.inj hq ▸ Or.inr ⟨rfl, rfl⟩
  | dominatorTree m =>
      obtain ⟨t, hq⟩ := map_eq_ok hq
      obtain ⟨s, -, hq⟩ := Program.bind_eq_ok hq
      obtain ⟨-, rfl⟩ := Prod.mk.inj (Except.ok.inj hq)
      exact Or.inr ⟨rfl, rfl⟩

theorem Request.apply_consistent {p q : Program} (h : p.Consistent) {r : Request}
    (hq : r.apply p = .ok q) : q.Consistent := by
  rcases Request.apply_tables hq with ⟨e, he, rfl⟩ | ⟨hblocks, hvalues⟩
  · exact Edit.apply_consistent h hq
  · exact h.of_tables hblocks hvalues

theorem Request.apply_readsExist {p q : Program} (h : p.ReadsExist) {r : Request}
    (hq : r.apply p = .ok q) : q.ReadsExist := by
  rcases Request.apply_tables hq with ⟨e, he, rfl⟩ | ⟨-, hvalues⟩
  · exact Edit.apply_readsExist h hq
  · exact h.of_values hvalues

theorem Program.readsExist_empty : Program.empty.ReadsExist := by
  intro u v hv
  simp [operands, instr?, Program.empty] at hv

theorem toOption_eq_some_iff {ε α : Type} {x : Except ε α} {a : α} :
    x.toOption = some a ↔ x = .ok a := by
  cases x <;> simp [Except.toOption]

theorem Program.afterRequests_tables {requests : List Request} {p : Program}
    (h : Program.afterRequests requests = .ok p) : p.Consistent ∧ p.ListedOnce ∧ p.ReadsExist :=
  ⟨Program.foldlM_keeps (fun h hr => Request.apply_consistent h hr) requests
      Program.consistent_empty h,
    Program.foldlM_keeps (fun h hr => Request.apply_listedOnce h hr) requests
      Program.listedOnce_empty h,
    Program.foldlM_keeps (fun h hr => Request.apply_readsExist h hr) requests
      Program.readsExist_empty h⟩

end StructuredSsa
