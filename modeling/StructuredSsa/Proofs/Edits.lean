import StructuredSsa.Proofs.Consistent
import StructuredSsa.Proofs.View

/-!
# Sequences of edits

`Edit` lists the requests that the editing interface takes, folding included,
and `Edit.apply` carries one out. A request is refused only with a fault; an
error that folding reports leaves a program that can be edited on.

`Edit.apply_consistent` says that no request spoils what the tables say twice,
and `afterEdits_consistent` that no sequence of them does, so three of the
findings of a verification are never made.
-/

namespace StructuredSsa

namespace Program

variable {p q : Program} {b : BlockId} {line : Nat} {old new v : ValueId}

/-! ## Where instructions stand -/

/-- An instruction that is said to stand elsewhere reads what it read. -/
theorem setOwner_kept (hv : p.instr? v ≠ none) (o : Option BlockId) :
    (∀ x, (p.modifyInstr v fun i => { i with owner := o }).owner? x
        = if x = v then o else p.owner? x)
      ∧ (p.Registered → (p.modifyInstr v fun i => { i with owner := o }).Registered) := by
  let g : Instr → Instr := fun i => { i with owner := o }
  refine ⟨fun x => ?_, fun h => h.congr (users_modifyInstr (g := g) fun _ => rfl)
    (operands_modifyInstr (g := g) fun _ => rfl)⟩
  obtain ⟨i, hi⟩ := Option.ne_none_iff_exists'.1 hv
  rw [owner?_eq, field_modifyInstr, owner?_eq]
  by_cases hx : v = x
  · subst hx
    simp [hi]
  · simp [hx, Ne.symm hx]

/-- An instruction that stood nowhere comes to stand in a block. -/
theorem Consistent.place (h : p.Consistent) {f : Block → Block} (hblocks : q.blocks = p.blocks)
    (howner : ∀ x, q.owner? x = if x = v then some b else p.owner? x) (hfree : p.owner? v = none)
    (hb : p.block? b ≠ none) (hregistered : q.Registered) (hs : ∀ r, (f r).succs = r.succs)
    (hp : ∀ r, (f r).preds = r.preds) (hc : ∀ r, ((f r).contents).Perm (v :: r.contents)) :
    (q.modifyBlock b f).Consistent := by
  obtain ⟨hsuccs, hpreds, hcontents⟩ := block_tables hblocks
  have hat (c : BlockId) : ((q.modifyBlock b f).contents c).Perm
      (if b = c then v :: p.contents c else p.contents c) := by
    have hblock : q.block? c = p.block? c := by rw [block?, block?, hblocks]
    rw [contents, field_modifyBlock, hblock, contents]
    split
    · next hbc =>
        subst hbc
        obtain ⟨r, hr⟩ := Option.ne_none_iff_exists'.1 hb
        simpa [hr] using hc r
    · rfl
  have hnot (c : BlockId) : v ∉ p.contents c := fun hv => by
    simp [(h.housed.owner v c).2 hv] at hfree
  refine ⟨?_, ⟨fun x c => ?_, fun c => ?_⟩, hregistered.modifyBlock⟩
  · exact (h.linked.congr hsuccs hpreds).congr (succs_modifyBlock hs) (preds_modifyBlock hp)
  · show q.owner? x = some c ↔ _
    rw [(hat c).mem_iff, howner]
    by_cases hx : x = v
    · subst hx
      by_cases hbc : b = c
      · simp [hbc]
      · simp [hbc, hnot c]
    · have := h.housed.owner x c
      by_cases hbc : b = c <;> simpa [hx, hbc] using this
  · rw [(hat c).nodup_iff]
    split
    · exact List.nodup_cons.2 ⟨hnot c, h.housed.contents_nodup c⟩
    · exact h.housed.contents_nodup c

theorem insertBefore_perm (a v : ValueId) : ∀ l : List ValueId, (insertBefore a v l).Perm (v :: l)
  | [] => .refl _
  | x :: l => by
      rw [insertBefore]
      split
      · exact .refl _
      · exact ((insertBefore_perm a v l).cons x).trans (.swap v x l)

/-! ## New instructions -/

/-- What the table of values holds after an instruction was added. -/
theorem addInstr_kept {op : Op} {owner : Option BlockId}
    (h : p.addInstr op owner line = .ok (v, q)) :
    p.owner? v = none ∧ q.blocks = p.blocks ∧ (∀ x, q.owner? x = if x = v then owner else p.owner? x)
      ∧ (p.Registered → q.Registered) := by
  let s : Program := { p with values := p.values.push ⟨op, owner, line, []⟩ }
  obtain ⟨hv, hq⟩ : v = ⟨p.values.size⟩ ∧ q = s.addUses ⟨p.values.size⟩ := by
    simp only [addInstr] at h
    split at h
    · cases h
    · simpa [eq_comm] using h
  subst hv hq
  have hnew : p.instr? ⟨p.values.size⟩ = none := by simp [instr?]
  have hat (x : ValueId) : s.instr? x =
      if x = ⟨p.values.size⟩ then some ⟨op, owner, line, []⟩ else p.instr? x := by
    obtain ⟨n⟩ := x
    simp [s, instr?, Array.getElem?_push]
  obtain ⟨hrest, hoperands⟩ := s.addUses_rest ⟨p.values.size⟩
  refine ⟨by simp [owner?, hnew], hrest.blocks, fun x => ?_, fun h => ?_⟩
  · rw [hrest.owner, owner?, hat, owner?]
    split <;> rfl
  · have husers : s.users = p.users := by
      funext x
      rw [users, hat, users]
      split
      · next hx => simp [hx, hnew]
      · rfl
    refine Registered.addUses ⟨fun x u hu => ?_, fun x => husers ▸ h.users_nodup x⟩ _
    have hreads := h.user_reads x u (husers ▸ hu)
    rw [operands, hat, if_neg]
    · exact hreads
    · rintro rfl
      simp [operands, hnew] at hreads

theorem Consistent.create (h : p.Consistent) {op : Op} (hq : p.create op line = .ok (v, q)) :
    q.Consistent := by
  obtain ⟨hfree, hblocks, howner, hregistered⟩ := addInstr_kept hq
  obtain ⟨hsuccs, hpreds, hcontents⟩ := block_tables hblocks
  refine ⟨h.linked.congr hsuccs hpreds, h.housed.congr ?_ hcontents, hregistered h.registered⟩
  funext x
  rw [howner]
  split
  · next hx => rw [hx, hfree]
  · rfl

theorem Consistent.emit (h : p.Consistent) {op : Op} (hq : p.emit b op line = .ok (v, q)) :
    q.Consistent := by
  obtain ⟨r, s, hr, hs, rfl⟩ := emit_eq_ok hq
  obtain ⟨hfree, hblocks, howner, hregistered⟩ := addInstr_kept hs
  refine h.place hblocks howner hfree (by simp [hr]) (hregistered h.registered)
    (fun _ => rfl) (fun _ => rfl) fun r => ?_
  show (r.phis ++ (r.body ++ [v])).Perm (v :: (r.phis ++ r.body))
  rw [← List.append_assoc]
  exact List.perm_append_singleton ..

theorem Consistent.addPhi (h : p.Consistent) {name : String} {os : List (BlockId × ValueId)}
    (hq : p.addPhi b name os line = .ok (v, q)) : q.Consistent := by
  obtain ⟨r, s, hr, hs, rfl⟩ := addPhi_eq_ok hq
  obtain ⟨hfree, hblocks, howner, hregistered⟩ := addInstr_kept hs
  refine h.place hblocks howner hfree (by simp [hr]) (hregistered h.registered)
    (fun _ => rfl) (fun _ => rfl) fun r => ?_
  exact (List.perm_append_singleton v r.phis).append_right r.body

/-! ## Moving, replacing, removing -/

section

variable (h : p.Consistent)
include h

theorem Consistent.updatePhi {os : List (BlockId × ValueId)} (hq : p.updatePhi v os = .ok q) :
    q.Consistent := by
  obtain ⟨i, -, hq⟩ := bind_eq_ok hq
  split at hq
  · cases hq
  · obtain rfl := Except.ok.inj hq
    have hops := p.opsOnly_assignPhi v os
    exact ⟨hops.linked h.linked, hops.housed h.housed, h.registered.assignPhi v os⟩

theorem Consistent.placeBefore {anchor : ValueId} (hq : p.placeBefore anchor v = .ok q) :
    q.Consistent := by
  obtain ⟨i, hi, hq⟩ := bind_eq_ok hq
  split at hq
  · cases hq
  · next hfree =>
      obtain ⟨a, ha, hq⟩ := bind_eq_ok hq
      split at hq
      · cases hq
      · next b hb =>
          obtain rfl := Except.ok.inj hq
          have hi := getInstr_eq_ok hi
          have hstands : anchor ∈ p.contents b :=
            (h.housed.owner anchor b).1 (by simpa [owner?, getInstr_eq_ok ha] using hb)
          obtain ⟨howner, hregistered⟩ := setOwner_kept (p := p) (v := v) (by simp [hi]) (some b)
          refine h.place (q := p.modifyInstr v fun i => { i with owner := some b })
            (f := fun r => { r with body := insertBefore anchor v r.body }) rfl howner
            (by simpa [owner?, hi] using hfree) ?_ (hregistered h.registered) (fun _ => rfl)
            (fun _ => rfl) fun r => ?_
          · intro hnone
            simp [contents, hnone] at hstands
          · exact ((insertBefore_perm anchor v r.body).append_left r.phis).trans
              List.perm_middle

theorem Consistent.dropUses (v : ValueId) : (p.dropUses v).Consistent :=
  have hrest := (p.dropUses_rest v).1
  ⟨hrest.linked h.linked, hrest.housed h.housed, h.registered.dropUses v⟩

theorem Consistent.unlist (v : ValueId) : (p.unlist v).Consistent := by
  unfold Program.unlist
  split
  · exact h
  · next b hb =>
      have hv : p.instr? v ≠ none := by
        intro hnone
        simp [hnone] at hb
      obtain ⟨howner, hregistered⟩ := setOwner_kept hv none
      have hat (c : BlockId) : ((p.modifyInstr v fun i => { i with owner := none }).modifyBlock b
          fun r => { r with body := r.body.filter (· ≠ v), phis := r.phis.filter (· ≠ v) }).contents c
            = if b = c then (p.contents c).filter (· ≠ v) else p.contents c := by
        rw [contents, field_modifyBlock, contents, block?_modifyInstr]
        split
        · cases p.block? c <;> simp [Block.contents]
        · rfl
      refine ⟨?_, ⟨fun x c => ?_, fun c => ?_⟩, ?_⟩
      · exact h.linked.congr (succs_modifyBlock fun _ => rfl) (preds_modifyBlock fun _ => rfl)
      · rw [hat]
        refine (Eq.congr_left (howner x)).trans ?_
        have hx := h.housed.owner x c
        by_cases hxv : x = v
        · subst hxv
          have hc : some b = some c ↔ x ∈ p.contents c := by
            rw [← hx, owner?, hb]
          by_cases hbc : b = c
          · simp [hbc]
          · simpa [hbc] using hc
        · by_cases hbc : b = c <;> simpa [hxv, hbc] using hx
      · rw [hat]
        split
        · exact (h.housed.contents_nodup c).filter _
        · exact h.housed.contents_nodup c
      · exact (hregistered h.registered).modifyBlock

theorem Consistent.removeInstr (hq : p.removeInstr v = .ok q) : q.Consistent := by
  obtain ⟨i, -, hq⟩ := bind_eq_ok hq
  split at hq
  · cases hq
  · obtain rfl := Except.ok.inj hq
    exact (h.dropUses v).unlist v

theorem Consistent.becomeJump {target : BlockId} (hq : p.becomeJump v target = .ok q) :
    q.Consistent := by
  obtain ⟨i, -, hq⟩ := bind_eq_ok hq
  obtain rfl := Except.ok.inj hq
  have hdrop := h.dropUses v
  have hops : OpsOnly (p.dropUses v) ((p.dropUses v).modifyInstr v fun i =>
      { i with op := .jump target }) := opsOnly_modifyInstr fun _ => rfl
  exact ⟨hops.linked hdrop.linked, hops.housed hdrop.housed,
    hdrop.registered.modifyOp (h.registered.not_user v) fun _ => rfl⟩

end

/-! ## Reading another value -/

/-- What is left of the users of `old` reads one of the two values; `old` lists
none of them any more. -/
structure Redirecting (old new : ValueId) (us : List ValueId) (p : Program) : Prop where
  registered : p.Registered
  unread : p.users old = []
  reads : ∀ u ∈ us, old ∈ p.operands u ∨ new ∈ p.operands u

theorem redirectUse_rest (old new : ValueId) (p : Program) (u : ValueId) :
    OpsOnly p (redirectUse old new p u) :=
  (opsOnly_modifyInstr (g := fun i => { i with op := i.op.substitute old new }) fun _ => rfl).trans
    (opsOnly_modifyInstr fun i => (addUser_rest i u).2)

theorem operands_redirectUse (hne : new ≠ old) {u w : ValueId} (h : v ∈ p.operands w) :
    (w ≠ u ∨ v ≠ old → v ∈ (redirectUse old new p u).operands w)
      ∧ (v = old → w = u → new ∈ (redirectUse old new p u).operands w) := by
  have hoperands : (redirectUse old new p u).operands
      = (p.modifyInstr u fun i => { i with op := i.op.substitute old new }).operands :=
    operands_modifyInstr fun i => (addUser_rest i u).1
  rw [hoperands, operands_eq, field_modifyInstr]
  rw [operands_eq] at h
  cases hi : p.instr? w with
  | none => simp [hi] at h
  | some i =>
      simp only [hi, Option.map_some, Option.getD_some] at h
      by_cases hwu : u = w
      · simp only [hwu, if_pos, Option.map_some, Option.getD_some, Op.substitute,
          Op.operands_mapOperands, List.mem_map]
        refine ⟨fun hv => ⟨v, h, if_neg (hv.resolve_left fun hne => hne rfl)⟩, ?_⟩
        rintro rfl -
        exact ⟨v, h, if_pos rfl⟩
      · simp only [hwu, if_false, Option.map_some, Option.getD_some]
        exact ⟨fun _ => h, fun _ hwu' => absurd hwu'.symm hwu⟩

theorem Redirecting.step {u : ValueId} (hne : new ≠ old) {us : List ValueId}
    (h : Redirecting old new (u :: us) p) : Redirecting old new us (redirectUse old new p u) := by
  have hread (w x : ValueId) (hx : x ≠ old) (hw : x ∈ p.operands w) :
      x ∈ (redirectUse old new p u).operands w := (operands_redirectUse hne hw).1 (Or.inr hx)
  have hnew {w : ValueId} (hw : old ∈ p.operands w ∨ new ∈ p.operands w) :
      old ∈ (redirectUse old new p u).operands w ∨ new ∈ (redirectUse old new p u).operands w := by
    rcases hw with hw | hw
    · by_cases hwu : w = u
      · exact Or.inr ((operands_redirectUse hne hw).2 rfl hwu)
      · exact Or.inl ((operands_redirectUse hne hw).1 (Or.inl hwu))
    · exact Or.inr (hread w new hne hw)
  have husers (x : ValueId) : (redirectUse old new p u).users x
      = if new = x then ((p.instr? x).map fun i => (i.addUser u).users).getD [] else p.users x := by
    rw [redirectUse, users, field_modifyInstr, users]
    have hmid : (p.modifyInstr u fun i => { i with op := i.op.substitute old new }).users
        = p.users := users_modifyInstr fun _ => rfl
    split
    · rw [instr?_modifyInstr]
      split
      · cases p.instr? x with
        | none => rfl
        | some i => simp [Instr.addUser]; split <;> rfl
      · rfl
    · exact congrFun hmid x
  refine ⟨⟨fun x w hw => ?_, fun x => ?_⟩, ?_, fun w hw => hnew (h.reads w (.tail _ hw))⟩
  · rw [husers] at hw
    split at hw
    · next hx =>
        subst hx
        cases hi : p.instr? new with
        | none => simp [hi] at hw
        | some i =>
            simp only [hi, Option.map_some, Option.getD_some, Instr.mem_users_addUser] at hw
            rcases hw with hw | rfl
            · exact hread w new hne (h.registered.user_reads new w (by simpa [users, hi] using hw))
            · rcases h.reads w (List.mem_cons_self ..) with hold | hread'
              · exact (operands_redirectUse hne hold).2 rfl rfl
              · exact hread w new hne hread'
    · have hx : x ≠ old := by
        rintro rfl
        rw [h.unread] at hw
        cases hw
      exact hread w x hx (h.registered.user_reads x w hw)
  · rw [husers]
    have hx := h.registered.users_nodup x
    split
    · cases hi : p.instr? x with
      | none => simp
      | some i => exact addUser_nodup (by simpa [users, hi] using hx) u
    · exact hx
  · rw [husers, if_neg hne, h.unread]

theorem Redirecting.run (hne : new ≠ old) : ∀ (us : List ValueId) {p : Program},
    Redirecting old new us p → OpsOnly p (us.foldl (redirectUse old new) p)
      ∧ (us.foldl (redirectUse old new) p).Registered
  | [], p, h => ⟨.refl p, h.registered⟩
  | u :: us, p, h => by
      obtain ⟨hrest, hregistered⟩ := Redirecting.run hne us (h.step hne)
      exact ⟨(redirectUse_rest old new p u).trans hrest, hregistered⟩

theorem Consistent.substituteBlocks (h : p.Consistent) (old new : ValueId) :
    ({ p with blocks := p.blocks.map (·.substitute old new) } : Program).Consistent := by
  have hat (b : BlockId) : ({ p with blocks := p.blocks.map (·.substitute old new) } : Program).block? b
      = (p.block? b).map (·.substitute old new) := by
    simp [block?]
  refine ⟨h.linked.congr ?_ ?_, h.housed.congr rfl ?_, h.registered.congr rfl rfl⟩ <;> funext b
  · rw [succs_eq, succs_eq, hat]
    cases p.block? b <;> rfl
  · rw [preds_eq, preds_eq, hat]
    cases p.block? b <;> rfl
  · rw [contents, contents, hat]
    cases p.block? b <;> rfl

theorem Consistent.redirect (h : p.Consistent) (hne : new ≠ old) :
    (p.redirect old new).Consistent := by
  unfold Program.redirect
  split
  · exact h
  · next i hi =>
      have hcleared : OpsOnly p (p.modifyInstr old fun i => { i with users := [] }) :=
        opsOnly_modifyInstr fun _ => rfl
      have hstart : Redirecting old new i.users
          (p.modifyInstr old fun i => { i with users := [] }) := by
        refine ⟨h.registered.clearUsers (fun _ => rfl) fun _ => rfl, ?_, fun u hu => Or.inl ?_⟩
        · rw [users, field_modifyInstr, if_pos rfl]
          cases p.instr? old <;> rfl
        · rw [operands_modifyInstr (g := fun i => { i with users := [] }) fun _ => rfl]
          exact h.registered.user_reads old u (by simpa [users, hi] using hu)
      obtain ⟨hrest, hregistered⟩ := Redirecting.run hne i.users hstart
      have hops := hcleared.trans hrest
      exact Consistent.substituteBlocks
        ⟨hops.linked h.linked, hops.housed h.housed, hregistered⟩ old new

theorem Consistent.replace (h : p.Consistent) (hq : p.replace old new = .ok q) : q.Consistent := by
  unfold Program.replace at hq
  split at hq
  · exact Except.ok.inj hq ▸ h
  · next hne =>
      obtain ⟨i, -, hq⟩ := bind_eq_ok hq
      split at hq
      · obtain ⟨j, -, hq⟩ := bind_eq_ok hq
        exact Except.ok.inj hq ▸ h.redirect (Ne.symm hne)
      · exact Except.ok.inj hq ▸ h.redirect (Ne.symm hne)

/-! ## Methods and blocks -/

theorem consistent_empty : Program.empty.Consistent :=
  ⟨⟨by simp [succs, preds, block?, Program.empty], by simp [succs, block?, Program.empty],
      by simp [preds, block?, Program.empty]⟩,
    ⟨by simp [owner?, contents, block?, instr?, Program.empty],
      by simp [contents, block?, Program.empty]⟩,
    ⟨by simp [users, instr?, Program.empty], by simp [users, instr?, Program.empty]⟩⟩

section

variable (h : p.Consistent)
include h

/-- A block with nothing in it and no edges says nothing that was not said
before it was there. -/
theorem Consistent.pushBlock (m : MethodId) (kind : BlockKind) :
    ({ p with blocks := p.blocks.push (.new m kind) } : Program).Consistent := by
  have hnew : p.block? ⟨p.blocks.size⟩ = none := by simp [block?]
  have hat (b : BlockId) : ({ p with blocks := p.blocks.push (.new m kind) } : Program).block? b
      = if b = ⟨p.blocks.size⟩ then some (.new m kind) else p.block? b := by
    obtain ⟨n⟩ := b
    simp [block?, Array.getElem?_push]
  refine ⟨h.linked.congr ?_ ?_, h.housed.congr rfl ?_, h.registered.congr rfl rfl⟩ <;> funext b
  · rw [succs_eq, succs_eq, hat]
    split
    · next hb => rw [hb, hnew]; rfl
    · rfl
  · rw [preds_eq, preds_eq, hat]
    split
    · next hb => rw [hb, hnew]; rfl
    · rfl
  · rw [contents, contents, hat]
    split
    · next hb => rw [hb, hnew]; rfl
    · rfl

theorem Consistent.newBlock {m : MethodId} {kind : BlockKind} (hq : p.newBlock m kind = .ok (b, q)) :
    q.Consistent := by
  obtain ⟨r, -, hq⟩ := bind_eq_ok hq
  obtain ⟨-, rfl⟩ := Prod.mk.inj (Except.ok.inj hq)
  exact (h.pushBlock m kind).of_tables rfl rfl

theorem Consistent.setBefore {st : Bindings} (hq : p.setBefore b st = .ok q) : q.Consistent := by
  obtain ⟨r, -, hq⟩ := bind_eq_ok hq
  obtain rfl := Except.ok.inj hq
  exact h.modifyBlock (fun _ => rfl) (fun _ => rfl) fun _ => rfl

theorem Consistent.sealBlock {st : Bindings} (hq : p.sealBlock b st = .ok q) : q.Consistent := by
  obtain ⟨r, -, hq⟩ := bind_eq_ok hq
  split at hq
  · cases hq
  · obtain rfl := Except.ok.inj hq
    exact h.modifyBlock (fun _ => rfl) (fun _ => rfl) fun _ => rfl

theorem Consistent.setDominator {d : BlockId} (hq : p.setDominator b d = .ok q) : q.Consistent := by
  obtain ⟨r, -, hq⟩ := bind_eq_ok hq
  obtain rfl := Except.ok.inj hq
  have hset : (p.modifyBlock b fun r => { r with dominator := some d }).Consistent :=
    h.modifyBlock (fun _ => rfl) (fun _ => rfl) fun _ => rfl
  exact hset.forgetTree b

theorem Consistent.link {a : BlockId} (hq : p.link a b = .ok q) : q.Consistent := by
  obtain ⟨r, hr, hq⟩ := bind_eq_ok hq
  obtain ⟨s, hs, hq⟩ := bind_eq_ok hq
  obtain rfl := Except.ok.inj hq
  exact (h.addEdge (by simp [getBlock_eq_ok hr]) (by simp [getBlock_eq_ok hs])).forgetTree a

theorem Consistent.unlink {a : BlockId} (hq : p.unlink a b = .ok q) : q.Consistent := by
  obtain ⟨r, -, hq⟩ := bind_eq_ok hq
  obtain ⟨s, -, hq⟩ := bind_eq_ok hq
  exact Except.ok.inj hq ▸ h.removeEdge a b

theorem Consistent.removeBlock (hq : p.removeBlock b = .ok q) : q.Consistent := by
  obtain ⟨r, -, hq⟩ := bind_eq_ok hq
  exact Except.ok.inj hq ▸ h.dropBlock b

theorem Consistent.prune {m : MethodId} {n : Nat} (hq : p.prune m = .ok (n, q)) : q.Consistent := by
  obtain ⟨r, -, hq⟩ := bind_eq_ok hq
  obtain ⟨-, rfl⟩ := Prod.mk.inj (Except.ok.inj hq)
  exact .dropBlocks _ h

end

end Program

/-! ## Folding -/

namespace Fold

/-- The program that work leaves, whether or not it ended early. -/
def left {α : Type} : EStateM.Result Stop Program α → Program
  | .ok _ p => p
  | .error _ p => p

/-- A property of programs that everything folding does to a program keeps. -/
structure Lasting (I : Program → Prop) : Prop where
  create : ∀ {p q op line v}, I p → p.create op line = .ok (v, q) → I q
  placeBefore : ∀ {p q anchor v}, I p → p.placeBefore anchor v = .ok q → I q
  replace : ∀ {p q old new}, I p → p.replace old new = .ok q → I q
  removeInstr : ∀ {p q v}, I p → p.removeInstr v = .ok q → I q
  becomeJump : ∀ {p q v target}, I p → p.becomeJump v target = .ok q → I q
  unlink : ∀ {p q a b}, I p → p.unlink a b = .ok q → I q

theorem lasting_consistent : Lasting Program.Consistent where
  create h hq := h.create hq
  placeBefore h hq := h.placeBefore hq
  replace h hq := h.replace hq
  removeInstr h hq := h.removeInstr hq
  becomeJump h hq := h.becomeJump hq
  unlink h hq := h.unlink hq

/-- Work that keeps a property of programs, also when it ends early. -/
def Harmless {α : Type} (I : Program → Prop) (x : FoldM α) : Prop := ∀ p, I p → I (left (x p))

section

variable {I : Program → Prop} {α β : Type}

theorem harmless_pure (a : α) : Harmless I (pure a : FoldM α) := fun _ h => h

theorem harmless_throw (e : Stop) : Harmless I (throw e : FoldM α) := fun _ h => h

theorem harmless_look (f : Program → Except Fault α) : Harmless I (look f) := by
  intro p h
  unfold look
  split <;> exact h

theorem harmless_edit {f : Program → Except Fault Program}
    (hf : ∀ p q : Program, I p → f p = .ok q → I q) : Harmless I (edit f) := by
  intro p h
  unfold edit
  split
  · next q hq => exact hf p q h hq
  · exact h

theorem harmless_editWith {f : Program → Except Fault (α × Program)}
    (hf : ∀ (p q : Program) (a : α), I p → f p = .ok (a, q) → I q) : Harmless I (editWith f) := by
  intro p h
  unfold editWith
  split
  · next a q hq => exact hf p q a h hq
  · exact h

theorem Harmless.bind {x : FoldM α} {f : α → FoldM β} (hx : Harmless I x)
    (hf : ∀ a, Harmless I (f a)) : Harmless I (x >>= f) := by
  intro p h
  have hp := hx p h
  simp only [Bind.bind, EStateM.bind]
  cases hrun : x p with
  | error e q =>
      rw [hrun] at hp
      exact hp
  | ok a q =>
      rw [hrun] at hp
      exact hf a q hp

theorem harmless_foldlM {γ : Type} {f : β → γ → FoldM β} (hf : ∀ b c, Harmless I (f b c)) :
    ∀ (l : List γ) (b : β), Harmless I (l.foldlM f b)
  | [], b => harmless_pure b
  | c :: l, b => by
      rw [List.foldlM_cons]
      exact (hf b c).bind fun b' => harmless_foldlM hf l b'

end

section

variable {I : Program → Prop} (hI : Lasting I)

include hI

theorem Lasting.replaceByConstant (old : ValueId) (n : Int64) (line : Nat) :
    Harmless I (replaceByConstant old n line) := by
  refine .bind (harmless_editWith fun p q v h hq => hI.create h hq) fun c => ?_
  refine .bind (harmless_edit fun p q h hq => hI.placeBefore h hq) fun _ => ?_
  refine .bind (harmless_edit fun p q h hq => hI.replace h hq) fun _ => ?_
  exact harmless_edit fun p q h hq => hI.removeInstr h hq

theorem Lasting.visit (b : BlockId) (count : FoldCount) (v : ValueId) :
    Harmless I (visit b count v) := by
  refine .bind (harmless_look _) fun i => ?_
  split
  · refine .bind (harmless_look _) fun x => .bind (harmless_look _) fun y => ?_
    split
    · split
      · exact (hI.replaceByConstant _ _ _).bind fun _ => harmless_pure _
      · exact harmless_throw _
    · exact harmless_pure _
  · refine .bind (harmless_look _) fun x => .bind (harmless_look _) fun y => ?_
    split
    · exact (hI.replaceByConstant _ _ _).bind fun _ => harmless_pure _
    · exact harmless_pure _
  · refine .bind (harmless_look _) fun n => ?_
    split
    · refine .bind (harmless_edit fun p q h hq => hI.becomeJump h hq) fun _ => ?_
      exact (harmless_edit fun p q h hq => hI.unlink h hq).bind fun _ => harmless_pure _
    · exact harmless_pure _
  · exact harmless_pure _

theorem Lasting.visitBlock (count : FoldCount) (b : BlockId) : Harmless I (visitBlock count b) :=
  (harmless_look _).bind fun _ => harmless_foldlM (hI.visit b) _ count

theorem Lasting.pass : Harmless I pass := fun p h => harmless_foldlM hI.visitBlock _ _ p h

theorem Lasting.repeated : ∀ n, Harmless I (repeated n)
  | 0 => hI.pass
  | n + 1 => by
      refine hI.pass.bind fun count => ?_
      split
      · exact (Lasting.repeated n).bind fun _ => harmless_pure _
      · exact harmless_pure _

theorem Lasting.run (level maxPasses : Nat) : Harmless I (Fold.run level maxPasses) := by
  unfold Fold.run
  split
  · exact harmless_pure _
  · exact hI.pass
  · exact hI.repeated _

end

end Fold

/-! ## Requests -/

/-- A request to change a program. -/
inductive Edit where
  | addMethod (name : String) (kind : MethodKind)
  | newBlock (m : MethodId) (kind : BlockKind)
  /-- The methods and the global names are open to any change. -/
  | setMethods (methods : Array Method) (globals : Scope)
  | link (source target : BlockId)
  | unlink (source target : BlockId)
  | setBefore (b : BlockId) (bindings : Bindings)
  | sealBlock (b : BlockId) (bindings : Bindings)
  | setDominator (b dominator : BlockId)
  | emit (b : BlockId) (op : Op) (line : Nat)
  | create (op : Op) (line : Nat)
  | addPhi (b : BlockId) (name : String) (operands : List (BlockId × ValueId)) (line : Nat)
  | updatePhi (phi : ValueId) (operands : List (BlockId × ValueId))
  | placeBefore (anchor v : ValueId)
  | replace (old new : ValueId)
  | removeInstr (v : ValueId)
  | removeBlock (b : BlockId)
  | prune (m : MethodId)
  /-- Folding at some level. It may report an error and leave its work half
  done; only a fault refuses it. -/
  | fold (level maxPasses : Nat)

/-- Carry out a request. -/
def Edit.apply (p : Program) : Edit → Except Fault Program
  | addMethod name kind => .ok (p.addMethod name kind).2
  | newBlock m kind => (·.2) <$> p.newBlock m kind
  | setMethods methods globals => .ok { p with methods := methods, globals := globals }
  | link source target => p.link source target
  | unlink source target => p.unlink source target
  | setBefore b bindings => p.setBefore b bindings
  | sealBlock b bindings => p.sealBlock b bindings
  | setDominator b dominator => p.setDominator b dominator
  | emit b op line => (·.2) <$> p.emit b op line
  | create op line => (·.2) <$> p.create op line
  | addPhi b name operands line => (·.2) <$> p.addPhi b name operands line
  | updatePhi phi operands => p.updatePhi phi operands
  | placeBefore anchor v => p.placeBefore anchor v
  | replace old new => p.replace old new
  | removeInstr v => p.removeInstr v
  | removeBlock b => p.removeBlock b
  | prune m => (·.2) <$> p.prune m
  | fold level maxPasses =>
      match Fold.run level maxPasses p with
      | .ok _ q | .error (.error _) q => .ok q
      | .error (.fault f) _ => .error f

/-- The program that a sequence of requests makes out of nothing, if none of
them is refused. -/
def Program.afterEdits (edits : List Edit) : Except Fault Program :=
  edits.foldlM Edit.apply .empty

/-- Folding keeps what lasts, whatever it reports. -/
theorem Fold.Lasting.fold {I : Program → Prop} (hI : Lasting I) {p q : Program} (h : I p)
    {level maxPasses : Nat} (hq : (Edit.fold level maxPasses).apply p = .ok q) : I q := by
  have hleft := hI.run level maxPasses p h
  simp only [Edit.apply] at hq
  cases hrun : Fold.run level maxPasses p with
  | ok count r =>
      rw [hrun] at hq hleft
      exact Except.ok.inj hq ▸ hleft
  | error stop r =>
      rw [hrun] at hq hleft
      cases stop with
      | error e => exact Except.ok.inj hq ▸ hleft
      | fault f => cases hq

theorem map_eq_ok {α : Type} {x : Except Fault (α × Program)} {q : Program}
    (h : (·.2) <$> x = .ok q) : ∃ a, x = .ok (a, q) := by
  cases x with
  | error e => cases h
  | ok r => exact ⟨r.1, by rw [← Except.ok.inj h]⟩

/-- No request spoils what the tables say twice. -/
theorem Edit.apply_consistent {p q : Program} (h : p.Consistent) {e : Edit}
    (hq : e.apply p = .ok q) : q.Consistent := by
  cases e with
  | addMethod name kind =>
      obtain rfl := Except.ok.inj hq
      exact (h.pushBlock ⟨p.methods.size⟩ (.entry [])).of_tables rfl rfl
  | newBlock m kind => obtain ⟨b, hq⟩ := map_eq_ok hq; exact h.newBlock hq
  | setMethods methods globals =>
      obtain rfl := Except.ok.inj hq
      exact h.of_tables rfl rfl
  | link a b => exact h.link hq
  | unlink a b => exact h.unlink hq
  | setBefore b st => exact h.setBefore hq
  | sealBlock b st => exact h.sealBlock hq
  | setDominator b d => exact h.setDominator hq
  | emit b op line => obtain ⟨v, hq⟩ := map_eq_ok hq; exact h.emit hq
  | create op line => obtain ⟨v, hq⟩ := map_eq_ok hq; exact h.create hq
  | addPhi b name os line => obtain ⟨v, hq⟩ := map_eq_ok hq; exact h.addPhi hq
  | updatePhi v os => exact h.updatePhi hq
  | placeBefore a v => exact h.placeBefore hq
  | replace old new => exact h.replace hq
  | removeInstr v => exact h.removeInstr hq
  | removeBlock b => exact h.removeBlock hq
  | prune m => obtain ⟨n, hq⟩ := map_eq_ok hq; exact h.prune hq
  | fold level maxPasses => exact Fold.lasting_consistent.fold h hq

/-- What every step keeps, a sequence of steps that goes through keeps. -/
theorem Program.foldlM_keeps {α : Type} {I : Program → Prop} {f : Program → α → Except Fault Program}
    (step : ∀ {p a q}, I p → f p a = .ok q → I q) : ∀ (l : List α) {p q : Program}, I p →
      l.foldlM f p = .ok q → I q
  | [], _, _, h, hq => Except.ok.inj hq ▸ h
  | a :: l, p, q, h, hq => by
      rw [List.foldlM_cons] at hq
      obtain ⟨r, hr, hq⟩ := bind_eq_ok hq
      exact Program.foldlM_keeps step l (step h hr) hq

/-! ## What a verification does not find -/

/-- A finding that two tables disagree. -/
def Finding.isMismatch : Finding → Bool
  | asymmetricEdge .. | wrongOwner .. | staleUse .. => true
  | _ => false

theorem Finding.mem_when {c : Bool} {f g : Finding} : g ∈ Finding.when c f ↔ c = true ∧ g = f := by
  cases c <;> simp [Finding.when]

namespace Program

variable {p : Program} {b : BlockId} {r : Block}

theorem Consistent.edgeFindings (h : p.Consistent) (hr : p.block? b = some r) :
    p.edgeFindings b r = [] := by
  have hs : p.succs b = r.succs := by simp [succs, hr]
  have hp : p.preds b = r.preds := by simp [preds, hr]
  simp only [Program.edgeFindings, List.append_eq_nil_iff, List.map_eq_nil_iff,
    List.filter_eq_nil_iff, decide_eq_true_eq, Classical.not_not]
  exact ⟨fun s hs' => (h.linked.edge b s).1 (hs ▸ hs'), fun q hq => (h.linked.edge q b).2 (hp ▸ hq)⟩

theorem terminatorFindings_match {f : Finding} (hf : f ∈ p.terminatorFindings b r) :
    f.isMismatch = false := by
  unfold terminatorFindings at hf
  dsimp only at hf
  split at hf
  · split at hf
    · rw [(Finding.mem_when.1 hf).2]
      rfl
    · rw [List.mem_singleton.1 hf]
      rfl
  · rw [List.mem_singleton.1 hf]
    rfl

theorem phiFindings_match {f : Finding} (hf : f ∈ p.phiFindings r) : f.isMismatch = false := by
  obtain ⟨v, -, hf⟩ := List.mem_flatMap.1 hf
  split at hf
  · rw [(Finding.mem_when.1 hf).2]
    rfl
  · cases hf

theorem operandFindings_match {u v : ValueId} {f : Finding} (hf : f ∈ p.operandFindings u v) :
    f.isMismatch = false := by
  unfold operandFindings at hf
  split at hf
  · rcases List.mem_append.1 hf with hf | hf <;> rw [(Finding.mem_when.1 hf).2] <;> rfl
  · cases hf

theorem Consistent.instrFindings (h : p.Consistent) {v : ValueId} (hv : v ∈ p.contents b)
    {f : Finding} (hf : f ∈ p.instrFindings b v) : f.isMismatch = false := by
  unfold Program.instrFindings at hf
  split at hf
  · next i hi =>
      have howner : i.owner = some b := by simpa [owner?, hi] using (h.housed.owner v b).2 hv
      have hstale : (i.users.filter fun u => v ∉ p.operands u) = [] := by
        rw [List.filter_eq_nil_iff]
        intro u hu
        have hreads := h.registered.user_reads v u (by simpa [users, hi] using hu)
        simpa using hreads
      rw [hstale, howner, List.map_nil, List.append_nil] at hf
      rcases List.mem_append.1 hf with hf | hf
      · simp [Finding.mem_when] at hf
      · obtain ⟨u, -, hf⟩ := List.mem_flatMap.1 hf
        exact operandFindings_match hf
  · cases hf

theorem Consistent.blockFindings (h : p.Consistent) (hr : p.block? b = some r) {f : Finding}
    (hf : f ∈ p.blockFindings b r) : f.isMismatch = false := by
  rw [Program.blockFindings, h.edgeFindings hr, List.nil_append] at hf
  simp only [List.mem_append] at hf
  rcases hf with ((hf | hf) | hf) | hf
  · rw [(Finding.mem_when.1 hf).2]
    rfl
  · exact terminatorFindings_match hf
  · exact phiFindings_match hf
  · obtain ⟨v, hv, hf⟩ := List.mem_flatMap.1 hf
    exact h.instrFindings (by simpa [contents, hr] using hv) hf

theorem endFindings_match {m : Method} {fs : List Finding} (hends : p.endFindings m = .ok fs)
    {f : Finding} (hf : f ∈ fs) : f.isMismatch = false := by
  unfold endFindings at hends
  split at hends
  · obtain rfl := Except.ok.inj hends
    rcases List.mem_append.1 hf with hf | hf
    · rw [(Finding.mem_when.1 hf).2]
      rfl
    · rw [List.mem_singleton.1 hf]
      rfl
  · obtain ⟨r, -, hends⟩ := bind_eq_ok hends
    obtain rfl := Except.ok.inj hends
    rcases List.mem_append.1 hf with hf | hf <;> rw [(Finding.mem_when.1 hf).2] <;> rfl

theorem Consistent.methodFindings (h : p.Consistent) {m : Method} {fs : List Finding}
    (hm : p.methodFindings m = .ok fs) {f : Finding} (hf : f ∈ fs) : f.isMismatch = false := by
  obtain ⟨ends, hends, hm⟩ := bind_eq_ok hm
  obtain rfl := Except.ok.inj hm
  rcases List.mem_append.1 hf with hf | hf
  · exact endFindings_match hends hf
  · obtain ⟨⟨b, r⟩, hlisted, hf⟩ := List.mem_flatMap.1 hf
    obtain ⟨c, -, hc⟩ := List.mem_filterMap.1 hlisted
    obtain ⟨s, hs, hcs⟩ := Option.map_eq_some_iff.1 hc
    obtain ⟨rfl, rfl⟩ := Prod.mk.inj hcs
    exact h.blockFindings hs hf

/-- What is found in some of several lists is found where one of them was made. -/
theorem exists_of_mem_mapM {α β ε : Type} {f : α → Except ε (List β)} :
    ∀ {l : List α} {xs : List (List β)}, l.mapM f = .ok xs → ∀ x ∈ xs.flatten,
      ∃ a ∈ l, ∃ ys, f a = .ok ys ∧ x ∈ ys
  | [], xs, h, x, hx => by
      obtain rfl := Except.ok.inj h
      cases hx
  | a :: l, xs, h, x, hx => by
      rw [List.mapM_cons] at h
      obtain ⟨ys, hys, h⟩ := bind_eq_ok h
      obtain ⟨zs, hzs, h⟩ := bind_eq_ok h
      obtain rfl := Except.ok.inj h
      rw [List.flatten_cons, List.mem_append] at hx
      rcases hx with hx | hx
      · exact ⟨a, List.mem_cons_self .., ys, hys, hx⟩
      · obtain ⟨b, hb, hrest⟩ := exists_of_mem_mapM hzs x hx
        exact ⟨b, List.mem_cons_of_mem _ hb, hrest⟩

/-- A verification does not find that tables of a consistent program disagree. -/
theorem Consistent.verify (h : p.Consistent) {strict : Bool} {report : Report}
    (hreport : p.verify strict = .ok report) {f : Finding} (hf : f ∈ report.findings) :
    f.isMismatch = false := by
  obtain ⟨xs, hxs, hreport⟩ := bind_eq_ok hreport
  obtain rfl := Except.ok.inj hreport
  obtain ⟨m, -, fs, hm, hf⟩ := exists_of_mem_mapM hxs f hf
  exact h.methodFindings hm hf

end Program

/-- Whatever is asked of a program, in whatever order, edges stand on both of
their ends, instructions stand where their blocks list them, once, and use-lists
name readers; a verification finds nothing to the contrary. -/
theorem afterEdits_consistent {edits : List Edit} {p : Program}
    (h : Program.afterEdits edits = .ok p) :
    p.Consistent ∧ ∀ strict report, p.verify strict = .ok report →
      ∀ f ∈ report.findings, f.isMismatch = false := by
  have hp := Program.foldlM_keeps (fun h hr => Edit.apply_consistent h hr) edits
    Program.consistent_empty h
  exact ⟨hp, fun strict report hreport f hf => hp.verify hreport hf⟩

/-- A phi that reads itself in a block with an edge to itself, which is taken
out; a removed instruction is put back, its value replaced by one that reads it,
and the block that is gone gets a new instruction. -/
def tangled : List Edit :=
  [.addMethod "main" .main, .newBlock ⟨0⟩ (.join true), .link ⟨0⟩ ⟨1⟩, .link ⟨1⟩ ⟨1⟩,
    .addPhi ⟨1⟩ "x" [(⟨0⟩, ⟨0⟩), (⟨1⟩, ⟨0⟩)] 1, .emit ⟨0⟩ (.const 4) 1,
    .emit ⟨0⟩ (.arith .add ⟨1⟩ ⟨1⟩) 2, .replace ⟨1⟩ ⟨2⟩, .removeInstr ⟨1⟩, .placeBefore ⟨2⟩ ⟨1⟩,
    .updatePhi ⟨0⟩ [(⟨1⟩, ⟨0⟩), (⟨0⟩, ⟨1⟩)], .updatePhi ⟨2⟩ [], .removeBlock ⟨1⟩,
    .emit ⟨1⟩ (.write ⟨0⟩) 3, .fold 1 1]

theorem tangled_consistent : ∃ p, Program.afterEdits tangled = .ok p
    ∧ p.contents ⟨1⟩ = [⟨3⟩] ∧ p.contents ⟨0⟩ = [⟨1⟩, ⟨2⟩] ∧ p.users ⟨2⟩ = [⟨2⟩]
    ∧ (p.Consistent ∧ ∀ strict report, p.verify strict = .ok report →
      ∀ f ∈ report.findings, f.isMismatch = false) := by
  have hrun : ((Program.afterEdits tangled).toOption.map fun p =>
      (p.contents ⟨1⟩, p.contents ⟨0⟩, p.users ⟨2⟩)) = some ([⟨3⟩], [⟨1⟩, ⟨2⟩], [⟨2⟩]) := by
    decide +kernel
  cases h : Program.afterEdits tangled with
  | error e => rw [h] at hrun; cases hrun
  | ok p =>
      rw [h] at hrun
      obtain ⟨h1, h2⟩ := Prod.mk.inj (Option.some.inj hrun)
      obtain ⟨h2, h3⟩ := Prod.mk.inj h2
      exact ⟨p, rfl, h1, h2, h3, afterEdits_consistent h⟩

end StructuredSsa
