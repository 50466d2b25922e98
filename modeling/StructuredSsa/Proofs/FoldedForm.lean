import StructuredSsa.Compile
import StructuredSsa.Proofs.Passes
import StructuredSsa.Proofs.Verified

/-!
# Folded programs keep their form

Folding moves definitions and takes edges away. `View.Formed` is what it leaves
of the form of a program: all the rules that verification checks, phis that read
what their variable holds at the sources of the edges, and definitions on every
walk to their uses. Edges only ever go, so walks only get fewer, and a constant
stands where the instruction stood that it is put for.

Unlike `View.Sound` this does not say that blocks can be reached, and it does
not order values by creation: neither survives folding.
-/

namespace StructuredSsa

/-! ## Fewer edges, fewer walks -/

theorem OnEveryWalk.mono {succs succs' : BlockId → List BlockId}
    (h : ∀ a b, b ∈ succs' a → b ∈ succs a) {start a b : BlockId}
    (hab : OnEveryWalk succs start a b) : OnEveryWalk succs' start a b :=
  fun l hl => hab l (hl.mono h)

theorem Op.targets_mapOperands (op : Op) (f : ValueId → ValueId) :
    (op.mapOperands f).targets = op.targets := by
  cases op <;> rfl

namespace View

variable {w : View}

/-! ## The form -/

/-- A phi reads along each edge what its variable holds where the edge starts. -/
def PhiAgrees (w : View) (b : BlockId) (v : ValueId) : Prop :=
  ∃ x os, w.op v = some (.phi x os) ∧ List.Forall₂ (fun q o =>
    o.1 = q ∧ ∃ st, w.after q = some st ∧ st.get? x = some o.2) (w.preds b) os

/-- What the block `b` reads is defined on every walk to it from `e`, and so is
what is recorded on leaving it. -/
structure Dominated (w : View) (e b : BlockId) : Prop where
  pointer : ∀ d, w.idom b = some d → d ≠ b ∧ OnEveryWalk w.succs e d b
  operand : ∀ done u rest v, w.body b = done ++ u :: rest → v ∈ w.operands u →
    v ∈ w.phis b ∨ v ∈ done ∨ ∃ d, w.owner v = some d ∧ d ≠ b ∧ OnEveryWalk w.succs e d b
  phi_operand : ∀ u x os q v, u ∈ w.phis b → w.op u = some (.phi x os) → (q, v) ∈ os →
    ∃ d, w.owner v = some d ∧ OnEveryWalk w.succs e d q
  binding : ∀ st x v, w.kind b ≠ some .exit → w.after b = some st → st.get? x = some v →
    ∃ d, w.owner v = some d ∧ OnEveryWalk w.succs e d b

/-- The form that folding keeps. -/
structure Formed (w : View) : Prop extends Tidy w where
  edge : ∀ a b, b ∈ w.succs a ↔ a ∈ w.preds b
  user_reads : ∀ v u, w.user v u → v ∈ w.operands u
  defined : ∀ u b v, w.owner u = some b → v ∈ w.operands u → w.owner v ≠ none
  entry_preds : ∀ m e, w.entry m = some e → w.preds e = []
  exit : ∀ m, w.sort m ≠ none → ∃ e, w.exit m = some e ∧ w.kind e ≠ none ∧ w.succs e = []
  exit_sole : ∀ m b, b ∈ w.owned m → w.kind b = some .exit → w.exit m = some b
  listed_kind : ∀ m b, b ∈ w.owned m → w.kind b ≠ none
  pointed : ∀ m b, b ∈ w.owned m → (w.entry m = some b ∧ w.IsEntry b) ∨ w.idom b ≠ none
  ended : ∀ m b, b ∈ w.owned m → w.Ends b
  sealed : ∀ m b, b ∈ w.owned m → w.after b ≠ none
  agrees : ∀ m b v, b ∈ w.owned m → v ∈ w.phis b → w.PhiAgrees b v
  dominated : ∀ m e b, w.entry m = some e → b ∈ w.owned m → w.Dominated e b

/-! ## Built programs have it -/

theorem phiAgrees_of_filled (h : w.Scoped) {b : BlockId} {v : ValueId} (hv : v ∈ w.phis b)
    (hfilled : w.Filled b v) : w.PhiAgrees b v := by
  obtain ⟨x, os, hop, hos⟩ := hfilled
  refine ⟨x, os, hop, ?_⟩
  rw [← hos, List.forall₂_map_left_iff, List.forall₂_same]
  rintro ⟨q, u⟩ hq
  exact ⟨rfl, (h.phi_operand v b x os q u hv hop hq).2⟩

/-- Pointers lead away from their block. -/
theorem Sound.idom_ne (h : w.Sound) {m : MethodId} {e b d : BlockId} (he : w.entry m = some e)
    (hb : w.home b = some m) (hsealed : w.after b ≠ none) (hd : w.idom b = some d) : d ≠ b := by
  rintro rfl
  have habove := h.scoping.rooted d m e hsealed hb he
  obtain ⟨l, hl⟩ := Chain.exists_of_above
    (h.scoping.entry_idom e (h.wired.isEntry_entry e m he).1) habove
  have hnodup := hl.nodup
  cases hl with
  | root hnone => simp [hnone] at hd
  | up hd' hl =>
      obtain rfl := Option.some.inj (hd.symm.trans hd')
      exact (List.nodup_cons.1 hnodup).1 (hl.mem_iff.2 (.refl d))

theorem dominated_of_closed (h : w.Sound) {m : MethodId} {x e b : BlockId} (hclosed : w.Closed m x)
    (he : w.entry m = some e) (hb : b ∈ w.owned m) : w.Dominated e b := by
  have hlive := hclosed.alive b hb
  refine ⟨fun d hd => ⟨h.idom_ne he (h.wired.owned_home b m hb) (hclosed.sealed b hb) hd,
      h.onEveryWalk he (.single hd)⟩, fun done u rest v hbody hv => ?_,
    fun u y os q v hu hop hq => ?_, fun st y v hkind hst hy => ?_⟩
  · have hu : u ∈ w.body b := by simp [hbody]
    obtain ⟨op, hop, hno⟩ := h.wired.not_phi_of_body u b hu
    have howner := (h.wired.listed u b).1 (List.mem_append_right _ hu)
    have hv : v ∈ op.operands := by simpa [operands, hop] using hv
    obtain ⟨d, hd, habove⟩ := h.scoping.operand_above u b v op howner hlive hop hno hv
    by_cases hdb : d = b
    · subst hdb
      rcases List.mem_append.1 ((h.wired.listed v d).2 hd) with hphi | hord
      · exact Or.inl hphi
      · -- In order of creation an operand stands before what reads it.
        have hlt := h.wired.operand_lt u v op hop hno hv
        have hsorted := h.wired.body_sorted d
        rw [hbody] at hord hsorted
        obtain ⟨-, hrest, -⟩ := List.pairwise_append.1 hsorted
        rcases List.mem_append.1 hord with hdone | hlater
        · exact Or.inr (Or.inl hdone)
        · rcases List.mem_cons.1 hlater with rfl | hlater
          · omega
          · have := (List.pairwise_cons.1 hrest).1 v hlater
            omega
    · exact Or.inr (Or.inr ⟨d, hd, hdb, h.onEveryWalk he habove⟩)
  · obtain ⟨-, d, hd, habove⟩ := h.phi_operand_above hu hop hq
    exact ⟨d, hd, h.onEveryWalk he habove⟩
  · obtain ⟨d, hd, habove⟩ := h.scoping.after_above b st y v hlive hst hkind hy
    exact ⟨d, hd, h.onEveryWalk he habove⟩

theorem formed_of_closed (h : w.Sound) (ht : w.Tables)
    (hclosed : ∀ m, w.sort m ≠ none → ∃ e, w.Closed m e) : w.Formed := by
  have hsort {m : MethodId} {b : BlockId} (hb : b ∈ w.owned m) : ∃ e, w.Closed m e :=
    hclosed m (h.wired.home_sort b m (h.wired.owned_home b m hb))
  refine
    { toTidy := tidy_of_closed h ht hclosed
      edge := h.wired.edge
      user_reads := h.wired.user_reads
      defined := fun u b v hu hv => ?_
      entry_preds := fun m e he => h.wired.entry_preds e (h.wired.isEntry_entry e m he).1
      exit := fun m hm => ?_
      exit_sole := fun m b hb hk => h.sole b m hk (h.wired.owned_home b m hb)
      listed_kind := fun m b hb => ?_
      pointed := fun m b hb => ?_
      ended := fun m b hb => ?_
      sealed := fun m b hb => ?_
      agrees := fun m b v hb hv => ?_
      dominated := fun m e b he hb => ?_ }
  · obtain ⟨-, hlive, -⟩ := h.live_of_owner ht hclosed hu
    obtain ⟨c, -, d, hd, -⟩ := h.operand_defined hu hlive hv
    simp [hd]
  · obtain ⟨e, he⟩ := hclosed m hm
    exact ⟨e, he.exit, by simp [he.kind], h.wired.exit_succs e he.kind⟩
  · exact ht.present_of_home (h.wired.owned_home b m hb)
  · obtain ⟨x, hx⟩ := hsort hb
    have hhome := h.wired.owned_home b m hb
    obtain ⟨e, he⟩ := Option.ne_none_iff_exists'.1 (mt ht.entry_none.1 (h.wired.home_sort b m hhome))
    cases h.scoping.rooted b m e (hx.sealed b hb) hhome he with
    | refl => exact Or.inl ⟨he, (h.wired.isEntry_entry b m he).1⟩
    | up hd _ => exact Or.inr (by simp [hd])
  · obtain ⟨x, hx⟩ := hsort hb
    exact h.ended b (hx.alive b hb) (hx.sealed b hb)
  · obtain ⟨x, hx⟩ := hsort hb
    exact hx.sealed b hb
  · obtain ⟨x, hx⟩ := hsort hb
    exact phiAgrees_of_filled h.scoping hv (hx.filled b hb v hv)
  · obtain ⟨x, hx⟩ := hsort hb
    exact dominated_of_closed h hx he hb

/-! ## A constant in the place of an instruction -/

section

variable {b : BlockId} {old : ValueId} {n : Int64}

section

variable (h : w.Formed) (ht : w.Tables)
include h ht

/-- What stood somewhere is defined there still, or the constant put for it is. -/
theorem Formed.foldInto_owner_rename (hold : old ∈ w.body b) {v : ValueId} {d : BlockId}
    (hv : w.owner v = some d) : (w.foldInto b old n).owner (rename old ⟨w.values⟩ v) = some d := by
  have hfresh := ht.ne_of_owner (h.owner_of_body hold)
  rw [foldInto_owner]
  by_cases hvo : v = old
  · rw [hvo, rename_old, if_neg hfresh.symm, if_pos rfl, ← hv, hvo, h.owner_of_body hold]
  · rw [rename_of_ne hvo, if_neg hvo, if_neg (ht.ne_of_owner hv), hv]

theorem Formed.foldInto_user_reads (v u : ValueId) (hu : (w.foldInto b old n).user v u) :
    v ∈ (w.foldInto b old n).operands u := by
  rw [foldInto_user] at hu
  obtain ⟨hvo, huser, -⟩ := hu
  have hne {x : ValueId} (hx : w.user x u) : u ≠ ⟨w.values⟩ := by
    rintro rfl
    have := h.user_reads x _ hx
    simp [operands, ht.fresh_op] at this
  have hadd {x : ValueId} (hx : w.user x u) : (w.add (.const n) none).op u = w.op u :=
    if_neg (hne hx)
  rcases huser with huser | ⟨rfl, huser⟩
  · have hreads := h.user_reads v u huser
    by_cases holdu : w.user old u
    · rw [operands, foldInto_op_user holdu, hadd huser]
      rw [operands] at hreads
      cases hop : w.op u with
      | none => simp [hop] at hreads
      | some op =>
          simp only [hop, Option.getD_some, Option.map_some, Op.substitute,
            Op.operands_mapOperands, List.mem_map] at hreads ⊢
          exact ⟨v, hreads, if_neg hvo⟩
    · rw [operands, foldInto_op_other holdu, hadd huser]
      exact hreads
  · have hreads := h.user_reads old u huser
    rw [operands, foldInto_op_user huser, hadd huser]
    rw [operands] at hreads
    cases hop : w.op u with
    | none => simp [hop] at hreads
    | some op =>
        simp only [hop, Option.getD_some, Option.map_some, Op.substitute,
          Op.operands_mapOperands, List.mem_map] at hreads ⊢
        exact ⟨old, hreads, if_pos rfl⟩

theorem Formed.foldInto_ends (hold : old ∈ w.body b) {o : Op} (hop : w.op old = some o)
    (hno : o.isTerminator = false) {c : BlockId} (hc : w.Ends c) : (w.foldInto b old n).Ends c := by
  obtain ⟨init, t, op, hbody, ht', hterm, hothers, htargets, hnodup⟩ := hc
  have htc : t ∈ w.body c := by simp [hbody]
  have hto : t ≠ old := by
    rintro rfl
    rw [Option.some.inj (hop.symm.trans ht'), hterm] at hno
    cases hno
  have howner := h.owner_of_body htc
  refine ⟨init.map (rename old ⟨w.values⟩), t, op.mapOperands (rename old ⟨w.values⟩), ?_, ?_, ?_,
    fun u hu => ?_, ?_, ?_⟩
  · rw [h.foldInto_body ht hold, hbody, List.map_append, List.map_singleton, rename_of_ne hto]
  · rw [h.foldInto_op howner (ht.ne_of_owner howner), ht', Option.map_some]
  · rwa [Op.isTerminator_mapOperands]
  · have hu' : u ∈ (w.foldInto b old n).body c := by
      rw [h.foldInto_body ht hold, hbody, List.map_append]
      exact List.mem_append_left _ hu
    rcases h.foldInto_at ht hold hu' with hconst | ⟨p, hup, hp, hp'⟩
    · exact ⟨_, hconst, rfl⟩
    · refine ⟨_, hp', ?_⟩
      rw [Op.isTerminator_mapOperands]
      -- A terminator among the first ones would have stood there before.
      obtain ⟨x, hx, rfl⟩ := List.mem_map.1 hu
      by_cases hxo : x = old
      · rw [hxo, rename_old] at hup
        exact absurd rfl (ht.ne_of_owner (h.owner_of_body hup))
      · rw [rename_of_ne hxo] at hp
        obtain ⟨p', hp'', hnot⟩ := hothers x hx
        rwa [Option.some.inj (hp.symm.trans hp'')]
  · rw [Op.targets_mapOperands]
    exact htargets
  · rwa [Op.targets_mapOperands]

theorem Formed.foldInto_agrees {c : BlockId} {v : ValueId} (hv : v ∈ w.phis c)
    (hagrees : w.PhiAgrees c v) : (w.foldInto b old n).PhiAgrees c v := by
  obtain ⟨x, os, hop, hos⟩ := hagrees
  have howner := h.owner_of_phis hv
  refine ⟨x, os.map fun o => (o.1, rename old ⟨w.values⟩ o.2), ?_, ?_⟩
  · rw [h.foldInto_op howner (ht.ne_of_owner howner), hop]
    rfl
  · show List.Forall₂ _ (w.preds c) _
    rw [List.forall₂_map_right_iff]
    refine hos.imp ?_
    rintro q ⟨q', u⟩ ⟨rfl, st, hst, hu⟩
    refine ⟨rfl, st.substitute old ⟨w.values⟩, ?_, ?_⟩
    · show (w.after q').map _ = _
      rw [hst, Option.map_some]
    · rw [Bindings.get?_substitute, hu]
      rfl

theorem Formed.foldInto_dominated (hold : old ∈ w.body b) {e c : BlockId} (hc : w.Dominated e c) :
    (w.foldInto b old n).Dominated e c := by
  refine ⟨hc.pointer, fun done u rest v hbody hv => ?_, fun u x os q v hu hop hq => ?_,
    fun st x v hkind hst hx => ?_⟩
  · rw [h.foldInto_body ht hold] at hbody
    obtain ⟨done', rest', hsplit, rfl, htail⟩ := List.map_eq_append_iff.1 hbody
    obtain ⟨u', rest'', rfl, rfl, rfl⟩ := List.map_eq_cons_iff.1 htail
    by_cases huo : u' = old
    · rw [huo, rename_old, operands, foldInto_fresh] at hv
      cases hv
    · have hu : u' ∈ w.body c := by simp [hsplit]
      have howner := h.owner_of_body hu
      rw [rename_of_ne huo, h.foldInto_operands howner (ht.ne_of_owner howner)] at hv
      obtain ⟨v', hv', rfl⟩ := List.mem_map.1 hv
      rw [h.foldInto_phis hold]
      rcases hc.operand done' u' rest'' v' hsplit hv' with hphi | hdone | ⟨d, hd, hne, hwalk⟩
      · left
        have hvo : v' ≠ old := by
          rintro rfl
          exact h.not_phis hold hphi
        rwa [rename_of_ne hvo]
      · exact Or.inr (Or.inl (List.mem_map_of_mem hdone))
      · exact Or.inr (Or.inr ⟨d, h.foldInto_owner_rename ht hold hd, hne, hwalk⟩)
  · rw [h.foldInto_phis hold] at hu
    obtain ⟨y, os', hop'⟩ := h.phi_of_phis u c hu
    have howner := h.owner_of_phis hu
    rw [h.foldInto_op howner (ht.ne_of_owner howner), hop'] at hop
    obtain ⟨rfl, rfl⟩ := Op.phi.inj (Option.some.inj hop)
    obtain ⟨⟨q', v'⟩, hq', heq⟩ := List.mem_map.1 hq
    obtain ⟨rfl, rfl⟩ := Prod.mk.inj heq
    obtain ⟨d, hd, hwalk⟩ := hc.phi_operand u y os' q' v' hu hop' hq'
    exact ⟨d, h.foldInto_owner_rename ht hold hd, hwalk⟩
  · obtain ⟨st', hst', rfl⟩ := Option.map_eq_some_iff.1 hst
    rw [Bindings.get?_substitute] at hx
    obtain ⟨v', hv', rfl⟩ := Option.map_eq_some_iff.1 hx
    obtain ⟨d, hd, hwalk⟩ := hc.binding st' x v' hkind hst' hv'
    exact ⟨d, h.foldInto_owner_rename ht hold hd, hwalk⟩

theorem Formed.foldInto (hold : old ∈ w.body b) {o : Op} (hop : w.op old = some o)
    (hno : o.isTerminator = false) : (w.foldInto b old n).Formed where
  toTidy := h.toTidy.foldInto ht hold
  edge := h.edge
  user_reads := h.foldInto_user_reads ht
  defined u c v hu hv := by
    obtain ⟨-, ⟨rfl, -⟩ | hu⟩ := foldInto_owner_cases hu
    · rw [operands, foldInto_fresh] at hv
      cases hv
    · rw [h.foldInto_operands hu (ht.ne_of_owner hu)] at hv
      obtain ⟨x, hx, rfl⟩ := List.mem_map.1 hv
      obtain ⟨d, hd⟩ := Option.ne_none_iff_exists'.1 (h.defined u c x hu hx)
      simp [h.foldInto_owner_rename ht hold hd]
  entry_preds := h.entry_preds
  exit := h.exit
  exit_sole := h.exit_sole
  listed_kind := h.listed_kind
  pointed := h.pointed
  ended m c hc := h.foldInto_ends ht hold hop hno (h.ended m c hc)
  sealed m c hc := by
    have := h.sealed m c hc
    show (w.after c).map _ ≠ none
    simpa using this
  agrees m c v hc hv := by
    rw [h.foldInto_phis hold] at hv
    exact h.foldInto_agrees ht hv (h.agrees m c v hc hv)
  dominated m e c he hc := h.foldInto_dominated ht hold (h.dominated m e c he hc)

end

end

/-! ## A branch that takes one way -/

section

variable {a b dropped taken : BlockId} {u v : ValueId}

theorem user_reads_becomeJump (h : ∀ x u, w.user x u → x ∈ w.operands u) (x u : ValueId)
    (hu : (w.becomeJump v taken).user x u) : x ∈ (w.becomeJump v taken).operands u := by
  obtain ⟨hu, hnot⟩ := hu
  have hreads := h x u hu
  rw [operands, becomeJump_op, if_neg]
  · exact hreads
  · rintro rfl
    exact hnot ⟨rfl, hreads⟩

theorem user_reads_dropOperand (h : ∀ x u, w.user x u → x ∈ w.operands u) (x u : ValueId)
    (hu : (w.dropOperand a v).user x u) : x ∈ (w.dropOperand a v).operands u := by
  unfold dropOperand at hu ⊢
  split at hu
  · next y os hop =>
      by_cases huv : u = v
      · subst huv
        rcases hu with ⟨hu, hnot⟩ | ⟨-, hx⟩
        · exact absurd ⟨rfl, h x u hu⟩ hnot
        · simpa [operands, setPhi, Op.operands] using hx
      · rcases hu with ⟨hu, -⟩ | ⟨rfl, -⟩
        · simpa [operands, setPhi, huv] using h x u hu
        · exact absurd rfl huv
  · exact h x u hu

theorem user_reads_dropOperands (a : BlockId) : ∀ (vs : List ValueId) {w : View},
    (∀ x u, w.user x u → x ∈ w.operands u) → ∀ x u,
      (vs.foldl (fun w v => w.dropOperand a v) w).user x u →
        x ∈ (vs.foldl (fun w v => w.dropOperand a v) w).operands u
  | [], _, h => h
  | _ :: vs, _, h => user_reads_dropOperands a vs (user_reads_dropOperand h)

theorem follow_edges (w : View) (b : BlockId) (v : ValueId) (taken dropped : BlockId) :
    (w.follow b v taken dropped).succs = (w.dropEdge b dropped).succs
      ∧ (w.follow b v taken dropped).preds = (w.dropEdge b dropped).preds := by
  obtain ⟨op, user, h⟩ := foldl_dropOperand_rest b ((w.becomeJump v taken).phis dropped)
    ((w.becomeJump v taken).dropEdge b dropped)
  rw [follow, unlink, h]
  exact ⟨rfl, rfl⟩

theorem follow_succs_subset (x y : BlockId) (hy : y ∈ (w.follow b v taken dropped).succs x) :
    y ∈ w.succs x := by
  rw [(w.follow_edges b v taken dropped).1] at hy
  change y ∈ (if x = b then (w.succs b).filter (· ≠ dropped) else w.succs x) at hy
  split at hy
  · next hx => exact hx ▸ (List.mem_filter.1 hy).1
  · exact hy

/-- What instructions of bodies do, other than the branch, stays. -/
theorem Tidy.follow_op_body (h : w.Tidy) {c : BlockId} (hu : u ∈ w.body c) (hne : u ≠ v) :
    (w.follow b v taken dropped).op u = w.op u := by
  rw [follow_op, if_neg (h.not_phis hu), becomeJump_op, if_neg hne]

/-- Phis lose what came along the edge, and nothing else changes them. -/
theorem Tidy.follow_op_phi (h : w.Tidy) (hv : v ∈ w.body b) {c : BlockId} (hu : u ∈ w.phis c) :
    (w.follow b v taken dropped).op u
      = if c = dropped then (w.op u).map (·.without b) else w.op u := by
  have hne : u ≠ v := by
    rintro rfl
    exact h.not_phis hv hu
  rw [follow_op, becomeJump_op, if_neg hne]
  by_cases hc : c = dropped
  · rw [if_pos hc, if_pos (hc ▸ hu)]
  · rw [if_neg hc, if_neg]
    intro hmem
    exact hc (Option.some.inj ((h.owner_of_phis hu).symm.trans (h.owner_of_phis hmem)))

theorem follow_operands_subset {x : ValueId} (hx : x ∈ (w.follow b v taken dropped).operands u) :
    x ∈ w.operands u := by
  rw [operands, follow_op] at hx
  by_cases huv : u = v
  · rw [becomeJump_op, if_pos huv] at hx
    split at hx <;> cases hx
  · rw [becomeJump_op, if_neg huv] at hx
    rw [operands]
    split at hx
    · cases hop : w.op u with
      | none => simp [hop] at hx
      | some o => exact operands_without (by simpa [hop] using hx)
    · exact hx

/-- The two ways of a branch that is decided. -/
theorem Decided.ways {c : ValueId} {t f : BlockId} (h : w.Decided v taken dropped)
    (hop : w.op v = some (.branch c t f)) (hne : t ≠ f) :
    taken ≠ dropped ∧ ∀ s, s ∈ [t, f] ↔ s = taken ∨ s = dropped := by
  obtain ⟨c', n, t', f', hop', -, hways⟩ := h.branch
  obtain ⟨rfl, rfl, rfl⟩ := Op.branch.inj (Option.some.inj (hop.symm.trans hop'))
  split at hways
  · obtain ⟨rfl, rfl⟩ := Prod.mk.inj hways
    exact ⟨hne.symm, fun s => by simp [or_comm]⟩
  · obtain ⟨rfl, rfl⟩ := Prod.mk.inj hways
    exact ⟨hne, fun s => by simp⟩

theorem Formed.follow_ends (h : w.Formed) (hv : v ∈ w.body b) (hd : w.Decided v taken dropped)
    {c : BlockId} (hc : w.Ends c) : (w.follow b v taken dropped).Ends c := by
  obtain ⟨cond, n, t, f, hop, -⟩ := hd.branch
  have hbody : (w.follow b v taken dropped).body = w.body := follow_body
  have hsuccs : (w.follow b v taken dropped).succs c
      = if c = b then (w.succs b).filter (· ≠ dropped) else w.succs c := by
    rw [(w.follow_edges b v taken dropped).1]
    rfl
  obtain ⟨init, last, op, hsplit, hlast, hterm, hothers, htargets, hnodup⟩ := hc
  have hmem {u : ValueId} (hu : u ∈ init ++ [last]) : u ∈ w.body c := hsplit ▸ hu
  have hlastc : last ∈ w.body c := hmem (by simp)
  by_cases hcb : c = b
  · -- The branch is the last of its block and keeps its place.
    subst hcb
    obtain rfl : last = v := h.sole c last v op _ hlastc hv hlast hop hterm rfl
    obtain rfl := Option.some.inj (hlast.symm.trans hop)
    obtain ⟨hne, hways⟩ := hd.ways hop (h.branch last c cond t f hv hop).1
    refine ⟨init, last, .jump taken, hbody ▸ hsplit, ?_, rfl, fun u hu => ?_, fun s => ?_,
      by simp [Op.targets]⟩
    · rw [follow_op, if_neg (h.not_phis hv), becomeJump_op, if_pos rfl]
    · have hul : u ≠ last := by
        rintro rfl
        have := h.nodup c
        rw [hsplit] at this
        exact List.disjoint_of_nodup_append this hu (by simp)
      rw [h.follow_op_body (hmem (List.mem_append_left _ hu)) hul]
      exact hothers u hu
    · rw [hsuccs, if_pos rfl, List.mem_filter, ← htargets]
      have := hways s
      simp only [Op.targets, List.mem_singleton, decide_eq_true_eq]
      rw [this]
      constructor
      · rintro rfl
        exact ⟨Or.inl rfl, hne⟩
      · rintro ⟨rfl | rfl, hs⟩
        · rfl
        · exact absurd rfl hs
  · have hother {u : ValueId} (hu : u ∈ init ++ [last]) :
        (w.follow b v taken dropped).op u = w.op u := by
      refine h.follow_op_body (hmem hu) ?_
      rintro rfl
      exact hcb (h.eq_of_body (hmem hu) hv)
    refine ⟨init, last, op, hbody ▸ hsplit, ?_, hterm, fun u hu => ?_, fun s => ?_, hnodup⟩
    · rw [hother (by simp), hlast]
    · rw [hother (List.mem_append_left _ hu)]
      exact hothers u hu
    · rw [hsuccs, if_neg hcb]
      exact htargets s

theorem forall₂_filter_fst {R : BlockId → BlockId × ValueId → Prop} {x : BlockId}
    {qs : List BlockId} {os : List (BlockId × ValueId)} (h : List.Forall₂ R qs os)
    (hfst : ∀ q o, R q o → o.1 = q) :
    List.Forall₂ R (qs.filter (· ≠ x)) (os.filter (·.1 ≠ x)) := by
  induction h with
  | nil => exact .nil
  | cons hqo _ ih =>
      have hsame := hfst _ _ hqo
      rw [List.filter_cons, List.filter_cons, hsame]
      split
      · exact .cons hqo ih
      · exact ih

theorem Formed.follow_agrees (h : w.Formed) (hv : v ∈ w.body b) {c : BlockId} (hu : u ∈ w.phis c)
    (hagrees : w.PhiAgrees c u) : (w.follow b v taken dropped).PhiAgrees c u := by
  obtain ⟨op, user, succs, preds, hrest⟩ := w.follow_rest b v taken dropped
  have hafter : (w.follow b v taken dropped).after = w.after := by rw [hrest]
  have hpreds : (w.follow b v taken dropped).preds c
      = if c = dropped then (w.preds dropped).filter (· ≠ b) else w.preds c := by
    rw [(w.follow_edges b v taken dropped).2]
    rfl
  obtain ⟨x, os, hop, hos⟩ := hagrees
  have hphi : (w.follow b v taken dropped).op u
      = if c = dropped then (w.op u).map (·.without b) else w.op u := h.follow_op_phi hv hu
  rw [hop] at hphi
  unfold PhiAgrees
  rw [hpreds, hafter, hphi]
  by_cases hc : c = dropped
  · rw [if_pos hc, if_pos hc]
    exact ⟨x, _, rfl, hc ▸ forall₂_filter_fst hos fun q o ho => ho.1⟩
  · rw [if_neg hc, if_neg hc]
    exact ⟨x, os, rfl, hos⟩

theorem Formed.follow_dominated (h : w.Formed) (hv : v ∈ w.body b) {e c : BlockId}
    (hc : w.Dominated e c) : (w.follow b v taken dropped).Dominated e c := by
  obtain ⟨op, user, succs, preds, hrest⟩ := w.follow_rest b v taken dropped
  have howner : (w.follow b v taken dropped).owner = w.owner := by rw [hrest]
  have hphis : (w.follow b v taken dropped).phis = w.phis := follow_phis
  have hbody : (w.follow b v taken dropped).body = w.body := follow_body
  have hidom : (w.follow b v taken dropped).idom = w.idom := by rw [hrest]
  have hafter : (w.follow b v taken dropped).after = w.after := by rw [hrest]
  have hkind : (w.follow b v taken dropped).kind = w.kind := by rw [hrest]
  have hwalk {x y : BlockId} (hxy : OnEveryWalk w.succs e x y) :
      OnEveryWalk (w.follow b v taken dropped).succs e x y := hxy.mono follow_succs_subset
  refine ⟨fun d hd => ?_, fun done u rest x hsplit hx => ?_, fun u y os q x hu hop hq => ?_,
    fun st y x hk hst hy => ?_⟩
  · obtain ⟨hne, hdc⟩ := hc.pointer d (hidom ▸ hd)
    exact ⟨hne, hwalk hdc⟩
  · rw [hphis, howner]
    rcases hc.operand done u rest x (hbody ▸ hsplit) (follow_operands_subset hx) with
      hphi | hdone | ⟨d, hd, hne, hdc⟩
    · exact Or.inl hphi
    · exact Or.inr (Or.inl hdone)
    · exact Or.inr (Or.inr ⟨d, hd, hne, hwalk hdc⟩)
  · rw [hphis] at hu
    rw [howner]
    obtain ⟨y', os', hop'⟩ := h.phi_of_phis u c hu
    have hmem : (q, x) ∈ os' := by
      rw [h.follow_op_phi hv hu, hop'] at hop
      split at hop
      · obtain ⟨rfl, rfl⟩ := Op.phi.inj (Option.some.inj hop)
        exact (List.mem_filter.1 hq).1
      · obtain ⟨rfl, rfl⟩ := Op.phi.inj (Option.some.inj hop)
        exact hq
    obtain ⟨d, hd, hdq⟩ := hc.phi_operand u y' os' q x hu hop' hmem
    exact ⟨d, hd, hwalk hdq⟩
  · rw [howner]
    obtain ⟨d, hd, hdc⟩ := hc.binding st y x (hkind ▸ hk) (hafter ▸ hst) hy
    exact ⟨d, hd, hwalk hdc⟩

theorem Formed.follow_edge (h : w.Formed) (x y : BlockId) :
    y ∈ (w.follow b v taken dropped).succs x ↔ x ∈ (w.follow b v taken dropped).preds y := by
  rw [(w.follow_edges b v taken dropped).1, (w.follow_edges b v taken dropped).2]
  have hedge := h.edge x y
  simp only [dropEdge]
  by_cases hx : x = b <;> by_cases hy : y = dropped
  · subst hx hy
    simp
  · subst hx
    simpa [hy] using hedge
  · subst hy
    simpa [hx] using hedge
  · simpa [hx, hy] using hedge

theorem Formed.follow (h : w.Formed) (hv : v ∈ w.body b) (hd : w.Decided v taken dropped) :
    (w.follow b v taken dropped).Formed := by
  obtain ⟨c, n, t, f, hop, -⟩ := hd.branch
  obtain ⟨op, user, succs, preds, hrest⟩ := w.follow_rest b v taken dropped
  have howner : (w.follow b v taken dropped).owner = w.owner := by rw [hrest]
  have hphis : (w.follow b v taken dropped).phis = w.phis := follow_phis
  have howned : (w.follow b v taken dropped).owned = w.owned := by rw [hrest]
  have hentry : (w.follow b v taken dropped).entry = w.entry := by rw [hrest]
  have hidom : (w.follow b v taken dropped).idom = w.idom := by rw [hrest]
  have hkind : (w.follow b v taken dropped).kind = w.kind := by rw [hrest]
  have hexit : (w.follow b v taken dropped).exit = w.exit := by rw [hrest]
  have hsort : (w.follow b v taken dropped).sort = w.sort := by rw [hrest]
  have hafter : (w.follow b v taken dropped).after = w.after := by rw [hrest]
  refine
    { toTidy := h.toTidy.follow hv hop rfl
      edge := h.follow_edge
      user_reads := user_reads_dropOperands b _ (user_reads_becomeJump h.user_reads)
      defined := fun u c x hu hx => ?_
      entry_preds := fun m e he => ?_
      exit := fun m hm => ?_
      exit_sole := by rw [howned, hkind, hexit]; exact h.exit_sole
      listed_kind := by rw [howned, hkind]; exact h.listed_kind
      pointed := by rw [howned, hidom, hentry]; simpa only [IsEntry, hkind] using h.pointed
      ended := fun m c hc => h.follow_ends hv hd (h.ended m c (howned ▸ hc))
      sealed := by rw [howned, hafter]; exact h.sealed
      agrees := fun m c u hc hu => ?_
      dominated := fun m e c he hc =>
        h.follow_dominated hv (h.dominated m e c (hentry ▸ he) (howned ▸ hc)) }
  · rw [howner] at hu ⊢
    exact h.defined u c x hu (follow_operands_subset hx)
  · rw [hentry] at he
    refine List.eq_nil_iff_forall_not_mem.2 fun q hq => ?_
    have := (h.edge q e).1 (follow_succs_subset q e ((h.follow_edge q e).2 hq))
    simp [h.entry_preds m e he] at this
  · rw [hsort] at hm
    obtain ⟨e, he, hpresent, hnone⟩ := h.exit m hm
    refine ⟨e, hexit ▸ he, hkind ▸ hpresent, List.eq_nil_iff_forall_not_mem.2 fun s hs => ?_⟩
    have := follow_succs_subset e s hs
    simp [hnone] at this
  · rw [hphis] at hu
    exact h.follow_agrees hv hu (h.agrees m c u (howned ▸ hc) hu)

end

end View

end StructuredSsa
