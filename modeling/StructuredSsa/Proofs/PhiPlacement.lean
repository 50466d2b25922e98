import StructuredSsa.Proofs.Dominators
import StructuredSsa.Proofs.Upheld

/-!
# Where phis stand

What is bound on entry to a block is told by what is bound where its
predecessors end. The head of a loop has a phi for every variable, since the body
is not known when it is entered. Any other block has one for just those on which
its predecessors disagree. The exit has at most one, for the value that a function
returns.

A block gets its phis when it gets its pointer, and after that the blocks that
lead there do not change what they are left with (`Binds`). Only the head of a loop
is led to again, and what is said of it does not mention its predecessors.
-/

namespace StructuredSsa

namespace View

/-! ## What is bound on entry to a block -/

/-- On entry to the block `b` the variable `x` is bound to `v`. -/
def Begins (w : View) (b : BlockId) (x : String) (v : ValueId) : Prop :=
  ∃ st, w.before b = some st ∧ st.get? x = some v

/-- Every block that leads to `b` is left with `x` bound to `v`. -/
def Agree (w : View) (b : BlockId) (x : String) (v : ValueId) : Prop :=
  ∀ q ∈ w.preds b, ∃ st, w.after q = some st ∧ st.get? x = some v

/-- What is bound to `x` on entry to `b`, and whether `b` has a phi for it. -/
structure Binds (w : View) (b : BlockId) (x : String) : Prop where
  head : w.kind b = some (.join true) → ∃ v, w.SolePhi b x v ∧ w.Begins b x v
  agreed : w.kind b ≠ some (.join true) → ∀ v, w.Agree b x v → w.NoPhi b x ∧ w.Begins b x v
  differ : w.kind b ≠ some (.join true) → (¬∃ v, w.Agree b x v) →
    ∃ v, w.SolePhi b x v ∧ w.Begins b x v

/-- The blocks of a method that were entered have the phis they should have. A
block without a pointer is not yet entered. -/
structure Placing (w : View) (m : MethodId) : Prop where
  distinct : (w.tracked m).Nodup
  binds : ∀ b, w.home b = some m → w.Live b → w.idom b ≠ none → w.kind b ≠ some .exit →
    ∀ x ∈ w.tracked m, w.Binds b x

section Binds

variable {w z : View} {m : MethodId} {b q : BlockId} {x : String} {v : ValueId} {st : Bindings}

theorem Begins.of_same (h : w.Begins b x v) (hbefore : z.before b = w.before b) :
    z.Begins b x v := by
  obtain ⟨st, hst, hx⟩ := h
  exact ⟨st, hbefore.trans hst, hx⟩

theorem agree_of_same (hpreds : z.preds b = w.preds b)
    (hafter : ∀ q ∈ w.preds b, z.after q = w.after q) : z.Agree b x v ↔ w.Agree b x v := by
  unfold Agree
  rw [hpreds]
  constructor
  · intro h q hq
    exact hafter q hq ▸ h q hq
  · intro h q hq
    exact (hafter q hq).symm ▸ h q hq

/-- Everything that is said of a block is read off the block, its phis and the ends of
its predecessors. -/
theorem Binds.of_same (h : w.Binds b x) (hkind : z.kind b = w.kind b)
    (hphis : z.phis b = w.phis b) (hlabels : ∀ u ∈ w.phis b, ∀ x, z.Labels u x ↔ w.Labels u x)
    (hbefore : z.before b = w.before b) (hpreds : z.preds b = w.preds b)
    (hafter : ∀ q ∈ w.preds b, z.after q = w.after q) : z.Binds b x := by
  have hphi : (∃ v, w.SolePhi b x v ∧ w.Begins b x v) → ∃ v, z.SolePhi b x v ∧ z.Begins b x v := by
    rintro ⟨v, hv, hbegins⟩
    exact ⟨v, hv.of_same hphis hlabels, hbegins.of_same hbefore⟩
  refine ⟨fun hk => ?_, fun hk v hv => ?_, fun hk hnot => ?_⟩
  · exact hphi (h.head (hkind ▸ hk))
  · obtain ⟨hnone, hbegins⟩ := h.agreed (hkind ▸ hk) v ((agree_of_same hpreds hafter).1 hv)
    exact ⟨hnone.of_same hphis hlabels, hbegins.of_same hbefore⟩
  · refine hphi (h.differ (hkind ▸ hk) fun ⟨v, hv⟩ => hnot ⟨v, ?_⟩)
    exact (agree_of_same hpreds hafter).2 hv

theorem Binds.keep {S : BlockId → Prop} (h : w.Binds b x) (k : Keeps w z S) (hw : w.Wired)
    (hkind : z.kind b = w.kind b) (hphis : z.phis b = w.phis b)
    (hbefore : z.before b = w.before b) (hpreds : z.preds b = w.preds b) : z.Binds b x := by
  refine h.of_same hkind hphis (fun u hu => k.labels hw hu) hbefore hpreds fun q hq => ?_
  have hsealed := hw.edge_sealed q b ((hw.edge q b).2 hq)
  obtain ⟨st, hst⟩ := Option.ne_none_iff_exists'.1 hsealed
  rw [hst]
  exact k.after q st hst

/-- A block that one other leads to, and that binds what that one is left with. -/
theorem binds_of_single (hkind : w.kind b ≠ some (.join true)) (hphis : w.phis b = [])
    (hpreds : w.preds b = [q]) (hafter : w.after q = some st) (hbefore : w.before b = some st)
    (hx : st.get? x = some v) : w.Binds b x := by
  have hagree {u : ValueId} : w.Agree b x u ↔ st.get? x = some u := by
    unfold Agree
    rw [hpreds]
    simp [hafter]
  have hnone : w.NoPhi b x := by
    intro u hu
    rw [hphis] at hu
    cases hu
  refine ⟨fun hk => absurd hk hkind, fun _ u hu => ⟨hnone, st, hbefore, hagree.1 hu⟩,
    fun _ hnot => ?_⟩
  exact absurd ⟨v, hagree.2 hx⟩ hnot

end Binds

/-! ## While a body is built -/

section Upheld

variable {w z : View} {c : Cursor} {m : MethodId} {e b t : BlockId}

theorem Led.binds (h : z.Led c b) (hlive : z.Live b) (hleft : z.after c.block = some c.bindings)
    {x : String} (hx : ∃ v, c.bindings.get? x = some v) : z.Binds b x := by
  have hreach : c.reachable = true := by
    by_contra hnot
    refine (hlive.resolve_left h.not_entry) ?_
    rw [h.preds, if_neg hnot]
  obtain ⟨v, hv⟩ := hx
  refine binds_of_single ?_ h.phis (h.preds.trans (if_pos hreach)) hleft h.before hv
  rw [h.plain]
  simp

/-- A new block that control gets to is a block of a branch or the head of a loop. -/
theorem Arrival.binds (h : Arrival w c z b) (hw : w.Placed c) (hdistinct : (w.tracked c.method).Nodup)
    (hlive : z.Live b) (hidom : z.idom b ≠ none) {x : String} (hx : x ∈ w.tracked c.method) :
    z.Binds b x := by
  cases h with
  | waiting kind after preds idom => exact absurd idom hidom
  | dead kind after left preds idom =>
      exact absurd hlive (not_live_of_kind kind nofun preds)
  | led left led => exact led.binds hlive left (hw.bound x hx)
  | @head st kind after left preds idom before placement =>
      have hreach : c.reachable = true := by
        by_contra hnot
        exact not_live_of_kind kind nofun (preds.trans (if_neg hnot)) hlive
      obtain ⟨v, hv, hbound⟩ := (placement hreach hdistinct).placed x hx List.not_mem_nil
      exact ⟨fun _ => ⟨v, hv, st, before, hbound⟩, fun hk => absurd kind hk,
        fun hk => absurd kind hk⟩

theorem Placing.since (h : w.Placing c.method) (hb : w.InBody c e) (htz : z.Tables)
    (k : Since w c z) (hnew : ∀ b, w.kind b = none → z.kind b ≠ none → Arrival w c z b) :
    z.Placing c.method := by
  have htracked := k.tracked c.method
  refine ⟨htracked ▸ h.distinct, fun b hhome hlive hidom hexit x hx => ?_⟩
  rw [htracked] at hx
  by_cases hold : w.kind b = none
  · exact (hnew b hold (htz.present_of_home hhome)).binds hb.toPlaced h.distinct hlive hidom hx
  rcases k.or_same hold with (rfl | hbe) | hsame
  · obtain ⟨kind, hkind⟩ := Option.ne_none_iff_exists'.1 hold
    have hsame : z.kind c.block = w.kind c.block := (k.kind _ _ hkind).trans hkind.symm
    have hbinds := h.binds _ hb.home ((k.start.live k.toKeeps hb.present).1 hlive)
      (k.start.idom ▸ hidom) hb.not_exit x hx
    exact hbinds.keep k.toKeeps hb.wired hsame k.start.phis k.start.before k.start.preds
  · obtain rfl := Option.some.inj (hb.waiting.exit.symm.trans hbe)
    exact absurd (k.kind _ _ hb.waiting.kind) hexit
  · have hbinds := h.binds b (hsame.home ▸ hhome) (hsame.live.1 hlive) (hsame.idom ▸ hidom)
      (hsame.kind ▸ hexit) x hx
    exact hbinds.keep k.toKeeps hb.wired hsame.kind hsame.phis hsame.before hsame.preds

/-- A jump: only the target is to be looked at. -/
theorem Placing.depart (h : w.Placing c.method) (hp : w.Placed c) (ht : w.Tables)
    (hne : t ≠ c.block)
    (htarget : (w.depart c t).Live t → (w.depart c t).idom t ≠ none → w.kind t ≠ some .exit →
      ∀ x ∈ w.tracked c.method, (w.depart c t).Binds t x) : (w.depart c t).Placing c.method := by
  have k := keeps_depart hp.toOpen ht t
  have htracked := k.tracked c.method
  refine ⟨htracked ▸ h.distinct, fun b hhome hlive hidom hexit x hx => ?_⟩
  rw [htracked] at hx
  rw [home_depart] at hhome
  rcases k.or_same (ht.present_of_home hhome) with (rfl | ⟨-, rfl⟩) | hsame
  · have hgrown := grown_depart (w := w) (c := c) hne
    have hbinds := h.binds _ hhome ((hgrown.live k hp.present).1 hlive) (hgrown.idom ▸ hidom)
      hp.not_exit x hx
    exact hbinds.keep k hp.wired (by rw [depart_kept.1]) hgrown.phis hgrown.before hgrown.preds
  · exact htarget hlive hidom (depart_kept.1 ▸ hexit) x hx
  · have hbinds := h.binds b hhome (hsame.live.1 hlive) (hsame.idom ▸ hidom)
      (hsame.kind ▸ hexit) x hx
    exact hbinds.keep k hp.wired hsame.kind hsame.phis hsame.before hsame.preds

/-- Where both parts of a conditional get behind it, it has phis for the variables on
which they disagree. -/
theorem Met.binds {join branch : BlockId} {left right : Departure} {d : Cursor}
    (hm : Met w m join branch left right z d) (k : Meeting w m join branch left right)
    (hdistinct : (w.tracked m).Nodup) (hlive : z.preds join ≠ []) {x : String}
    (hx : x ∈ w.tracked m) : z.Binds join x := by
  have hkind : z.kind join ≠ some (.join true) := by
    rw [hm.kinds, k.kind]
    simp
  obtain ⟨u, hu⟩ := k.departed_left.bound x hx
  obtain ⟨v, hv⟩ := k.departed_right.bound x hx
  have hleft := hm.keeps.after _ _ k.departed_left.after
  have hright := hm.keeps.after _ _ k.departed_right.after
  have hpreds := hm.preds.trans k.preds
  have hbefore := hm.before
  cases hl : left.reachable with
  | false =>
      obtain ⟨hphis, hbindings⟩ := hm.one (Or.inl hl)
      cases hr : right.reachable with
      | false => simp [hpreds, hl, hr] at hlive
      | true =>
          rw [hbindings, if_pos hr] at hbefore
          exact binds_of_single hkind hphis (by simp [hpreds, hl, hr]) hright hbefore hv
  | true =>
      cases hr : right.reachable with
      | false =>
          obtain ⟨hphis, hbindings⟩ := hm.one (Or.inr hr)
          rw [hbindings, if_neg (by simp [hr])] at hbefore
          exact binds_of_single hkind hphis (by simp [hpreds, hl, hr]) hleft hbefore hu
      | true =>
          have hplace := hm.placement hl hr hdistinct
          have hagree {a : ValueId} : z.Agree join x a ↔ u = a ∧ v = a := by
            unfold Agree
            simp [hpreds, hl, hr, hleft, hright, hu, hv]
          refine ⟨fun hk => absurd hk hkind, fun _ a ha => ?_, fun _ hnot => ?_⟩
          · obtain ⟨rfl, rfl⟩ := hagree.1 ha
            obtain ⟨hnone, hbound⟩ := hplace.kept x fun hdiffer =>
              absurd (hu.trans hv.symm) hdiffer.2
            exact ⟨hnone, d.bindings, hbefore, hbound.trans hu⟩
          · have huv : u ≠ v := by
              rintro rfl
              exact hnot ⟨u, hagree.2 ⟨rfl, rfl⟩⟩
            obtain ⟨a, ha, hbound⟩ := hplace.placed x ⟨hx, by simp [hu, hv, huv]⟩ List.not_mem_nil
            exact ⟨a, ha, d.bindings, hbefore, hbound⟩

theorem Placing.met {join branch : BlockId} {left right : Departure} {d : Cursor}
    (h : w.Placing m) (htz : z.Tables) (k : Meeting w m join branch left right)
    (hm : Met w m join branch left right z d) : z.Placing m := by
  have htracked := hm.keeps.tracked m
  refine ⟨htracked ▸ h.distinct, fun b hhome hlive hidom hexit x hx => ?_⟩
  rw [htracked] at hx
  rcases hm.keeps.or_same (hm.kinds ▸ htz.present_of_home hhome) with rfl | hsame
  · have hkind : z.kind b = some (.join false) := by rw [hm.kinds, k.kind]
    exact hm.binds k h.distinct (hlive.resolve_left (not_isEntry_of_kind hkind nofun)) hx
  · have hbinds := h.binds b (hsame.home ▸ hhome) (hsame.live.1 hlive) (hsame.idom ▸ hidom)
      (hsame.kind ▸ hexit) x hx
    exact hbinds.keep hm.keeps k.sound.wired hsame.kind hsame.phis hsame.before hsame.preds

theorem upheld_placing (e : BlockId) : Upheld e Placing where
  since hb _ htz _ k hnew h := h.since hb htz k hnew
  passed := by
    intro w c j hb ht hj hkind hafter hidom h
    refine h.depart hb.toPlaced ht hj.apart fun _ hne => absurd ?_ hne
    exact (entered_depart hb.toPlaced hj.apart).idom.trans hidom
  met _ htz k _ hm h := h.met htz k hm
  back := by
    intro w c head q reach hb ht hj hkind hafter hidom hpreds hreach habove h
    have hentered := entered_depart hb.toPlaced hj.apart
    have k := keeps_depart hb.toOpen ht head
    refine h.depart hb.toPlaced ht hj.apart fun hlive _ hexit x hx => ?_
    have hkind' : (w.depart c head).kind head = some (.join true) := k.kind _ _ hkind
    have hold : w.Live head := live_of_back hb.toPlaced hkind hpreds hreach hlive
    obtain ⟨v, hv, hbegins⟩ := (h.binds head hj.home hold (by simp [hidom]) hexit x hx).head hkind
    exact ⟨fun _ => ⟨v, hv.of_same hentered.phis fun u hu => k.labels hb.wired hu,
      hbegins.of_same hentered.before⟩, fun hk => absurd hkind' hk, fun hk => absurd hkind' hk⟩

/-! ## The ends of a body -/

theorem AtStart.placing {first : BlockId} (h : w.AtStart c first e)
    (hdistinct : (w.tracked c.method).Nodup)
    (hbound : ∀ x ∈ w.tracked c.method, ∃ v, c.bindings.get? x = some v) : w.Placing c.method := by
  have hentry := (h.sound.wired.isEntry_entry _ _ h.entry).1
  refine ⟨hdistinct, fun b hb hlive hidom hexit x hx => ?_⟩
  rcases h.blocks b hb with rfl | rfl | rfl
  · exact absurd (h.sound.scoping.entry_idom _ hentry) hidom
  · exact h.led.binds hlive h.sealed (hbound x hx)
  · exact absurd h.waiting.kind hexit

/-- Closing a body gives its phis operands, but leaves each the phi that it is. -/
theorem Placing.finished (h : w.Placing c.method) (hf : Build.Finished w c e z)
    (hb : w.InBody c e) (ht : w.Tables) : z.Placing c.method := by
  have htarget := hb.waiting.target hb.toOpen
  have hdepart : (w.depart c e).Sound := .depart hb.toPlaced ht htarget
  have k := keeps_depart hb.toOpen ht e
  have hkind : (w.depart c e).kind e = some .exit := k.kind _ _ hb.waiting.kind
  have hleft : (w.depart c e).Placing c.method :=
    h.depart hb.toPlaced ht htarget.apart fun _ _ hexit => absurd hb.waiting.kind hexit
  have hsettled := hf.settled
  refine ⟨?_, fun b hhome hlive hidom hexit x hx => ?_⟩
  · rw [hsettled.tracked]
    exact hleft.distinct
  · rw [hsettled.tracked] at hx
    rw [hsettled.kind] at hexit
    have hbe : b ≠ e := by
      rintro rfl
      exact hexit hkind
    have hlive' := hsettled.live.1 hlive
    have hbinds := hleft.binds b (hsettled.home ▸ hhome) hlive' (hsettled.idom b hbe ▸ hidom) hexit x hx
    refine hbinds.of_same (by rw [hsettled.kind]) (hsettled.contents b hlive' hbe).1
      (fun u hu y => ?_) (hsettled.before b hbe) (by rw [hsettled.preds]) fun q hq => ?_
    · obtain ⟨x', os, hop⟩ := hdepart.wired.phi_of_phis u b hu
      obtain ⟨os', hop'⟩ := hsettled.phi u x' os hop
      simp [Labels, hop, hop']
    · refine hsettled.after q ?_
      rintro rfl
      have hedge := (hdepart.wired.edge q b).2 hq
      rw [hdepart.wired.exit_succs q hkind] at hedge
      cases hedge

theorem Placing.untouched (h : w.Placing m) (hs : w.Sound) (k : Untouched w z m) :
    z.Placing m := by
  have htracked := k.tracked
  refine ⟨htracked ▸ h.distinct, fun b hhome hlive hidom hexit x hx => ?_⟩
  rw [htracked] at hx
  have hb := k.home b hhome
  have hsame := k.block b hb
  have hbinds := h.binds b hb (hsame.live.1 hlive) (hsame.idom ▸ hidom) (hsame.kind ▸ hexit) x hx
  refine hbinds.of_same hsame.kind hsame.phis (fun u hu y => ?_) hsame.before hsame.preds
    fun q hq => ?_
  · have howner := (hs.wired.listed u b).1 (List.mem_append_left _ hu)
    rw [Labels, Labels, (k.instr u b howner hb).1]
  · have hedge := (hs.wired.edge q b).2 hq
    exact (k.block q ((hs.wired.edge_home q b hedge).symm.trans hb)).after

/-! ## The exit -/

/-- The exit has at most one phi. It is for the value that a function returns, and it
is there if the ways to the exit return different ones. -/
structure ExitPhi (w : View) (m : MethodId) (e : BlockId) : Prop where
  short : (w.phis e).length ≤ 1
  label : ∀ v ∈ w.phis e, w.Labels v Bindings.returnName
  present : w.phis e ≠ [] ↔ w.sort m = some .function
    ∧ ¬∃ v, ∀ q ∈ w.preds e, w.returned q = some v

theorem Returning.exitPhi {vs : List ValueId} {v : ValueId} (h : Returning w z e vs v)
    (hpreds : z.preds e = w.preds e) (hafter : ∀ q ∈ w.preds e, z.after q = w.after q)
    (hsort : z.sort m = some .function) : z.ExitPhi m e := by
  have hways : (z.preds e).map z.returned = vs.map some := by
    rw [hpreds, ← h.ways]
    refine List.map_congr_left fun q hq => ?_
    rw [returned, returned, hafter q hq]
  -- what the ways return is what is listed in `vs`
  have hall (u : ValueId) : (∀ q ∈ z.preds e, z.returned q = some u) ↔ ∀ a ∈ vs, a = u := by
    have hmap : (∀ o ∈ (z.preds e).map z.returned, o = some u) ↔ ∀ o ∈ vs.map some, o = some u := by
      rw [hways]
    simpa using hmap
  have hagree : (∃ u, ∀ q ∈ z.preds e, z.returned q = some u) ↔ ∃ u, ∀ a ∈ vs, a = u :=
    exists_congr hall
  rcases h.value with ⟨hsame, hphis⟩ | ⟨hdiffer, hphis, hop⟩
  · refine ⟨by simp [hphis], by simp [hphis], ?_⟩
    simp only [hphis, ne_eq, not_true_eq_false, false_iff, not_and, not_not, hagree]
    exact fun _ => ⟨v, hsame⟩
  · refine ⟨by simp [hphis], ?_, ?_⟩
    · intro u hu
      rw [hphis, List.mem_singleton] at hu
      exact hu ▸ ⟨_, hop⟩
    · rw [hagree]
      simp [hphis, hsort, hdiffer]

theorem exitPhi_finished (hf : Build.Finished w c e z) (hb : w.InBody c e) (ht : w.Tables) :
    z.ExitPhi c.method e := by
  have htarget := hb.waiting.target hb.toOpen
  have hdepart : (w.depart c e).Sound := .depart hb.toPlaced ht htarget
  have k := keeps_depart hb.toOpen ht e
  have hkind : (w.depart c e).kind e = some .exit := k.kind _ _ hb.waiting.kind
  have hsettled := hf.settled
  have hsort : z.sort c.method = w.sort c.method := by rw [hsettled.sort, k.sort]
  by_cases hfunction : w.sort c.method = some .function
  · obtain ⟨vs, v, hreturning, -⟩ := hf.returns hfunction
    refine hreturning.exitPhi (by rw [hsettled.preds]) (fun q hq => hsettled.after q ?_)
      (hsort.trans hfunction)
    rintro rfl
    have hedge := (hdepart.wired.edge q q).2 hq
    rw [hdepart.wired.exit_succs q hkind] at hedge
    cases hedge
  · obtain ⟨hphis, -⟩ := hf.plain hfunction
    refine ⟨by simp [hphis], by simp [hphis], ?_⟩
    simp [hphis, hsort, hfunction]

theorem ExitPhi.untouched (h : w.ExitPhi m e) (hs : w.Sound) (k : Untouched w z m)
    (he : w.home e = some m) : z.ExitPhi m e := by
  have hsame := k.block e he
  have hreturned : ∀ q ∈ w.preds e, z.returned q = w.returned q := by
    intro q hq
    have hedge := (hs.wired.edge q e).2 hq
    rw [returned, returned, (k.block q ((hs.wired.edge_home q e hedge).symm.trans he)).after]
  have hways (v : ValueId) : (∀ q ∈ w.preds e, z.returned q = some v)
      ↔ ∀ q ∈ w.preds e, w.returned q = some v :=
    forall₂_congr fun q hq => by rw [hreturned q hq]
  refine ⟨hsame.phis ▸ h.short, fun v hv => ?_, ?_⟩
  · rw [hsame.phis] at hv
    have howner := (hs.wired.listed v e).1 (List.mem_append_left _ hv)
    rw [Labels, (k.instr v e howner he).1]
    exact h.label v hv
  · rw [hsame.phis, hsame.preds, k.sort, h.present]
    simp only [hways]

end Upheld

end View

namespace Build

open View

/-- The blocks of every method of a program have the phis they should have. -/
theorem IsMade.placing {z : View} {m : MethodId} (h : IsMade z m) :
    z.Placing m ∧ ∃ e, z.exit m = some e ∧ z.ExitPhi m e := by
  obtain ⟨b, s, t, u, r, e, hentry, rfl, hbody, huntouched⟩ := h
  have hopened := hbody.opened
  have htracked : t.program.view.tracked s.cursor.method
      = s.program.view.tracked s.cursor.method := by
    rw [hopened.view]
    exact (hentry.started s.program.view_tables).keeps.tracked _
  have hstart : t.program.view.Placing t.cursor.method := by
    rw [hopened.method]
    refine (hopened.atStart hentry).placing ?_ ?_ <;> rw [htracked]
    · exact hentry.distinct
    · exact hentry.bound
  have hend := hbody.laid.upheld (upheld_placing e) hstart
  have hsound := hbody.finished.sound
  have hdone := hend.finished hbody.finished hbody.ran.finish u.program.view_tables
  have hexit := exitPhi_finished hbody.finished hbody.ran.finish u.program.view_tables
  rw [hbody.method] at hdone hexit
  have hclosed := hbody.closed
  refine ⟨hdone.untouched hsound huntouched, e, huntouched.exit.trans hclosed.exit, ?_⟩
  exact hexit.untouched hsound huntouched (hsound.wired.owned_home _ _ hclosed.owned)

end Build

/-! ## Programs -/

/-- Whether an operation is a phi for `x`. -/
def Op.isPhiFor (x : String) : Op → Bool
  | .phi y _ => y == x
  | _ => false

namespace Program

/-- What `x` is bound to on entry to a block. -/
def boundBefore (p : Program) (b : BlockId) (x : String) : Option ValueId :=
  ((p.block? b).bind (·.before)).bind (·.get? x)

/-- What `x` is bound to where a block ends. -/
def boundAfter (p : Program) (b : BlockId) (x : String) : Option ValueId :=
  (p.leaving? b).bind (·.get? x)

/-- The phis of a block for `x`. -/
def phisFor (p : Program) (b : BlockId) (x : String) : List ValueId :=
  (p.phis b).filter fun v => (p.instr? v).any (·.op.isPhiFor x)

/-- The scalars whose values a method tracks: the globals, or those of its own. -/
def scalarsOf (p : Program) (m : Method) : List String :=
  match m.kind with
  | .main => p.globals.scalars
  | _ => m.symbols.scalars

/-- Which phis a block `b` of a method has, and what is bound on entry to it. -/
structure PhiBlock (p : Program) (m : Method) (b : BlockId) (r : Block) : Prop where
  /-- The head of a loop has a phi for every variable. -/
  head : r.kind = .join true → ∀ x ∈ p.scalarsOf m,
    ∃ v, p.phisFor b x = [v] ∧ p.boundBefore b x = some v
  /-- On entry to any other block a variable is bound to what all ways there agree on. -/
  agreed : r.kind ≠ .join true → r.kind ≠ .exit → ∀ x ∈ p.scalarsOf m, ∀ v,
    (∀ q ∈ r.preds, p.boundAfter q x = some v) →
      p.phisFor b x = [] ∧ p.boundBefore b x = some v
  /-- Where they do not agree there is a phi. -/
  differ : r.kind ≠ .join true → r.kind ≠ .exit → ∀ x ∈ p.scalarsOf m,
    (¬∃ v, ∀ q ∈ r.preds, p.boundAfter q x = some v) →
      ∃ v, p.phisFor b x = [v] ∧ p.boundBefore b x = some v
  /-- The exit of a function has a phi where different values are returned. -/
  exit : r.kind = .exit → r.phis.length ≤ 1 ∧ p.phisFor b Bindings.returnName = r.phis
    ∧ (r.phis ≠ [] ↔ m.kind = .function
      ∧ ¬∃ v, ∀ q ∈ r.preds, p.boundAfter q Bindings.returnName = some v)
  /-- A phi reads along each edge what its variable holds there. -/
  operands : ∀ u ∈ r.phis, ∀ i x os, p.instr? u = some i → i.op = .phi x os →
    os.map (fun o => (o.1, some o.2)) = r.preds.map fun q => (q, p.boundAfter q x)

variable {p : Program} {b : BlockId} {x : String} {v : ValueId}

theorem isPhiFor_iff_labels : ((p.instr? v).any (·.op.isPhiFor x)) = true ↔ p.view.Labels v x := by
  show _ ↔ ∃ os, (p.instr? v).map (·.op) = some (.phi x os)
  cases p.instr? v with
  | none => simp
  | some i =>
      cases hop : i.op <;> simp [hop, Op.isPhiFor]

theorem phisFor_of_noPhi (h : p.view.NoPhi b x) : p.phisFor b x = [] := by
  refine List.filter_eq_nil_iff.2 fun u hu hlabel => ?_
  exact h u hu (isPhiFor_iff_labels.1 hlabel)

theorem phisFor_of_solePhi (hw : p.view.Wired) (h : p.view.SolePhi b x v) : p.phisFor b x = [v] := by
  have hnodup : (p.phis b).Nodup := (hw.phis_sorted b).imp fun hlt heq => by
    rw [heq] at hlt
    omega
  have hfilter : p.phisFor b x = (p.phis b).filter (· == v) := by
    refine List.filter_congr fun u hu => ?_
    rw [Bool.eq_iff_iff, isPhiFor_iff_labels, beq_iff_eq]
    exact ⟨h.sole u hu, fun huv => huv ▸ h.label⟩
  rw [hfilter, List.filter_beq, List.count_eq_one_of_mem hnodup h.mem]
  rfl

theorem boundBefore_of_begins (h : p.view.Begins b x v) : p.boundBefore b x = some v := by
  obtain ⟨st, hst, hx⟩ := h
  show (p.view.before b).bind _ = some v
  rw [hst]
  exact hx

theorem boundAfter_iff {q : BlockId} :
    p.boundAfter q x = some v ↔ ∃ st, p.view.after q = some st ∧ st.get? x = some v :=
  Option.bind_eq_some_iff

/-- What is said of views, for the block `b` of a method. -/
theorem phiBlock_of_placing {id : MethodId} {m : Method} {r : Block} {e : BlockId}
    (hs : p.view.Sound) (hm : p.method? id = some m) (hr : p.block? b = some r)
    (hplacing : p.view.Placing id) (hexit : p.view.ExitPhi id e) (he : p.view.exit id = some e)
    (hhome : p.view.home b = some id) (hlive : p.view.Live b) (hidom : p.view.idom b ≠ none)
    (hfilled : ∀ v ∈ p.view.phis b, p.view.Filled b v) : p.PhiBlock m b r := by
  obtain ⟨hkind, -, hphis, -, hpreds, -⟩ := view_of_block hr
  obtain ⟨hsort, -, -, -, hsymbols⟩ := view_of_method hm
  have htracked : p.view.tracked id = p.scalarsOf m := by
    rw [View.tracked, View.scopeOf, hsort, hsymbols]
    unfold scalarsOf
    cases m.kind <;> rfl
  have hagree {y : String} {v : ValueId} :
      (∀ q ∈ r.preds, p.boundAfter q y = some v) ↔ p.view.Agree b y v := by
    unfold View.Agree
    rw [hpreds]
    exact forall₂_congr fun q _ => boundAfter_iff
  have hbinds (hk : r.kind ≠ .exit) : ∀ y ∈ p.scalarsOf m, p.view.Binds b y := by
    rw [← htracked]
    refine hplacing.binds b hhome hlive hidom ?_
    rw [hkind]
    simpa using hk
  have hphi {y : String} : (∃ v, p.view.SolePhi b y v ∧ p.view.Begins b y v) →
      ∃ v, p.phisFor b y = [v] ∧ p.boundBefore b y = some v := by
    rintro ⟨v, hv, hbegins⟩
    exact ⟨v, phisFor_of_solePhi hs.wired hv, boundBefore_of_begins hbegins⟩
  refine ⟨fun hk y hy => ?_, fun hk hk' y hy v hv => ?_, fun hk hk' y hy hnot => ?_, fun hk => ?_,
    fun u hu i y os hi hop => ?_⟩
  · exact hphi ((hbinds (by simp [hk]) y hy).head (by simp [hkind, hk]))
  · obtain ⟨hnone, hbegins⟩ := (hbinds hk' y hy).agreed (by simpa [hkind] using hk) v (hagree.1 hv)
    exact ⟨phisFor_of_noPhi hnone, boundBefore_of_begins hbegins⟩
  · apply hphi ((hbinds hk' y hy).differ (by simpa [hkind] using hk) _)
    rintro ⟨v, hv⟩
    exact hnot ⟨v, hagree.2 hv⟩
  · obtain rfl : e = b :=
      Option.some.inj (he.symm.trans (hs.sole b id (by rw [hkind, hk]) hhome))
    obtain ⟨hshort, hlabel, hpresent⟩ := hexit
    rw [hphis] at hshort hlabel hpresent
    refine ⟨hshort, ?_, ?_⟩
    · have hlisted : p.phis e = r.phis := hphis
      rw [phisFor, hlisted]
      exact List.filter_eq_self.2 fun v hv => isPhiFor_iff_labels.2 (hlabel v hv)
    · rw [hpresent, hsort, hpreds]
      exact and_congr_left' (by simp)
  · rw [← hphis] at hu
    obtain ⟨y', os', hop', hsources⟩ := hfilled u hu
    have hview : p.view.op u = some (.phi y os) := by
      show (p.instr? u).map (·.op) = _
      rw [hi, ← hop]
      rfl
    obtain ⟨rfl, rfl⟩ := Op.phi.inj (Option.some.inj (hview.symm.trans hop'))
    rw [← hpreds, ← hsources, List.map_map]
    refine List.map_congr_left fun o ho => ?_
    obtain ⟨-, st, hst, hy⟩ := hs.scoping.phi_operand u b y os o.1 o.2 hu hview ho
    show (o.1, some o.2) = (o.1, p.boundAfter o.1 y)
    rw [boundAfter_iff.2 ⟨st, hst, hy⟩]

end Program

/-- Whatever the tokens, the blocks of each method of a program that is built have
phis for just the variables that need one, and on entry to a block a variable is
bound to its phi or to what all blocks that lead there agree on. -/
theorem buildTokens_phiPlacement {tokens : List Token} {earlier : List Diagnostic} {built : Built}
    (h : buildTokens tokens earlier = .ok built) {id : MethodId} {m : Method}
    (hm : built.program.method? id = some m) {b : BlockId} (hb : b ∈ m.blocks)
    (hne : b ≠ m.entry) :
    ∃ r, built.program.block? b = some r ∧ built.program.PhiBlock m b r := by
  obtain ⟨hs, hmade, -⟩ := buildTokens_made h
  obtain ⟨hsort, hentry, -, howned, -⟩ := Program.view_of_method hm
  have hid := hmade id (by simp [hsort])
  obtain ⟨hplacing, e, he, hexit⟩ := hid.placing
  obtain ⟨x, hc⟩ := hid.closed
  rw [← howned] at hb
  obtain ⟨r, hr⟩ := Program.block_of_kind (Program.present_of_hung (hc.hung hs hentry) hb)
  have hidom : built.program.view.idom b ≠ none := by
    cases hc.rooted hs hentry hb with
    | refl => exact absurd rfl hne
    | up hd _ => simp [hd]
  exact ⟨r, hr, Program.phiBlock_of_placing hs hm hr hplacing hexit he
    (hs.wired.owned_home _ _ hb) (hc.alive b hb) hidom (hc.filled b hb)⟩

/-- A function with a conditional that assigns on both ways, and returns from inside a
loop and behind it. -/
def choosing : List Token :=
  [.keyword .main, .keyword .function, .ident "f", .punct .lparen, .ident "a", .punct .rparen,
    .punct .semicolon, .punct .lbrace, .keyword .if_, .ident "a", .punct .lt, .number 1,
    .keyword .then_, .keyword .let_, .ident "a", .punct .arrow, .number 2, .keyword .else_,
    .keyword .let_, .ident "a", .punct .arrow, .number 3, .keyword .fi, .punct .semicolon,
    .keyword .while_, .ident "a", .punct .lt, .number 9, .keyword .do_,
    .keyword .if_, .ident "a", .punct .eq, .number 4, .keyword .then_, .keyword .ret, .number 0,
    .keyword .fi, .punct .semicolon,
    .keyword .let_, .ident "a", .punct .arrow, .ident "a", .punct .plus, .number 1,
    .keyword .od, .punct .semicolon, .keyword .ret, .ident "a", .punct .rbrace, .punct .semicolon,
    .punct .lbrace, .keyword .call, .ident "OutputNewLine", .punct .rbrace, .punct .period,
    .eof].map fun k => ⟨k, k.text, .start⟩

theorem choosing_phiPlacement : ∃ built m, buildTokens choosing [] = .ok built
    ∧ built.program.method? ⟨1⟩ = some m
    ∧ m.blocks.map (fun b => (built.program.phis b).length) = [0, 0, 1, 0, 0, 1, 1, 0, 0, 0, 0, 0]
    ∧ ∀ b ∈ m.blocks, b ≠ m.entry →
      ∃ r, built.program.block? b = some r ∧ built.program.PhiBlock m b r := by
  have hrun : ((buildTokens choosing []).toOption.bind fun b =>
      (b.program.method? ⟨1⟩).map fun m => m.blocks.map fun c => (b.program.phis c).length)
      = some [0, 0, 1, 0, 0, 1, 1, 0, 0, 0, 0, 0] := by
    decide +kernel
  cases h : buildTokens choosing [] with
  | error e => rw [h] at hrun; cases hrun
  | ok built =>
      rw [h] at hrun
      obtain ⟨m, hm, hphis⟩ := Option.map_eq_some_iff.1 hrun
      exact ⟨built, m, rfl, hm, hphis, fun b hb hne => buildTokens_phiPlacement h hm hb hne⟩

end StructuredSsa
