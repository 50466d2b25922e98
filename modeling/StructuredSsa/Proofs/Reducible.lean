import Mathlib.Data.Finset.Max
import StructuredSsa.Proofs.Dominators
import StructuredSsa.Proofs.Upheld

/-!
# Every loop has one head and one way back

An edge leaves a block when the block is sealed. If it goes to a block that is
still open, the target is sealed later; the only other edges are those from the
end of the body of a loop to its head, which is above it. So the order in which
blocks are sealed ranks them: along every edge the rank goes up, unless the edge
is the way back of a loop (`Ranked`). The pointer of a block is sealed before it.

In a cycle some edge does not go up. Take the block of least rank in it: it is the
head of a loop, the edge to it in the cycle is the way back, and what is above the
target of an edge, but is not the target, is above its source; so going round
against the edges, that head is above every block of the cycle (`Ordered.cycle`).
-/

namespace StructuredSsa

/-! ## Walks that end where they can start again -/

section Cycles

variable {succs : BlockId → List BlockId} {a b : BlockId} {l : List BlockId} {P : BlockId → Prop}

theorem Walk.mem_first (h : Walk succs a b l) : a ∈ l := by
  induction h with
  | here => exact List.mem_singleton_self a
  | step _ _ ih => exact List.mem_cons_of_mem _ ih

/-- What goes against the edges of a walk gets from any of its blocks to its start. -/
theorem Walk.backward_start (h : Walk succs a b l)
    (hP : ∀ p ∈ l, ∀ q ∈ l, q ∈ succs p → P q → P p) {x : BlockId} (hx : x ∈ l) (hPx : P x) :
    P a := by
  induction h generalizing x with
  | here =>
      rw [List.mem_singleton] at hx
      exact hx ▸ hPx
  | step hw hs ih =>
      have hP' : ∀ p ∈ _, ∀ q ∈ _, q ∈ succs p → P q → P p := fun p hp q hq =>
        hP p (List.mem_cons_of_mem _ hp) q (List.mem_cons_of_mem _ hq)
      rcases List.mem_cons.1 hx with rfl | hx
      · have hlast := hw.mem_last
        exact ih hP' hlast (hP _ (List.mem_cons_of_mem _ hlast) _ (List.mem_cons_self ..) hs hPx)
      · exact ih hP' hx hPx

/-- What goes against the edges of a walk gets from its end to all of its blocks. -/
theorem Walk.backward_all (h : Walk succs a b l)
    (hP : ∀ p ∈ l, ∀ q ∈ l, q ∈ succs p → P q → P p) (hb : P b) : ∀ x ∈ l, P x := by
  induction h with
  | here => simpa using hb
  | step hw hs ih =>
      intro x hx
      rcases List.mem_cons.1 hx with rfl | hx
      · exact hb
      · refine ih (fun p hp q hq => hP p (List.mem_cons_of_mem _ hp) q (List.mem_cons_of_mem _ hq))
          ?_ x hx
        exact hP _ (List.mem_cons_of_mem _ hw.mem_last) _ (List.mem_cons_self ..) hs hb

/-- A block of a walk that can start again is entered from another block of it. -/
theorem Walk.entered_of_mem (h : Walk succs a b l) (hclosed : a ∈ succs b) {x : BlockId}
    (hx : x ∈ l) : ∃ p ∈ l, x ∈ succs p := by
  have hinner : x = a ∨ ∃ p ∈ l, x ∈ succs p := by
    clear hclosed
    induction h with
    | here => exact Or.inl (List.mem_singleton.1 hx)
    | step hw hs ih =>
        rcases List.mem_cons.1 hx with rfl | hx
        · exact Or.inr ⟨_, List.mem_cons_of_mem _ hw.mem_last, hs⟩
        · rcases ih hx with hstart | ⟨p, hp, hedge⟩
          · exact Or.inl hstart
          · exact Or.inr ⟨p, List.mem_cons_of_mem _ hp, hedge⟩
  rcases hinner with rfl | hinner
  · exact ⟨b, h.mem_last, hclosed⟩
  · exact hinner

end Cycles

namespace View

/-! ## The order in which blocks are sealed -/

/-- The head of a loop is entered from its pointer, and then, if at all, from one
block below it. -/
def OneWayBack (w : View) (b : BlockId) : Prop :=
  w.preds b = [] ∨ ∃ d, w.idom b = some d
    ∧ (w.preds b = [d] ∨ ∃ p, w.preds b = [d, p] ∧ Above w.idom b p)

/-- The rank of a block that is sealed is above that of its pointer, and above that
of every block that leads there but for the way back of a loop. -/
structure Ranked (w : View) (rank : BlockId → Nat) (b : BlockId) : Prop where
  pointer : ∀ d, w.idom b = some d → w.after d ≠ none
  below : w.after b ≠ none → ∀ d, w.idom b = some d → rank d < rank b
  edge : w.after b ≠ none → ∀ q ∈ w.preds b, rank q < rank b
    ∨ w.kind b = some (.join true) ∧ Above w.idom b q
  head : w.kind b = some (.join true) → w.OneWayBack b

/-- The blocks of a method are ranked, those that are sealed below `n`. -/
structure RankedBelow (w : View) (m : MethodId) (rank : BlockId → Nat) (n : Nat) : Prop where
  bound : ∀ b, w.home b = some m → w.after b ≠ none → rank b < n
  ranked : ∀ b, w.home b = some m → w.Ranked rank b

/-- The blocks of a method can be ranked. -/
def Ordered (w : View) (m : MethodId) : Prop := ∃ rank n, w.RankedBelow m rank n

/-- What a step that seals the block `c`, if any, does to a block `b` of the
method. -/
inductive Change (w z : View) (m : MethodId) (c b : BlockId) : Prop where
  | stays (home : w.home b = some m) (kind : z.kind b = w.kind b) (preds : z.preds b = w.preds b)
      (idom : z.idom b = w.idom b) (after : z.after b = w.after b)
  | seals (here : b = c) (kind : z.kind b = w.kind b) (preds : z.preds b = w.preds b)
      (idom : z.idom b = w.idom b
        ∨ z.kind b ≠ some (.join true) ∧ ∀ d, z.idom b = some d → w.home d = some m ∧ w.after d ≠ none)
  | waits (after : z.after b = none) (pointer : ∀ d, z.idom b = some d → z.after d ≠ none)
      (head : z.kind b = some (.join true) → z.OneWayBack b)
  | returned (home : w.home b = some m) (after : w.after b ≠ none) (idom : z.idom b = w.idom b)
      (preds : ∀ q ∈ z.preds b, q ∈ w.preds b ∨ z.kind b = some (.join true) ∧ Above z.idom b q)
      (kind : z.kind b = w.kind b) (head : z.OneWayBack b)

section Step

variable {w z : View} {m : MethodId} {b c : BlockId}

theorem OneWayBack.mono (h : w.OneWayBack b) (hpreds : z.preds b = w.preds b)
    (hidom : ∀ b d, w.idom b = some d → z.idom b = some d) : z.OneWayBack b := by
  unfold OneWayBack
  rw [hpreds]
  rcases h with h | ⟨d, hd, h | ⟨p, h, habove⟩⟩
  · exact Or.inl h
  · exact Or.inr ⟨d, hidom b d hd, Or.inl h⟩
  · exact Or.inr ⟨d, hidom b d hd, Or.inr ⟨p, h, habove.mono hidom⟩⟩

/-- A block that is sealed gets a rank above all others. -/
theorem Ordered.step (h : w.Ordered m) (hw : w.Wired) (hs : w.Scoped) (hc : w.home c = some m)
    (hopen : w.after c = none) (hidom : ∀ b d, w.idom b = some d → z.idom b = some d)
    (hafter : ∀ b, w.after b ≠ none → z.after b ≠ none)
    (hchange : ∀ b, z.home b = some m → Change w z m c b) : z.Ordered m := by
  obtain ⟨rank, n, hbound, hranked⟩ := h
  have hne {b : BlockId} (hb : w.after b ≠ none) : b ≠ c := by
    rintro rfl
    exact hb hopen
  have hkeep {b : BlockId} (hb : w.after b ≠ none) : (if b = c then n else rank b) = rank b :=
    if_neg (hne hb)
  have hsource {b q : BlockId} (hb : w.home b = some m) (hq : q ∈ w.preds b) :
      w.home q = some m ∧ w.after q ≠ none := by
    have hedge := (hw.edge q b).2 hq
    exact ⟨(hw.edge_home q b hedge).symm.trans hb, hw.edge_sealed q b hedge⟩
  have hparent {b d : BlockId} (hb : w.home b = some m) (hd : w.idom b = some d) :
      w.home d = some m := (hs.idom_home b d hd).trans hb
  refine ⟨fun b => if b = c then n else rank b, n + 1, fun b hb hsealed => ?_, fun b hb => ?_⟩
  · -- only `c` has a new rank, and the others were sealed before
    by_cases hbc : b = c
    · simp only [hbc, if_true]
      omega
    · simp only [hbc, if_false]
      have hlt : rank b < n := by
        cases hchange b hb with
        | stays home _ _ _ after => exact hbound b home (after ▸ hsealed)
        | seals here _ _ _ => exact absurd here hbc
        | waits after _ _ => exact absurd after hsealed
        | returned home after _ _ _ _ => exact hbound b home after
      omega
  · cases hchange b hb with
    | stays home kind preds idom after =>
        obtain ⟨hpointer, hbelow, hedge, hhead⟩ := hranked b home
        refine ⟨fun d hd => hafter d (hpointer d (idom ▸ hd)), fun hsealed d hd => ?_,
          fun hsealed q hq => ?_, fun hk => (hhead (kind ▸ hk)).mono preds hidom⟩
        · rw [after] at hsealed
          rw [idom] at hd
          rw [hkeep hsealed, hkeep (hpointer d hd)]
          exact hbelow hsealed d hd
        · rw [after] at hsealed
          rw [preds] at hq
          rw [hkeep hsealed, hkeep (hsource home hq).2, kind]
          exact (hedge hsealed q hq).imp id fun hback => ⟨hback.1, hback.2.mono hidom⟩
    | seals here kind preds idom =>
        subst here
        obtain ⟨hpointer, -, -, hhead⟩ := hranked b hc
        have hd : ∀ d, z.idom b = some d → w.home d = some m ∧ w.after d ≠ none := by
          rcases idom with idom | ⟨-, hd⟩
          · intro d hd
            rw [idom] at hd
            exact ⟨hparent hc hd, hpointer d hd⟩
          · exact hd
        refine ⟨fun d hz => hafter d (hd d hz).2, fun _ d hz => ?_, fun _ q hq => Or.inl ?_,
          fun hk => ?_⟩
        · obtain ⟨hhome, hsealed⟩ := hd d hz
          rw [hkeep hsealed, if_pos rfl]
          exact hbound d hhome hsealed
        · rw [preds] at hq
          obtain ⟨hhome, hsealed⟩ := hsource hc hq
          rw [hkeep hsealed, if_pos rfl]
          exact hbound q hhome hsealed
        · rcases idom with idom | ⟨hnot, -⟩
          · exact (hhead (kind ▸ hk)).mono preds hidom
          · exact absurd hk hnot
    | waits after pointer head =>
        exact ⟨pointer, fun hsealed => absurd after hsealed, fun hsealed => absurd after hsealed,
          head⟩
    | returned home after idom preds kind head =>
        obtain ⟨hpointer, hbelow, hedge, -⟩ := hranked b home
        refine ⟨fun d hd => hafter d (hpointer d (idom ▸ hd)), fun _ d hd => ?_,
          fun _ q hq => ?_, fun _ => head⟩
        · rw [idom] at hd
          rw [hkeep after, hkeep (hpointer d hd)]
          exact hbelow after d hd
        · rcases preds q hq with hq | hback
          · rw [hkeep after, hkeep (hsource home hq).2, kind]
            exact (hedge after q hq).imp id fun hback => ⟨hback.1, hback.2.mono hidom⟩
          · exact Or.inr hback

end Step

section Upheld

variable {w z : View} {m : MethodId} {c : Cursor} {e b t : BlockId}

/-- A new block waits, with a pointer to the block it was built behind. -/
theorem Arrival.change (h : Arrival w c z b) : Change w z m c.block b := by
  cases h with
  | waiting kind after preds idom =>
      refine .waits after (fun d hd => ?_) fun _ => Or.inl preds
      rw [idom] at hd
      cases hd
  | dead kind after left preds idom =>
      refine .waits after (fun d hd => ?_) fun _ => Or.inl preds
      rw [idom] at hd
      exact Option.some.inj hd ▸ left
  | led left led =>
      refine .waits led.after (fun d hd => ?_) fun hk => ?_
      · rw [led.idom] at hd
        rw [← Option.some.inj hd, left]
        simp
      · rw [led.plain] at hk
        cases hk
  | head kind after left preds idom before placement =>
      refine .waits after (fun d hd => ?_) fun _ => ?_
      · rw [idom] at hd
        exact Option.some.inj hd ▸ left
      · unfold OneWayBack
        rw [preds]
        split
        · exact Or.inr ⟨c.block, idom, Or.inl rfl⟩
        · exact Or.inl rfl

/-- The exit waits until the body is closed. -/
theorem ExitOpen.change {d : BlockId} (h : z.ExitOpen m e) : Change w z m d e := by
  refine .waits h.after (fun a ha => ?_) fun hk => ?_
  · rw [h.idom] at ha
    cases ha
  · rw [h.kind] at hk
    cases hk

/-- A jump: only the block that is left and the target are to be looked at. -/
theorem Ordered.depart (h : w.Ordered c.method) (hp : w.Placed c) (ht : w.Tables) (hne : t ≠ c.block)
    (hchange : Change w (w.depart c t) c.method c.block t) : (w.depart c t).Ordered c.method := by
  have k := keeps_depart hp.toOpen ht t
  refine h.step hp.wired hp.scoping hp.home hp.opened k.idom (fun b hb => k.after_of_ne hb)
    fun b hb => ?_
  rw [home_depart] at hb
  rcases k.or_same (ht.present_of_home hb) with (rfl | ⟨-, rfl⟩) | hsame
  · have hgrown := grown_depart (w := w) (c := c) hne
    exact .seals rfl (by rw [depart_kept.1]) hgrown.preds (Or.inl hgrown.idom)
  · exact hchange
  · exact .stays hb hsame.kind hsame.preds hsame.idom hsame.after

theorem Ordered.since (h : w.Ordered c.method) (hb : w.InBody c e) (htz : z.Tables)
    (k : Since w c z) (hnew : ∀ b, w.kind b = none → z.kind b ≠ none → Arrival w c z b) :
    z.Ordered c.method := by
  refine h.step hb.wired hb.scoping hb.home hb.opened k.idom (fun b hb => k.after_of_ne hb)
    fun b hhome => ?_
  by_cases hold : w.kind b = none
  · exact (hnew b hold (htz.present_of_home hhome)).change
  rcases k.or_same hold with (rfl | hbe) | hsame
  · obtain ⟨x, hx⟩ := Option.ne_none_iff_exists'.1 hold
    exact .seals rfl ((k.kind _ x hx).trans hx.symm) k.start.preds (Or.inl k.start.idom)
  · obtain rfl := Option.some.inj (hb.waiting.exit.symm.trans hbe)
    exact (hb.waiting.since hb.wired k hb.inside).change
  · exact .stays (hsame.home ▸ hhome) hsame.kind hsame.preds hsame.idom hsame.after

/-- A block that both parts of a conditional have left for is entered. -/
theorem Ordered.met {join branch : BlockId} {left right : Departure} {d : Cursor}
    (h : w.Ordered m) (htz : z.Tables) (k : Meeting w m join branch left right)
    (hbranch : w.after branch ≠ none) (hm : Met w m join branch left right z d) : z.Ordered m := by
  have hleft : w.home left.block = some m ∧ w.after left.block ≠ none :=
    ⟨k.departed_left.home, by simp [k.departed_left.after]⟩
  have hright : w.home right.block = some m ∧ w.after right.block ≠ none :=
    ⟨k.departed_right.home, by simp [k.departed_right.after]⟩
  have hpointer : ∀ a, z.idom join = some a → w.home a = some m ∧ w.after a ≠ none := by
    intro a ha
    cases hl : left.reachable with
    | false =>
        cases hr : right.reachable with
        | false =>
            rw [hm.idom_none hl hr] at ha
            exact Option.some.inj ha ▸ ⟨k.home, hbranch⟩
        | true =>
            rw [hm.idom_right hl hr] at ha
            exact Option.some.inj ha ▸ hright
    | true =>
        cases hr : right.reachable with
        | false =>
            rw [hm.idom_left hl hr] at ha
            exact Option.some.inj ha ▸ hleft
        | true =>
            rw [hm.idom_both hl hr] at ha
            exact Option.some.inj ha ▸ ⟨k.home, hbranch⟩
  refine h.step k.sound.wired k.sound.scoping k.blank.home k.blank.after hm.keeps.idom
    (fun b hb => hm.keeps.after_of_ne hb) fun b hhome => ?_
  rcases hm.keeps.or_same (hm.kinds ▸ htz.present_of_home hhome) with rfl | hsame
  · refine .seals rfl (by rw [hm.kinds]) hm.preds (Or.inr ⟨?_, hpointer⟩)
    rw [hm.kinds, k.kind]
    simp
  · exact .stays (hsame.home ▸ hhome) hsame.kind hsame.preds hsame.idom hsame.after

/-- Building a body goes on ranking its blocks. -/
theorem upheld_ordered (e : BlockId) : Upheld e Ordered where
  since hb _ htz _ k hnew h := h.since hb htz k hnew
  passed := by
    intro w c j hb ht hj hkind hafter hidom h
    have hentered := entered_depart hb.toPlaced hj.apart
    refine h.depart hb.toPlaced ht hj.apart (.waits (hentered.after.trans hafter) (fun d hd => ?_)
      fun hk => ?_)
    · rw [hentered.idom, hidom] at hd
      cases hd
    · rw [depart_kept.1, hkind] at hk
      cases hk
  met _ htz k hbranch hm h := h.met htz k hbranch hm
  back := by
    intro w c head q reach hb ht hj hkind hafter hidom hpreds hreach habove h
    have k := keeps_depart hb.toOpen ht head
    have hentered := entered_depart hb.toPlaced hj.apart
    have hback : (w.depart c head).kind head = some (.join true)
        ∧ Above (w.depart c head).idom head c.block := ⟨k.kind _ _ hkind, habove.mono k.idom⟩
    refine h.depart hb.toPlaced ht hj.apart (.returned hj.home hafter hentered.idom (fun p hp => ?_)
      (by rw [depart_kept.1]) ?_)
    · rw [preds_depart hb.toPlaced] at hp
      split at hp
      · rcases List.mem_append.1 hp with hp | hp
        · exact Or.inl hp
        · exact Or.inr (List.mem_singleton.1 hp ▸ hback)
      · exact Or.inl hp
    · unfold OneWayBack
      rw [preds_depart hb.toPlaced, hpreds]
      by_cases hc : c.reachable = true
      · rw [if_pos hc, if_pos (hreach hc)]
        exact Or.inr ⟨q, k.idom _ _ hidom, Or.inr ⟨c.block, rfl, hback.2⟩⟩
      · rw [if_neg hc]
        split
        · exact Or.inr ⟨q, k.idom _ _ hidom, Or.inl rfl⟩
        · exact Or.inl rfl

/-! ## The ends of a body -/

/-- At its start a body has one block that is sealed, the entry. -/
theorem AtStart.ordered {first : BlockId} (h : w.AtStart c first e) : w.Ordered c.method := by
  have hentry := (h.sound.wired.isEntry_entry _ _ h.entry).1
  have hnone : w.idom c.block = none := h.sound.scoping.entry_idom _ hentry
  have hpreds : w.preds c.block = [] := h.sound.wired.entry_preds _ hentry
  obtain ⟨vs, hvs⟩ := hentry
  refine ⟨fun _ => 0, 1, fun _ _ _ => Nat.zero_lt_one, fun b hb => ?_⟩
  rcases h.blocks b hb with rfl | rfl | rfl
  · refine ⟨fun d hd => ?_, fun _ d hd => ?_, fun _ q hq => ?_, fun hk => ?_⟩
    · rw [hnone] at hd
      cases hd
    · rw [hnone] at hd
      cases hd
    · rw [hpreds] at hq
      cases hq
    · rw [hvs] at hk
      cases hk
  · refine ⟨fun d hd => ?_, fun hsealed => absurd h.led.after hsealed,
      fun hsealed => absurd h.led.after hsealed, fun hk => ?_⟩
    · rw [h.led.idom] at hd
      rw [← Option.some.inj hd, h.sealed]
      simp
    · rw [h.led.plain] at hk
      cases hk
  · refine ⟨fun d hd => ?_, fun hsealed => absurd h.waiting.after hsealed,
      fun hsealed => absurd h.waiting.after hsealed, fun hk => ?_⟩
    · rw [h.waiting.idom] at hd
      cases hd
    · rw [h.waiting.kind] at hk
      cases hk

/-- Closing a body seals the exit, behind all blocks that lead there and behind its
pointer. -/
theorem Ordered.finished (ho : w.Ordered c.method) (h : Build.Finished w c e z)
    (hb : w.InBody c e) (ht : w.Tables) : z.Ordered c.method := by
  have htarget := hb.waiting.target hb.toOpen
  have hdepart : (w.depart c e).Sound := .depart hb.toPlaced ht htarget
  have k := keeps_depart hb.toOpen ht e
  have hentered := entered_depart hb.toPlaced htarget.apart
  have hkind : (w.depart c e).kind e = some .exit := k.kind _ _ hb.waiting.kind
  have hafter : (w.depart c e).after e = none := hentered.after.trans hb.waiting.after
  have hidom : (w.depart c e).idom e = none := hentered.idom.trans hb.waiting.idom
  have hleft : (w.depart c e).Ordered c.method := by
    refine ho.depart hb.toPlaced ht htarget.apart (.waits hafter (fun d hd => ?_) fun hk => ?_)
    · rw [hidom] at hd
      cases hd
    · rw [hkind] at hk
      cases hk
  have hsettled := h.settled
  obtain ⟨a, ha⟩ : ∃ a, z.entry c.method = some a := by
    rw [hsettled.entry, k.entry]
    exact Option.ne_none_iff_exists'.1 (mt ht.entry_none.1 hb.has_method)
  have hhome : z.home e = some c.method := h.sound.wired.owned_home _ _ h.closed.owned
  -- the pointer of the exit is a block of the method that was sealed before
  have hpointer : ∀ d, z.idom e = some d →
      (w.depart c e).home d = some c.method ∧ (w.depart c e).after d ≠ none := by
    intro d hd
    have hdm := h.closed.owned_above h.sound ha h.closed.owned (.single hd)
    have hde : d ≠ e := by
      rintro rfl
      obtain ⟨l, hl⟩ := h.closed.chain h.sound ha h.closed.owned
      exact hl.not_above_parent hd (.refl _)
    rw [← hsettled.home, ← hsettled.after d hde]
    exact ⟨h.sound.wired.owned_home _ _ hdm, h.closed.sealed d hdm⟩
  refine hleft.step hdepart.wired hdepart.scoping (hsettled.home ▸ hhome) hafter (fun b d hd => ?_)
    (fun b hb => ?_) fun b hb => ?_
  · rw [hsettled.idom b, hd]
    rintro rfl
    rw [hidom] at hd
    cases hd
  · rw [hsettled.after b]
    · exact hb
    · rintro rfl
      exact hb hafter
  · by_cases hbe : b = e
    · subst hbe
      refine .seals rfl (by rw [hsettled.kind]) (by rw [hsettled.preds]) (Or.inr ⟨?_, hpointer⟩)
      rw [hsettled.kind, hkind]
      simp
    · exact .stays (hsettled.home ▸ hb) (by rw [hsettled.kind]) (by rw [hsettled.preds])
        (hsettled.idom b hbe) (hsettled.after b hbe)

theorem Ordered.untouched (h : w.Ordered m) (hs : w.Sound) (k : Untouched w z m) :
    z.Ordered m := by
  obtain ⟨rank, n, hbound, hranked⟩ := h
  have hparent {b d : BlockId} (hb : w.home b = some m) (hd : w.idom b = some d) :
      w.home d = some m := (hs.scoping.idom_home b d hd).trans hb
  refine ⟨rank, n, fun b hb hsealed => ?_, fun b hb => ?_⟩
  · have hb' := k.home b hb
    exact hbound b hb' ((k.block b hb').after ▸ hsealed)
  · have hb' := k.home b hb
    have hsame := k.block b hb'
    have habove {q : BlockId} (hq : q ∈ w.preds b) (h : Above w.idom b q) : Above z.idom b q :=
      k.above hs.scoping ((hs.wired.edge_home _ _ ((hs.wired.edge q b).2 hq)).symm.trans hb') h
    obtain ⟨hpointer, hbelow, hedge, hhead⟩ := hranked b hb'
    refine ⟨fun d hd => ?_, fun hsealed d hd => ?_, fun hsealed q hq => ?_, fun hk => ?_⟩
    · rw [hsame.idom] at hd
      rw [(k.block d (hparent hb' hd)).after]
      exact hpointer d hd
    · exact hbelow (hsame.after ▸ hsealed) d (hsame.idom ▸ hd)
    · rw [hsame.preds] at hq
      rw [hsame.kind]
      exact (hedge (hsame.after ▸ hsealed) q hq).imp id fun hback => ⟨hback.1, habove hq hback.2⟩
    · unfold OneWayBack
      rw [hsame.preds, hsame.idom]
      rcases hhead (hsame.kind ▸ hk) with hnil | ⟨d, hd, hone | ⟨p, htwo, hp⟩⟩
      · exact Or.inl hnil
      · exact Or.inr ⟨d, hd, Or.inl hone⟩
      · exact Or.inr ⟨d, hd, Or.inr ⟨p, htwo, habove (by simp [htwo]) hp⟩⟩

end Upheld

/-! ## Finished methods -/

section Finished

variable {w : View} {m : MethodId} {a b e h p x : BlockId} {l : List BlockId}

/-- What goes round in a method stays in it. -/
theorem Sound.owned_of_cycle (hs : w.Sound) (ha : a ∈ w.owned m)
    (hwalk : Walk w.succs a b l) (hback : a ∈ w.succs b) : ∀ y ∈ l, y ∈ w.owned m := by
  have hhome : ∀ y ∈ l, w.home y = some m := by
    clear hback
    induction hwalk with
    | here =>
        intro y hy
        rw [List.mem_singleton.1 hy]
        exact hs.wired.owned_home a m ha
    | step hw hedge ih =>
        intro y hy
        rcases List.mem_cons.1 hy with rfl | hy
        · exact (hs.wired.edge_home _ _ hedge).trans (ih _ hw.mem_last)
        · exact ih y hy
  intro y hy
  obtain ⟨q, -, hedge⟩ := hwalk.entered_of_mem hback hy
  have hq := (hs.wired.edge q y).1 hedge
  exact hs.wired.live_owned y m (Or.inr (List.ne_nil_of_mem hq)) (hhome y hy)

/-- A cycle goes through the head of a loop that is above all of it. -/
theorem Ordered.cycle (ho : w.Ordered m) (hc : w.Closed m x) (hs : w.Sound) (ha : a ∈ w.owned m)
    (hwalk : Walk w.succs a b l) (hback : a ∈ w.succs b) :
    ∃ h ∈ l, w.kind h = some (.join true) ∧ ∀ y ∈ l, Above w.idom h y := by
  obtain ⟨rank, n, -, hranked⟩ := ho
  have howned := hs.owned_of_cycle ha hwalk hback
  obtain ⟨h, hh, hmin⟩ := l.toFinset.exists_min_image rank ⟨b, by simp [hwalk.mem_last]⟩
  simp only [List.mem_toFinset] at hh hmin
  -- an edge to the block of least rank is the way back of its loop
  have hleast : ∀ q ∈ l, h ∈ w.succs q → w.kind h = some (.join true) ∧ Above w.idom h q := by
    intro q hq hedge
    have hhm := howned h hh
    rcases (hranked h (hs.wired.owned_home _ _ hhm)).edge (hc.sealed h hhm) q
      ((hs.wired.edge q h).1 hedge) with hlt | hway
    · have := hmin q hq
      omega
    · exact hway
  have hagainst : ∀ q ∈ l, ∀ y ∈ l, y ∈ w.succs q → Above w.idom h y → Above w.idom h q := by
    intro q hq y hy hedge habove
    cases habove with
    | refl => exact (hleast q hq hedge).2
    | up hd hhd =>
        exact hhd.trans (hs.scoping.idom_above _ _ q hd ((hs.wired.edge q y).1 hedge))
  obtain ⟨q, hq, hedge⟩ := hwalk.entered_of_mem hback hh
  have hstart : Above w.idom h a := hwalk.backward_start hagainst hh (.refl h)
  have hend : Above w.idom h b := hagainst b hwalk.mem_last a hwalk.mem_first hback hstart
  exact ⟨h, hh, (hleast q hq hedge).1, hwalk.backward_all hagainst hend⟩

/-- What is above a block has no higher rank. -/
theorem Ranked.le_of_above {rank : BlockId → Nat} (hc : w.Closed m x) (hs : w.Sound)
    (he : w.entry m = some e) (hranked : ∀ b, w.home b = some m → w.Ranked rank b)
    (hb : b ∈ w.owned m) (h : Above w.idom a b) : rank a ≤ rank b := by
  induction h with
  | refl => exact Nat.le_refl _
  | up hd _ ih =>
      have hlt := (hranked _ (hs.wired.owned_home _ _ hb)).below (hc.sealed _ hb) _ hd
      have hle := ih (hc.owned_above hs he hb (.single hd))
      omega

/-- An edge to a block above its source is the way back of a loop. -/
theorem Ordered.wayBack (ho : w.Ordered m) (hc : w.Closed m x) (hs : w.Sound)
    (he : w.entry m = some e) (hp : p ∈ w.owned m) (hedge : h ∈ w.succs p)
    (habove : Above w.idom h p) :
    w.kind h = some (.join true) ∧ ∃ d, w.idom h = some d ∧ w.preds h = [d, p]
      ∧ ¬Above w.idom h d := by
  obtain ⟨rank, n, -, hranked⟩ := ho
  have hh : h ∈ w.owned m := hc.owned_above hs he hp habove
  have hpred := (hs.wired.edge p h).1 hedge
  have hrank := hranked h (hs.wired.owned_home _ _ hh)
  have hkind : w.kind h = some (.join true) := by
    rcases hrank.edge (hc.sealed h hh) p hpred with hlt | hway
    · have hle := Ranked.le_of_above hc hs he hranked hp habove
      omega
    · exact hway.1
  refine ⟨hkind, ?_⟩
  rcases hrank.head hkind with hnil | ⟨d, hd, hways⟩
  · rw [hnil] at hpred
    cases hpred
  · obtain ⟨l, hl⟩ := hc.chain hs he (hc.owned_above hs he hh (.single hd))
    have hnot := hl.not_above_parent hd
    -- the block is not above its pointer, so `p` is not the pointer
    have hpd : p ≠ d := by
      rintro rfl
      exact hnot habove
    rcases hways with hone | ⟨q, htwo, -⟩
    · rw [hone, List.mem_singleton] at hpred
      exact absurd hpred hpd
    · rw [htwo] at hpred
      simp only [List.mem_cons, List.not_mem_nil, or_false] at hpred
      exact ⟨d, hd, (hpred.resolve_left hpd) ▸ htwo, hnot⟩

end Finished

end View

namespace Build

open View

/-- The blocks of every method of a program can be ranked. -/
theorem IsMade.ordered {z : View} {m : MethodId} (h : IsMade z m) : z.Ordered m := by
  obtain ⟨b, s, t, u, r, e, hentry, rfl, hbody, huntouched⟩ := h
  have hstart : t.program.view.Ordered t.cursor.method := by
    rw [hbody.opened.method]
    exact (hbody.opened.atStart hentry).ordered
  have hend := hbody.laid.upheld (upheld_ordered e) hstart
  have hdone := hend.finished hbody.finished hbody.ran.finish u.program.view_tables
  rw [hbody.method] at hdone
  exact hdone.untouched hbody.finished.sound huntouched

end Build

/-- Whatever the tokens, the flow of control in each method of a program that is
built is reducible, with one way back for each loop. A walk that can start again
goes through the head of a loop that lies on every walk from the entry to any of
its blocks. An edge to a block that lies on every walk to its source is the way
back of a loop: the last of the two edges into its head, the first of which comes
from the dominator of the head. -/
theorem buildTokens_reducible {tokens : List Token} {earlier : List Diagnostic} {built : Built}
    (h : buildTokens tokens earlier = .ok built) {id : MethodId} {m : Method}
    (hm : built.program.method? id = some m) :
    (∀ a ∈ m.blocks, ∀ b l, Walk built.program.succs a b l → a ∈ built.program.succs b →
        ∃ head ∈ l, (∃ r, built.program.block? head = some r ∧ r.kind = .join true)
          ∧ ∀ x ∈ l, OnEveryWalk built.program.succs m.entry head x)
      ∧ ∀ p ∈ m.blocks, ∀ head ∈ built.program.succs p,
        OnEveryWalk built.program.succs m.entry head p →
        ∃ r first, built.program.block? head = some r ∧ r.kind = .join true
          ∧ r.preds = [first, p] ∧ r.dominator = some first
          ∧ ¬OnEveryWalk built.program.succs m.entry head first
          ∧ ∀ q, head ∈ built.program.succs q →
            OnEveryWalk built.program.succs m.entry head q → q = p := by
  obtain ⟨hs, hmade, -⟩ := buildTokens_made h
  obtain ⟨hsort, hentry, -, howned, -⟩ := Program.view_of_method hm
  have hid := hmade id (by simp [hsort])
  have ho := hid.ordered
  obtain ⟨x, hc⟩ := hid.closed
  rw [← howned]
  have hblock {b : BlockId} (hb : built.program.view.kind b = some (.join true)) :
      ∃ r, built.program.block? b = some r ∧ r.kind = .join true := by
    obtain ⟨r, hr⟩ := Program.block_of_kind (p := built.program) (b := b) (by simp [hb])
    exact ⟨r, hr, Option.some.inj ((Program.view_of_block hr).1.symm.trans hb)⟩
  refine ⟨fun a ha b l hwalk hback => ?_, fun p hp head hedge hall => ?_⟩
  · obtain ⟨head, hhead, hkind, habove⟩ := ho.cycle hc hs ha hwalk hback
    exact ⟨head, hhead, hblock hkind, fun y hy => hs.onEveryWalk hentry (habove y hy)⟩
  · have habove := (hc.above_iff hs hentry hp).2 hall
    obtain ⟨hkind, d, hd, hpreds, hnot⟩ := ho.wayBack hc hs hentry hp hedge habove
    obtain ⟨r, hr, hrk⟩ := hblock hkind
    have hview := Program.view_of_block hr
    have hhead := hc.owned_above hs hentry hp habove
    have hdm := hc.owned_above hs hentry hhead (.single hd)
    have hdom : ¬OnEveryWalk built.program.succs m.entry head d := fun hall =>
      hnot ((hc.above_iff hs hentry hdm).2 hall)
    refine ⟨r, d, hr, hrk, ?_, ?_, hdom, fun q hq hqall => ?_⟩
    · rw [← hpreds]
      exact hview.2.2.2.2.1.symm
    · rw [← hd]
      exact hview.2.2.2.2.2.2.2.2.symm
    · have hqp := (hs.wired.edge q head).1 hq
      rw [hpreds] at hqp
      simp only [List.mem_cons, List.not_mem_nil, or_false] at hqp
      rcases hqp with rfl | rfl
      · exact absurd hqall hdom
      · rfl

/-- A loop within a loop. -/
def nested : List Token :=
  [.keyword .main, .keyword .var, .ident "a", .punct .comma, .ident "b", .punct .semicolon,
    .punct .lbrace, .keyword .while_, .ident "a", .punct .lt, .number 3, .keyword .do_,
    .keyword .while_, .ident "b", .punct .lt, .ident "a", .keyword .do_,
    .keyword .let_, .ident "b", .punct .arrow, .ident "b", .punct .plus, .number 1,
    .keyword .od, .punct .semicolon,
    .keyword .let_, .ident "a", .punct .arrow, .ident "a", .punct .plus, .number 1,
    .keyword .od, .punct .rbrace, .punct .period, .eof].map fun k => ⟨k, k.text, .start⟩

theorem nested_reducible : ∃ built m, buildTokens nested [] = .ok built
    ∧ built.program.method? ⟨0⟩ = some m
    ∧ m.blocks.map (fun b => (built.program.block? b).map Block.kind)
      = [some (.entry []), some .plain, some .exit, some (.join true), some .plain, some .plain,
        some (.join true), some .plain, some .plain]
    ∧ (∀ a ∈ m.blocks, ∀ b l, Walk built.program.succs a b l → a ∈ built.program.succs b →
        ∃ head ∈ l, (∃ r, built.program.block? head = some r ∧ r.kind = .join true)
          ∧ ∀ x ∈ l, OnEveryWalk built.program.succs m.entry head x)
    ∧ ∀ p ∈ m.blocks, ∀ head ∈ built.program.succs p,
      OnEveryWalk built.program.succs m.entry head p →
      ∃ r first, built.program.block? head = some r ∧ r.kind = .join true
        ∧ r.preds = [first, p] ∧ r.dominator = some first
        ∧ ¬OnEveryWalk built.program.succs m.entry head first
        ∧ ∀ q, head ∈ built.program.succs q →
          OnEveryWalk built.program.succs m.entry head q → q = p := by
  have hrun : ((buildTokens nested []).toOption.bind fun b =>
      (b.program.method? ⟨0⟩).map fun m =>
        m.blocks.map fun c => (b.program.block? c).map Block.kind)
      = some [some (.entry []), some .plain, some .exit, some (.join true), some .plain,
        some .plain, some (.join true), some .plain, some .plain] := by
    decide +kernel
  cases h : buildTokens nested [] with
  | error e => rw [h] at hrun; cases hrun
  | ok built =>
      rw [h] at hrun
      obtain ⟨m, hm, hkinds⟩ := Option.map_eq_some_iff.1 hrun
      exact ⟨built, m, rfl, hm, hkinds, buildTokens_reducible h hm⟩

end StructuredSsa
