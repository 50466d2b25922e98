import StructuredSsa.Proofs.Consistent
import StructuredSsa.Proofs.Upheld

/-!
# One way out

While a body is built, control can go on where the cursor is and where ways wait to
be taken up: the second part of a conditional, the block behind it, the block behind
a loop. `View.LeadsTo` says that all blocks control gets to lead to one of some
blocks. What a statement does is the same whatever else is waiting: if all blocks
lead to the cursor or to one of `G`, then so do they behind the statement
(`LaidAll.leadsTo`). At the end of a body only the exit waits.

A block that leads to the exit has an edge out, so it does not end in a return.
-/

namespace StructuredSsa

theorem Reaches.walk_through {succs : BlockId → List BlockId} {a b c : BlockId}
    (hab : Reaches succs a b) (hbc : Reaches succs b c) : ∃ l, Walk succs a c l ∧ b ∈ l := by
  obtain ⟨l, hl⟩ := hbc
  induction hl with
  | here =>
      obtain ⟨l, hl⟩ := hab
      exact ⟨l, hl, hl.mem_last⟩
  | step _ hedge ih =>
      obtain ⟨l, hl, hb⟩ := ih
      exact ⟨_, .step hl hedge, List.mem_cons_of_mem _ hb⟩

/-- There is no way on from a block without edges out. -/
theorem Walk.eq_of_succs {succs : BlockId → List BlockId} {a b : BlockId} {l : List BlockId}
    (h : Walk succs a b l) (ha : succs a = []) : b = a := by
  induction h with
  | here => rfl
  | step _ hedge ih =>
      rw [ih, ha] at hedge
      cases hedge

namespace View

/-- All blocks of a method that control gets to lead to one of `G`. -/
def LeadsTo (w : View) (m : MethodId) (G : BlockId → Prop) : Prop :=
  ∀ b, w.home b = some m → w.Live b → ∃ g, G g ∧ Reaches w.succs b g

/-- They lead to the block at the cursor or to one of `G`. -/
abbrev GoesOn (w : View) (c : Cursor) (G : BlockId → Prop) : Prop :=
  w.LeadsTo c.method fun g => g = c.block ∨ G g

section LeadsTo

variable {w z : View} {m : MethodId} {c : Cursor} {e x t : BlockId} {G G' S : BlockId → Prop}

theorem Wired.live_onward (h : w.Wired) {a b : BlockId} (ha : w.Live a)
    (hab : Reaches w.succs a b) : w.Live b := by
  obtain ⟨l, hl⟩ := hab
  cases hl with
  | here => exact ha
  | step _ hedge => exact Or.inr (List.ne_nil_of_mem ((h.edge _ _).1 hedge))

/-- Where `G` can be left for `G'`, all lead there. -/
theorem LeadsTo.onward (h : w.LeadsTo m G) (hw : w.Wired)
    (hG : ∀ g, G g → w.Live g → ∃ t, G' t ∧ Reaches w.succs g t) : w.LeadsTo m G' := by
  intro b hhome hlive
  obtain ⟨g, hg, hbg⟩ := h b hhome hlive
  obtain ⟨t, ht, hgt⟩ := hG g hg (hw.live_onward hlive hbg)
  exact ⟨t, ht, hbg.trans hgt⟩

/-- A step from a block `x` without edges out, that enters some of `G'`. -/
theorem LeadsTo.step (h : w.LeadsTo m fun g => g = x ∨ G g) (hw : w.Wired) (ht : w.Tables)
    (k : Keeps w z S) (hx : w.succs x = []) (hpreds : z.preds x = w.preds x)
    (hS : ∀ b, S b → b = x ∨ Entered w z b ∧ G' b)
    (hnew : ∀ b, w.kind b = none → z.Live b → G' b)
    (hnext : w.Live x → ∃ t, G' t ∧ Reaches z.succs x t) (hG : ∀ g, G g → G' g) :
    z.LeadsTo m G' := by
  have hgrows : Grows w z := k.grows ht fun b hb => by
    rcases hS b hb with rfl | ⟨hentered, -⟩
    · rw [hx]
      exact List.nil_subset _
    · rw [hentered.succs]
      exact List.Subset.refl _
  intro b hhome hlive
  by_cases hold : w.kind b = none
  · exact ⟨b, hnew b hold hlive, .refl _ b⟩
  -- control got to an old block before, or the step enters it
  have hwas : w.Live b ∨ G' b := by
    rcases k.or_same hold with hb | hsame
    · rcases hS b hb with rfl | ⟨-, hb⟩
      · obtain ⟨y, hy⟩ := Option.ne_none_iff_exists'.1 hold
        refine Or.inl ?_
        rwa [Live, IsEntry, hpreds, k.kind b y hy, ← hy] at hlive
      · exact Or.inr hb
    · exact Or.inl (hsame.live.1 hlive)
  rcases hwas with hlive | hb
  · obtain ⟨n, hn⟩ := Option.ne_none_iff_exists'.1 (mt ht.home_none.1 hold)
    obtain rfl := Option.some.inj ((k.home b n hn).symm.trans hhome)
    obtain ⟨g, rfl | hg, hbg⟩ := h b hn hlive
    · obtain ⟨t, ht, hgt⟩ := hnext (hw.live_onward hlive hbg)
      exact ⟨t, ht, (hbg.mono fun a _ hedge => hgrows.succs a hedge).trans hgt⟩
    · exact ⟨g, hG g hg, hbg.mono fun a _ hedge => hgrows.succs a hedge⟩
  · exact ⟨b, hb, .refl _ b⟩

/-- What is built at the cursor and leads to `G'` from there. -/
theorem LeadsTo.since (h : w.GoesOn c G) (hb : w.InBody c e)
    (ht : w.Tables) (k : Since w c z) (hnew : ∀ b, w.kind b = none → z.Live b → G' b)
    (hnext : c.reachable = true → ∃ t, G' t ∧ Reaches z.succs c.block t)
    (hG : ∀ g, G g → G' g) (he : G e) : z.LeadsTo c.method G' := by
  refine h.step hb.wired ht k.toKeeps hb.toPlaced.succs k.start.preds (fun b hS => ?_) hnew
    (fun hlive => hnext (hb.live.2 hlive)) hG
  refine hS.imp id fun hexit => ⟨k.exit b hexit, hG b ?_⟩
  rwa [← Option.some.inj (hb.waiting.exit.symm.trans hexit)]

/-- The block at the cursor is left for a block in `G'`. -/
theorem LeadsTo.depart (h : w.GoesOn c G) (hp : w.Placed c)
    (ht : w.Tables) (hne : t ≠ c.block) (hG : ∀ g, G g → G' g) (hG' : G' t) :
    (w.depart c t).LeadsTo c.method G' := by
  refine h.step hp.wired ht (keeps_depart hp.toOpen ht t) hp.succs (grown_depart hne).preds
    (fun b hS => ?_) (fun b hold hlive => ?_) (fun hlive => ⟨t, hG', ?_⟩) hG
  · rcases hS with rfl | ⟨-, rfl⟩
    · exact Or.inl rfl
    · exact Or.inr ⟨entered_depart hp hne, hG'⟩
  · by_cases hbt : b = t
    · exact hbt ▸ hG'
    have hpreds : (w.depart c t).preds b = w.preds b := by
      unfold View.depart
      split
      · exact if_neg hbt
      · rfl
    rw [Live, IsEntry, hpreds, depart_kept.1] at hlive
    exact absurd hold (ht.present_of_live hlive)
  · refine (Reaches.refl _ _).step ?_
    rw [succs_depart hp (hp.live.2 hlive)]
    exact List.mem_singleton_self t

/-- The block behind a conditional is entered. -/
theorem LeadsTo.met {join branch : BlockId} {left right : Departure} {d : Cursor}
    (h : w.LeadsTo m fun g => g = join ∨ G g) (ht : w.Tables) (htz : z.Tables)
    (k : Meeting w m join branch left right) (hm : Met w m join branch left right z d) :
    z.GoesOn d G := by
  rw [GoesOn, hm.method, hm.block]
  refine h.step k.sound.wired ht hm.keeps (k.sound.wired.succs_eq_nil k.blank.after) hm.preds
    (fun b hS => Or.inl hS) (fun b hold hlive => ?_) (fun _ => ⟨join, Or.inl rfl, .refl _ _⟩)
    fun g hg => Or.inr hg
  exact absurd (hm.kinds ▸ hold) (htz.present_of_live hlive)

/-- The block at the cursor leads to a block that it was left for. -/
theorem Sound.reaches_of_led (h : z.Sound) (hreach : c.reachable = true)
    (hpreds : z.preds t = if c.reachable = true then [c.block] else []) :
    Reaches z.succs c.block t := by
  refine (Reaches.refl _ _).step ((h.wired.edge _ _).2 ?_)
  rw [hpreds, if_pos hreach]
  exact List.mem_singleton_self _

/-- A branch to two blocks, one of which is taken up later. -/
theorem LeadsTo.branch {a b : BlockId} (h : w.GoesOn c G)
    (hb : w.InBody c e) (ht : w.Tables) (k : Since w c z) (hs : z.Sound) (ha : z.Led c a) (he : G e)
    (hnew : ∀ d, w.kind d = none → z.Live d → d = a ∨ d = b) :
    z.LeadsTo c.method fun g => g = a ∨ g = b ∨ G g :=
  h.since hb ht k (fun d hold hlive => (hnew d hold hlive).imp id Or.inl)
    (fun hreach => ⟨a, Or.inl rfl, hs.reaches_of_led hreach ha.preds⟩)
    (fun _ hg => Or.inr (Or.inr hg)) he

end LeadsTo

end View

namespace Build

open View

section Statements

variable {e : BlockId} {G : BlockId → Prop} {s t u : Builder}

theorem Extends.leadsTo (h : Extends s t) (hb : InBody s e) (he : G e)
    (hs : s.program.view.GoesOn s.cursor G) :
    t.program.view.GoesOn t.cursor G := by
  rw [GoesOn, h.advance.method, h.block]
  refine hs.since hb s.program.view_tables h.advance.toSince (fun b hold hlive => ?_)
    (fun _ => ⟨_, Or.inl rfl, .refl _ _⟩) (fun g hg => Or.inr hg) he
  exact absurd (h.kinds ▸ hold) (t.program.view_tables.present_of_live hlive)

theorem Left.leadsTo {value : Option ValueId} {c : Cursor} (h : Left t u e value c) (hb : InBody t e)
    (hu : u.program.view.Sound) (hm : u.cursor.method = t.cursor.method) (he : G e)
    (ht : t.program.view.GoesOn t.cursor G) :
    u.program.view.GoesOn u.cursor G := by
  rw [GoesOn, hm]
  refine ht.since hb t.program.view_tables (h.turned hb).toSince (fun b hold hlive => ?_)
    (fun hreach => ⟨e, Or.inr he, (Reaches.refl _ _).step ((hu.wired.edge _ _).2 ?_)⟩)
    (fun g hg => Or.inr hg) he
  · rw [h.view] at hlive
    refine absurd hlive (not_live_leave t.program.view_tables hold ?_)
    rintro rfl
    rw [hb.waiting.kind] at hold
    cases hold
  · rw [h.view]
    show _ ∈ (t.program.view.depart c e).preds e
    rw [preds_depart h.placed, h.reachable, if_pos hreach, h.block]
    simp

/-- The parts of a conditional. While the first one is built the second one waits, and
then the block behind both. -/
theorem Conditional.leadsTo {left left' right right' ends : Builder} {v : ValueId} {a b j : BlockId}
    (h : Conditional e t left left' right right' ends u v a b j) (he : G e)
    (ht : t.program.view.GoesOn t.cursor G)
    (hleft : ∀ G : BlockId → Prop, G e →
      left.program.view.GoesOn left.cursor G →
      left'.program.view.GoesOn left'.cursor G)
    (hright : ∀ G : BlockId → Prop, G e →
      right.program.view.GoesOn right.cursor G →
      right'.program.view.GoesOn right'.cursor G) :
    u.program.view.GoesOn u.cursor G := by
  obtain ⟨hm_left, htarget_left, hexit_left⟩ := h.target_left
  obtain ⟨hm_right, htarget_right, hexit_right⟩ := h.target_right h.passed_left h.at_right
  obtain ⟨⟨body, -, branched, at_left⟩, ran_left, passed_left, between, at_right, ran_right,
    passed_right, behind, met⟩ := h
  have h1 : left.program.view.GoesOn left.cursor fun g => g = b ∨ G g := by
    rw [at_left]
    refine ht.branch body t.program.view_tables (branched.since body.toOpen) branched.sound
      branched.left he fun d hold hlive => ?_
    rcases branched.only d hold (left.program.view_tables.present_of_live hlive) with hd | hd | rfl
    · exact Or.inl hd
    · exact Or.inr hd
    · exact absurd hlive (not_live_of_kind branched.kind (by simp) branched.join.preds)
  have h2 : right.program.view.GoesOn right.cursor fun g => g = j ∨ G g := by
    rw [GoesOn, between, hm_right, ← hm_left, ← ran_left.advance.method]
    refine (hleft (fun g => g = b ∨ G g) (Or.inr he) h1).depart ran_left.finish.toPlaced
      left'.program.view_tables (htarget_left.advance ran_left.advance hexit_left).apart
      (fun g hg => ?_) (Or.inr (Or.inl rfl))
    rw [at_right]
    exact hg.imp id Or.inr
  rw [at_left] at passed_left
  have h3 : ends.program.view.LeadsTo t.cursor.method fun g => g = j ∨ G g := by
    rw [behind, ← hm_right, ← ran_right.advance.method]
    exact (hright (fun g => g = j ∨ G g) (Or.inr he) h2).depart ran_right.finish.toPlaced
      right'.program.view_tables (htarget_right.advance ran_right.advance hexit_right).apart
      (fun g hg => hg) (Or.inl rfl)
  rw [at_right] at passed_right
  exact h3.met ends.program.view_tables u.program.view_tables
    (branched.meeting body right.program.view_tables passed_left passed_right) met

/-- The parts of a loop. The body goes back to the head, and the head leads to the block
behind the loop. -/
theorem Loop.leadsTo {t' inside inside' : Builder} {v : ValueId} {header a b : BlockId}
    (h : Loop e s t t' inside inside' u v header a b) (he : G e)
    (hs : s.program.view.GoesOn s.cursor G)
    (hbody : ∀ G : BlockId → Prop, G e →
      inside.program.view.GoesOn inside.cursor G →
      inside'.program.view.GoesOn inside'.cursor G) :
    u.program.view.GoesOn u.cursor G := by
  obtain ⟨hm, htarget, hexit⟩ := h.target
  obtain ⟨⟨⟨z, looped⟩, entered, extended, forked, at_body⟩, ran, passed, back, behind⟩ := h
  have body : InBody t' e := entered.finish.extends extended
  obtain rfl : t.cursor.block = header := by rw [looped.cursor]
  have h1 : t.program.view.GoesOn t.cursor G := by
    rw [GoesOn, entered.advance.method]
    refine hs.since entered.start s.program.view_tables entered.advance.toSince
      (fun d hold hlive => Or.inl ?_) (fun hreach => ⟨t.cursor.block, Or.inl rfl, ?_⟩)
      (fun g hg => Or.inr hg) he
    · by_contra hne
      refine t.program.view_tables.present_of_live hlive ?_
      rw [looped.view]
      exact (looped.headed.only d hne).trans hold
    · refine entered.finish.toSound.reaches_of_led hreach ?_
      rw [looped.view]
      exact looped.headed.preds
  have h2 : inside.program.view.GoesOn inside.cursor fun g => g = b ∨ G g := by
    rw [at_body]
    exact (extended.leadsTo entered.finish he h1).branch body t'.program.view_tables
      (forked.since body.toOpen) forked.sound forked.left he
      fun d hold hlive => forked.only d hold (inside.program.view_tables.present_of_live hlive)
  rw [← extended.block] at passed back htarget hexit
  have h3 : u.program.view.LeadsTo u.cursor.method fun g => g = t'.cursor.block ∨ g = b ∨ G g := by
    rw [back, behind]
    show View.LeadsTo _ t'.cursor.method _
    rw [← hm, ← ran.advance.method]
    exact (hbody (fun g => g = b ∨ G g) (Or.inr he) h2).depart ran.finish.toPlaced
      inside'.program.view_tables (htarget.advance ran.advance hexit).apart (fun g hg => Or.inr hg)
      (Or.inl rfl)
  refine h3.onward passed.sound.wired fun g hg hlive => ?_
  rw [behind]
  rcases hg with rfl | hg
  · -- control gets to the head only if it got there before the body
    have hreach : t'.cursor.reachable = true := by
      by_cases hway : inside'.cursor.departure.reachable = true
      · have hin := passed.live hway
        rwa [at_body] at hin
      · have hpreds : u.program.view.preds t'.cursor.block = inside.program.view.preds t'.cursor.block := by
          rw [passed.preds, if_neg hway, List.append_nil]
        obtain ⟨y, hy⟩ := Option.ne_none_iff_exists'.1 htarget.present
        rw [View.Live, View.IsEntry, hpreds, passed.keeps.kind _ y hy, ← hy] at hlive
        exact body.live.2 ((forked.grown.live forked.keeps body.present).1 hlive)
    have hright := forked.right
    obtain ⟨hsame, -⟩ : Same inside.program.view u.program.view b ∧ _ := by
      refine passed.apart hright.present ?_ ?_ fun hb => ?_
      · rw [at_body]
        exact forked.apart.symm
      · rintro rfl
        exact body.present forked.new_right
      · rw [hm, forked.keeps.exits] at hb
        exact (body.exit_apart b hb).1 forked.new_right
    exact ⟨b, Or.inl rfl, passed.sound.reaches_of_led hreach (hsame.preds.trans hright.preds)⟩
  · exact ⟨g, hg, .refl _ g⟩

end Statements

mutual

theorem Laid.leadsTo {e : BlockId} {x : Syntax.Stmt} {s u : Builder} : Laid e x s u → Ran e s u →
    ∀ G : BlockId → Prop, G e →
      s.program.view.GoesOn s.cursor G →
      u.program.view.GoesOn u.cursor G
  | .straight _ _ extended, ran, _, he, hs => extended.leadsTo ran.start he hs
  | .left gone, ran, _, he, hs =>
      gone.leadsTo ran.start ran.finish.toSound ran.advance.method he hs
  | .leftWith _ extended gone, ran, _, he, hs =>
      gone.leadsTo (ran.start.extends extended) ran.finish.toSound
        (ran.advance.method.trans extended.advance.method.symm) he
        (extended.leadsTo ran.start he hs)
  | .conditional _ extended _ _ _ parts laid_left laid_right, ran, _, he, hs =>
      parts.leadsTo he (extended.leadsTo ran.start he hs) laid_left.leadsTo laid_right.leadsTo
  | .loop _ _ _ parts laid, _, _, he, hs => parts.leadsTo he hs laid.leadsTo

/-- Whatever waits behind a sequence of statements, control that gets somewhere in it can
get to its end, to the exit or to what waits. -/
theorem LaidAll.leadsTo {e : BlockId} {watch : Bool} {x : Syntax.Sequence} {s u : Builder} :
    LaidAll e watch x s u → ∀ G : BlockId → Prop, G e →
      s.program.view.GoesOn s.cursor G →
      u.program.view.GoesOn u.cursor G
  | .nil, _, _, hs => hs
  | .cons _ _ laid ran after, G, he, hs =>
      after.leadsTo G he (laid.leadsTo ⟨ran.start, ran.finish, ran.advance⟩ G he hs)

end

/-- A method that is finished has one return, in the exit that all its blocks lead to. -/
theorem IsMade.leadsTo {z : View} {m : MethodId} (h : IsMade z m) :
    ∃ e, z.Closed m e ∧ z.LeadsTo m (· = e)
      ∧ ∃ v value, z.body e = [v] ∧ z.op v = some (.ret value) := by
  obtain ⟨b, s, t, u, r, e, hentry, rfl, hbody, huntouched⟩ := h
  have hat := hbody.opened.atStart hentry
  have hfinished := hbody.finished
  have hclosed := hfinished.closed
  have hin := hbody.ran.finish
  rw [hbody.method] at hclosed
  have hhome : r.program.view.home e = some s.cursor.method :=
    hfinished.sound.wired.owned_home _ _ hclosed.owned
  refine ⟨e, hbody.closed.untouched hfinished.sound huntouched, fun b hb hlive => ?_, ?_⟩
  · have hstart : t.program.view.LeadsTo t.cursor.method fun g => g = t.cursor.block ∨ g = e := by
      rw [hbody.opened.method]
      intro b hb _
      rcases hat.blocks b hb with rfl | rfl | rfl
      · have hreach := hentry.live.2 (Or.inl (hentry.wired.isEntry_entry _ _ hentry.start).1)
        exact ⟨_, Or.inl rfl, hat.sound.reaches_of_led hreach hat.led.preds⟩
      · exact ⟨_, Or.inl rfl, .refl _ _⟩
      · exact ⟨_, Or.inr rfl, .refl _ _⟩
    have hend : (u.program.view.depart u.cursor e).LeadsTo u.cursor.method (· = e) :=
      (hbody.laid.leadsTo (· = e) rfl hstart).depart hin.toPlaced u.program.view_tables
        (hin.waiting.target hin.toOpen).apart (fun _ hg => hg) rfl
    rw [hbody.method] at hend
    have hb' := huntouched.home b hb
    have hlive' := hfinished.settled.live.1 ((huntouched.block b hb').live.1 hlive)
    obtain ⟨g, rfl, l, hl⟩ := hend b (hfinished.settled.home ▸ hb') hlive'
    rw [← hfinished.settled.succs] at hl
    exact ⟨g, rfl, l, huntouched.walk hfinished.sound.wired hhome hl⟩
  · obtain ⟨v, value, hv, hop⟩ : ∃ v value, r.program.view.body e = [v]
        ∧ r.program.view.op v = some (.ret value) := by
      by_cases hfun : u.program.view.sort u.cursor.method = some .function
      · obtain ⟨-, v, -, u, hu, hop⟩ := hfinished.returns hfun
        exact ⟨u, some v, hu, hop⟩
      · obtain ⟨-, v, hv, hop⟩ := hfinished.plain hfun
        exact ⟨v, none, hv, hop⟩
    have howner := (hfinished.sound.wired.listed v e).1 (List.mem_append_right _ (by simp [hv]))
    exact ⟨v, value, (huntouched.block e hhome).body.trans hv,
      (huntouched.instr v e howner hhome).1.trans hop⟩

end Build

namespace View

variable {w : View} {m : MethodId} {b e : BlockId} {u : ValueId} {value : Option ValueId}

/-- A return has no edge behind it. -/
theorem Sound.succs_of_ret (h : w.Sound) (hlive : w.Live b) (hafter : w.after b ≠ none)
    (hu : u ∈ w.contents b) (hop : w.op u = some (.ret value)) : w.succs b = [] := by
  obtain ⟨init, t, op, hbody, ht, -, hinit, htargets, -⟩ := h.ended b hlive hafter
  rcases List.mem_append.1 hu with hu | hu
  · obtain ⟨x, os, hphi⟩ := h.wired.phi_of_phis u b hu
    rw [hop] at hphi
    cases hphi
  · rw [hbody] at hu
    rcases List.mem_append.1 hu with hu | hu
    · obtain ⟨o, ho, hnot⟩ := hinit u hu
      obtain rfl := Option.some.inj (hop.symm.trans ho)
      cases hnot
    · obtain rfl := List.mem_singleton.1 hu
      obtain rfl := Option.some.inj (hop.symm.trans ht)
      refine List.eq_nil_iff_forall_not_mem.2 fun s hs => ?_
      cases (htargets s).2 hs

/-- Only the exit returns. -/
theorem LeadsTo.eq_of_ret (h : w.LeadsTo m (· = e)) (hc : w.Closed m e) (hs : w.Sound)
    (hb : b ∈ w.owned m) (hu : u ∈ w.contents b) (hop : w.op u = some (.ret value)) : b = e := by
  obtain ⟨g, rfl, l, hl⟩ := h b (hs.wired.owned_home b m hb) (hc.alive b hb)
  exact (hl.eq_of_succs (hs.succs_of_ret (hc.alive b hb) (hc.sealed b hb) hu hop)).symm

end View

/-- Whatever the tokens, each method of a program that is built has one exit: the only
block of its kind, with the only return of the method in it. Every block of the method
lies on a walk from the entry to the exit. -/
theorem buildTokens_singleExit {tokens : List Token} {earlier : List Diagnostic} {built : Built}
    (h : buildTokens tokens earlier = .ok built) {id : MethodId} {m : Method}
    (hm : built.program.method? id = some m) :
    ∃ e, m.exit = some e ∧ e ∈ m.blocks
      ∧ (∀ b ∈ m.blocks, (built.program.block? b).map Block.kind = some .exit ↔ b = e)
      ∧ (∃ v value, v ∈ built.program.contents e
        ∧ (built.program.instr? v).map Instr.op = some (.ret value)
        ∧ ∀ b ∈ m.blocks, ∀ u ∈ built.program.contents b, ∀ value',
          (built.program.instr? u).map Instr.op = some (.ret value') → u = v)
      ∧ ∀ b ∈ m.blocks, ∃ l, Walk built.program.succs m.entry e l ∧ b ∈ l := by
  obtain ⟨hs, hmade, -⟩ := buildTokens_made h
  obtain ⟨hsort, hentry, hexit, howned, -⟩ := Program.view_of_method hm
  obtain ⟨e, hc, hleads, v, value, hbody, hop⟩ := (hmade id (by simp [hsort])).leadsTo
  rw [← howned, ← hexit]
  have hhome {b : BlockId} (hb : b ∈ built.program.view.owned id) := hs.wired.owned_home b id hb
  have hcontents (b : BlockId) : built.program.contents b = built.program.view.contents b := by
    rw [Program.contents, View.contents]
    show _ = built.program.phis b ++ ((built.program.block? b).map (·.body)).getD []
    rw [Program.phis]
    cases built.program.block? b <;> rfl
  refine ⟨e, hc.exit, hc.owned, fun b hb => ⟨fun hk => ?_, ?_⟩, ⟨v, value, ?_, hop, ?_⟩,
    fun b hb => ?_⟩
  · exact Option.some.inj ((hs.sole b id hk (hhome hb)).symm.trans hc.exit)
  · rintro rfl
    exact hc.kind
  · rw [hcontents]
    exact List.mem_append_right _ (by simp [hbody])
  · intro b hb u hu value' hret
    rw [hcontents] at hu
    obtain rfl := hleads.eq_of_ret hc hs hb hu hret
    rcases List.mem_append.1 hu with hu | hu
    · obtain ⟨x, os, hphi⟩ := hs.wired.phi_of_phis u b hu
      rw [show built.program.view.op u = _ from hret] at hphi
      cases hphi
    · rwa [hbody, List.mem_singleton] at hu
  · obtain ⟨g, rfl, hreach⟩ := hleads b (hhome hb) (hc.alive b hb)
    exact (hs.wired.live_reached b id _ (hc.alive b hb) (hhome hb) hentry).walk_through hreach

/-- A loop whose body returns on both ways through a conditional, with code behind it
that control does not get to. -/
def returning : List Token :=
  [.keyword .main, .keyword .var, .ident "a", .punct .semicolon, .punct .lbrace,
    .keyword .while_, .ident "a", .punct .lt, .number 3, .keyword .do_,
    .keyword .if_, .ident "a", .punct .eq, .number 1, .keyword .then_, .keyword .ret,
    .keyword .else_, .keyword .ret, .keyword .fi, .punct .semicolon,
    .keyword .let_, .ident "a", .punct .arrow, .number 2, .keyword .od, .punct .semicolon,
    .keyword .let_, .ident "a", .punct .arrow, .number 4, .punct .rbrace, .punct .period,
    .eof].map fun k => ⟨k, k.text, .start⟩

theorem returning_singleExit : ∃ built m, buildTokens returning [] = .ok built
    ∧ built.program.method? ⟨0⟩ = some m
    ∧ m.blocks.map built.program.succs
      = [[⟨1⟩], [⟨3⟩], [], [⟨4⟩, ⟨5⟩], [⟨6⟩, ⟨7⟩], [⟨2⟩], [⟨2⟩], [⟨2⟩]]
    ∧ ∃ e, m.exit = some e ∧ e ∈ m.blocks
      ∧ (∀ b ∈ m.blocks, (built.program.block? b).map Block.kind = some .exit ↔ b = e)
      ∧ (∃ v value, v ∈ built.program.contents e
        ∧ (built.program.instr? v).map Instr.op = some (.ret value)
        ∧ ∀ b ∈ m.blocks, ∀ u ∈ built.program.contents b, ∀ value',
          (built.program.instr? u).map Instr.op = some (.ret value') → u = v)
      ∧ ∀ b ∈ m.blocks, ∃ l, Walk built.program.succs m.entry e l ∧ b ∈ l := by
  have hrun : ((buildTokens returning []).toOption.bind fun b =>
      (b.program.method? ⟨0⟩).map fun m => m.blocks.map b.program.succs)
      = some [[⟨1⟩], [⟨3⟩], [], [⟨4⟩, ⟨5⟩], [⟨6⟩, ⟨7⟩], [⟨2⟩], [⟨2⟩], [⟨2⟩]] := by
    decide +kernel
  cases h : buildTokens returning [] with
  | error e => rw [h] at hrun; cases hrun
  | ok built =>
      rw [h] at hrun
      obtain ⟨m, hm, hsuccs⟩ := Option.map_eq_some_iff.1 hrun
      exact ⟨built, m, rfl, hm, hsuccs, buildTokens_singleExit h hm⟩

end StructuredSsa
