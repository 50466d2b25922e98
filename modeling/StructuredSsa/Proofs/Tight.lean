import StructuredSsa.Proofs.Chain
import StructuredSsa.Proofs.Stmts

/-!
# Pointers that miss no dominator

What is above a block lies on every walk to it (`mem_of_above`). Here is
the other half: a block that is not above `b` is missed by some walk to `b`
(`Tight`). Unlike the first half this is not local to an edge. It holds of a
block because it holds of the blocks that lead there on the first visit, which
exist by the time the block gets its pointer; so it is carried along the
construction (`Strict`), and edges that come later only add walks.
-/

namespace StructuredSsa

section Siblings

variable {idom : BlockId → Option BlockId} {a b c p q x : BlockId} {l : List BlockId}

section

variable (h : Chain idom c l) (ha : idom a = some c)
include h ha

theorem Chain.not_above_parent : ¬Above idom a c := by
  rw [← h.mem_iff]
  exact (List.nodup_cons.1 (Chain.up ha h).nodup).1

theorem Chain.not_above_sibling (hb : idom b = some c) (hne : a ≠ b) : ¬Above idom a b := by
  intro hab
  cases hab with
  | refl => exact hne rfl
  | up hd had =>
      obtain rfl := Option.some.inj (hb.symm.trans hd)
      exact h.not_above_parent ha had

/-- What is above blocks under two siblings is above their parent. -/
theorem Chain.above_parent (hb : idom b = some c) (hne : a ≠ b) (hap : Above idom a p)
    (hbq : Above idom b q) (hxp : Above idom x p) (hxq : Above idom x q) : Above idom x c := by
  have hab := h.not_above_sibling ha hb hne
  have hba := h.not_above_sibling hb ha (Ne.symm hne)
  have hup {d : BlockId} (hd : idom d = some c) (hxd : Above idom x d) (hx : x ≠ d) :
      Above idom x c := by
    cases hxd with
    | refl => exact absurd rfl hx
    | up hd' h => exact Option.some.inj (hd.symm.trans hd') ▸ h
  rcases hap.total hxp with hax | hxa
  · rcases hbq.total hxq with hbx | hxb
    · exact (hax.total hbx).elim (fun h => absurd h hab) fun h => absurd h hba
    · refine hup hb hxb ?_
      rintro rfl
      exact hab hax
  · refine hup ha hxa ?_
    rintro rfl
    exact (hbq.total hxq).elim hba hab

end

end Siblings

namespace View

/-! ## Walks around a block -/

/-- Every block that is not above `b` is missed by some walk from `e` to `b`. -/
def Tight (w : View) (e b : BlockId) : Prop :=
  ∀ a, Above w.idom a b ∨ ∃ l, Walk w.succs e b l ∧ a ∉ l

section Tight

variable {w z : View} {e b d : BlockId}

theorem tight_refl (w : View) (e : BlockId) : w.Tight e e := by
  intro a
  by_cases ha : a = e
  · exact Or.inl (ha ▸ .refl a)
  · exact Or.inr ⟨[e], .here, by simpa using ha⟩

theorem Tight.mono (h : w.Tight e b) (hidom : ∀ b d, w.idom b = some d → z.idom b = some d)
    (hsuccs : ∀ b, w.succs b ⊆ z.succs b) : z.Tight e b := by
  intro a
  rcases h a with habove | ⟨l, hl, ha⟩
  · exact Or.inl (habove.mono hidom)
  · exact Or.inr ⟨l, hl.mono fun b _ hc => hsuccs b hc, ha⟩

/-- A pointer to the lowest block above some of the ways into `b` misses none
that is above `b`: where another block is not above one of the ways, a walk
along it goes around that block. -/
theorem Tight.meet (qs : List BlockId) (hd : w.idom b = some d)
    (hlow : ∀ a, (∀ q ∈ qs, Above w.idom a q) → Above w.idom a d)
    (hqs : ∀ q ∈ qs, b ∈ w.succs q ∧ w.Tight e q) : w.Tight e b := by
  intro a
  by_cases hab : a = b
  · exact Or.inl (hab ▸ .refl a)
  · by_cases hall : ∀ q ∈ qs, Above w.idom a q
    · exact Or.inl (.up hd (hlow a hall))
    · push Not at hall
      obtain ⟨q, hq, hnot⟩ := hall
      obtain ⟨hedge, htight⟩ := hqs q hq
      obtain ⟨l, hl, ha⟩ := (htight a).resolve_left hnot
      exact Or.inr ⟨b :: l, .step hl hedge, by simp [hab, ha]⟩

theorem Tight.single (hd : w.idom b = some d) (hedge : b ∈ w.succs d) (h : w.Tight e d) :
    w.Tight e b :=
  .meet [d] hd (fun a ha => ha d (by simp)) (by simpa using ⟨hedge, h⟩)

end Tight

/-! ## Along the construction -/

/-- The pointers of a method miss no dominator. A block without a pointer is
not yet begun. -/
def Strict (w : View) (m : MethodId) : Prop :=
  ∀ e b, w.entry m = some e → w.home b = some m → w.Live b → w.idom b ≠ none → w.Tight e b

/-- Pointers and edges were only added. -/
structure Grows (w z : View) : Prop where
  entry : z.entry = w.entry
  idom : ∀ b d, w.idom b = some d → z.idom b = some d
  succs : ∀ b, w.succs b ⊆ z.succs b

theorem Wired.succs_eq_nil {w : View} (h : w.Wired) {b : BlockId} (hb : w.after b = none) :
    w.succs b = [] :=
  List.eq_nil_iff_forall_not_mem.2 fun c hc => h.edge_sealed b c hc hb

section Steps

variable {w y z : View} {c d : Cursor} {m : MethodId} {a b e j t : BlockId} {S : BlockId → Prop}

theorem Keeps.grows (k : Keeps w z S) (ht : w.Tables) (hS : ∀ b, S b → w.succs b ⊆ z.succs b) :
    Grows w z where
  entry := k.entry
  idom := k.idom
  succs b := by
    by_cases hb : w.kind b = none
    · rw [(ht.absent hb).2.2.2.1]
      exact List.nil_subset _
    · by_cases hs : S b
      · exact hS b hs
      · rw [(k.same b hb hs).succs]
        exact List.Subset.refl _

theorem Tight.grow (h : w.Tight e b) (g : Grows w z) : z.Tight e b :=
  h.mono g.idom g.succs

/-- The block at a cursor is no exception. -/
theorem Strict.tight (h : w.Strict m) (he : w.entry m = some e) (hhome : w.home b = some m)
    (hlive : w.Live b) (habove : Above w.idom e b) : w.Tight e b := by
  cases habove with
  | refl => exact tight_refl w _
  | up hd _ => exact h e b he hhome hlive (by simp [hd])

/-- Blocks that had a pointer before are as tight as they were. -/
theorem Strict.grow (h : w.Strict m) (g : Grows w z)
    (hnew : ∀ e b, w.entry m = some e → z.home b = some m → z.Live b → z.idom b ≠ none →
      w.home b = some m ∧ w.Live b ∧ w.idom b ≠ none ∨ z.Tight e b) : z.Strict m := by
  intro e b he hhome hlive hidom
  rw [g.entry] at he
  rcases hnew e b he hhome hlive hidom with ⟨hhome, hlive, hidom⟩ | htight
  · exact (h e b he hhome hlive hidom).grow g
  · exact htight

/-- A block that is left alone has a pointer if it had one. -/
theorem Same.pointed (h : Same w z b) (hhome : z.home b = some m) (hlive : z.Live b)
    (hidom : z.idom b ≠ none) : w.home b = some m ∧ w.Live b ∧ w.idom b ≠ none :=
  ⟨h.home ▸ hhome, h.live.1 hlive, h.idom ▸ hidom⟩

theorem Since.grows (k : Since w c z) (hp : w.Placed c) (ht : w.Tables) : Grows w z := by
  refine k.toKeeps.grows ht ?_
  rintro b (rfl | hb)
  · rw [hp.succs]
    exact List.nil_subset _
  · rw [(k.exit b hb).succs]
    exact List.Subset.refl _

/-- Of what is built at a cursor only the new blocks are to be looked at: the
exit has no pointer yet. A new block that the block at the cursor leads to and
that points at it is tight. -/
theorem Strict.since (h : w.Strict c.method) (k : Since w c z) (hb : w.InBody c j) (hz : z.Wired)
    (ht : w.Tables) (htz : z.Tables)
    (hnew : ∀ b, w.kind b = none → z.kind b ≠ none → z.Live b →
      z.idom b = none ∨ z.idom b = some c.block ∧ c.block ∈ z.preds b) : z.Strict c.method := by
  have g := k.grows hb.toPlaced ht
  refine h.grow g fun e b he hhome hlive hidom => ?_
  by_cases hold : w.kind b = none
  · rcases hnew b hold (htz.present_of_home hhome) hlive with hnone | ⟨hd, hpred⟩
    · exact absurd hnone hidom
    · have hedge := (hz.edge _ _).2 hpred
      have hlive' := (k.start.live k.toKeeps hb.present).1 (hz.edge_live _ _ hedge)
      have htight := h.tight he hb.home hlive' (hb.rooted e he)
      exact Or.inr (.single hd hedge (htight.grow g))
  · refine Or.inl ?_
    by_cases hbc : b = c.block
    · subst hbc
      exact ⟨hb.home, (k.start.live k.toKeeps hb.present).1 hlive, k.start.idom ▸ hidom⟩
    · by_cases hbj : w.exit c.method = some b
      · obtain rfl := Option.some.inj (hb.waiting.exit.symm.trans hbj)
        exact absurd ((k.exit _ hbj).idom.trans hb.waiting.idom) hidom
      · exact (k.same b hold fun hS => hS.elim hbc hbj).pointed hhome hlive hidom

/-- A block that only the block at the cursor leads to. -/
theorem mem_preds_of_live (hentry : ¬w.IsEntry t)
    (hpreds : w.preds t = if c.reachable = true then [c.block] else []) (hl : w.Live t) :
    c.block ∈ w.preds t := by
  have hne := hl.resolve_left hentry
  rw [hpreds] at hne ⊢
  split
  · exact List.mem_singleton.2 rfl
  · next hnot => simp [hnot] at hne

theorem Led.below (h : w.Led c t) (hl : w.Live t) : w.idom t = some c.block ∧ c.block ∈ w.preds t :=
  ⟨h.idom, mem_preds_of_live h.not_entry h.preds hl⟩

theorem Strict.forked {v : ValueId} (h : w.Strict c.method) (k : Forked w c v z a b)
    (hb : w.InBody c j) (ht : w.Tables) (htz : z.Tables) : z.Strict c.method := by
  refine h.since (k.since hb.toOpen) hb k.sound.wired ht htz fun d hold hnew hlive => Or.inr ?_
  rcases k.only d hold hnew with rfl | rfl
  · exact k.left.below hlive
  · exact k.right.below hlive

theorem Strict.branched (h : w.Strict c.method) (k : Branched w c z a b t) (hb : w.InBody c j)
    (ht : w.Tables) (htz : z.Tables) : z.Strict c.method := by
  refine h.since (k.since hb.toOpen) hb k.sound.wired ht htz fun d hold hnew hlive => ?_
  rcases k.only d hold hnew with rfl | rfl | rfl
  · exact Or.inr (k.left.below hlive)
  · exact Or.inr (k.right.below hlive)
  · exact Or.inl k.join.idom

/-- A jump to a block that has no pointer, or that control gets to already. -/
theorem Strict.depart (h : w.Strict c.method) (hp : w.Placed c) (ht : w.Tables) (hg : Target w c t)
    (hlive : c.reachable = true → w.idom t ≠ none → w.Live t) : (w.depart c t).Strict c.method := by
  have k := keeps_depart hp.toOpen ht t
  have hgrown := grown_depart (w := w) hg.apart
  have hentered := entered_depart hp hg.apart
  refine h.grow (k.grows ht ?_) fun e b _ hb hl hidom => Or.inl ?_
  · rintro b (rfl | ⟨-, rfl⟩)
    · rw [hp.succs]
      exact List.nil_subset _
    · rw [hentered.succs]
      exact List.Subset.refl _
  · rw [home_depart] at hb
    rcases k.or_same (ht.present_of_home hb) with (rfl | ⟨hreach, rfl⟩) | hsame
    · exact ⟨hb, (hgrown.live k hp.present).1 hl, hgrown.idom ▸ hidom⟩
    · rw [hentered.idom] at hidom
      exact ⟨hg.home, hlive hreach hidom, hidom⟩
    · exact hsame.pointed (hsame.home.trans hb) hl hidom

/-- The block behind a return. -/
theorem not_live_leave (ht : w.Tables) (hold : w.kind b = none) (hbe : b ≠ e) :
    ¬(w.leave c e).Live b := by
  have hpreds : (w.depart c e).preds b = [] := by
    rw [← (ht.absent hold).2.2.1]
    unfold View.depart
    split
    · exact if_neg hbe
    · rfl
  rintro (⟨vs, hvs⟩ | hne)
  · change (if b = ⟨(w.depart c e).blocks⟩ then some .plain else (w.depart c e).kind b) = _ at hvs
    split at hvs
    · cases hvs
    · rw [depart_kept.1, hold] at hvs
      cases hvs
  · exact hne hpreds

/-- The jump behind a part of a conditional or the body of a loop. -/
theorem Strict.passed (h : z.Strict d.method) (hz : z.Placed d) (htz : z.Tables)
    (k : Advance w c z d) (hj : Target w c j) (hexit : w.exit c.method ≠ some j)
    (hlive : c.reachable = true → w.idom j ≠ none → w.Live j) : (z.depart d j).Strict d.method := by
  have hsame := k.same j hj.present fun hS => hS.elim hj.apart hexit
  refine h.depart hz htz (hj.advance k hexit) fun hreach hidom => hsame.live.2 ?_
  exact hlive (k.live hreach) (hsame.idom ▸ hidom)

section

variable {join branch : BlockId} {left right : Departure} (k : Meeting w m join branch left right)
  (hm : Met w m join branch left right z d) (ht : w.Tables)
include k hm ht

theorem Meeting.grows : Grows w z := by
  refine hm.keeps.grows ht ?_
  rintro _ rfl
  rw [k.sound.wired.succs_eq_nil k.blank.after]
  exact List.nil_subset _

/-- The block behind a conditional. What is above both ways is above the branch,
for they start from different blocks below it. -/
theorem Meeting.tight (h : w.Strict m) (ha : w.idom a = some branch) (hb : w.idom b = some branch)
    (hab : a ≠ b) (hleft : Above w.idom a left.block) (hright : Above w.idom b right.block)
    (he : w.entry m = some e) (hlive : w.preds join ≠ []) : z.Tight e join := by
  have hw := k.sound.wired
  have g := k.grows hm ht
  have hway {way : Departure} (hd : w.Departed m way) (hq : way.block ∈ w.preds join) :
      join ∈ z.succs way.block ∧ z.Tight e way.block := by
    have hedge := (hw.edge _ _).2 hq
    exact ⟨g.succs _ hedge, (h.tight he hd.home (hw.edge_live _ _ hedge) (hd.rooted e he)).grow g⟩
  have hpreds := k.preds
  cases hl : left.reachable with
  | false =>
      cases hr : right.reachable with
      | false => simp [hpreds, hl, hr] at hlive
      | true =>
          obtain ⟨hedge, htight⟩ := hway k.departed_right (by simp [hpreds, hr])
          exact .single (hm.idom_right hl hr) hedge htight
  | true =>
      have hl' := hway k.departed_left (by simp [hpreds, hl])
      cases hr : right.reachable with
      | false => exact .single (hm.idom_left hl hr) hl'.1 hl'.2
      | true =>
          have hr' := hway k.departed_right (by simp [hpreds, hr])
          have he' : z.entry m = some e := by rw [g.entry, he]
          have hnone := hm.ready.scoping.entry_idom e (hm.ready.wired.isEntry_entry e m he').1
          obtain ⟨l, hchain⟩ := Chain.exists_of_above hnone ((k.rooted e he).mono g.idom)
          refine .meet [left.block, right.block] (hm.idom_both hl hr) (fun x hx => ?_)
            (by simpa using ⟨hl', hr'⟩)
          exact hchain.above_parent (g.idom _ _ ha) (g.idom _ _ hb) hab (hleft.mono g.idom)
            (hright.mono g.idom) (hx _ (by simp)) (hx _ (by simp))

end

theorem Strict.met {join branch : BlockId} {left right : Departure} (h : w.Strict m)
    (k : Meeting w m join branch left right) (hm : Met w m join branch left right z d)
    (ht : w.Tables) (htz : z.Tables) (ha : w.idom a = some branch) (hb : w.idom b = some branch)
    (hab : a ≠ b) (hleft : Above w.idom a left.block) (hright : Above w.idom b right.block) :
    z.Strict m := by
  refine h.grow (k.grows hm ht) fun e t he hhome hlive hidom => ?_
  by_cases hjoin : t = join
  · subst hjoin
    refine Or.inr (k.tight hm ht h ha hb hab hleft hright he ?_)
    rw [← hm.preds]
    refine hlive.resolve_left ?_
    rintro ⟨vs, hvs⟩
    rw [hm.kinds] at hvs
    exact k.blank.not_entry ⟨vs, hvs⟩
  · have hold : w.kind t ≠ none := hm.kinds ▸ htz.present_of_home hhome
    exact Or.inl ((hm.keeps.same t hold hjoin).pointed hhome hlive hidom)

end Steps

end View

namespace Build

open View

/-! ## Statements -/

/-- The pointers of the method under construction miss no dominator. -/
abbrev Strict (s : Builder) : Prop := s.program.view.Strict s.cursor.method

section Statements

variable {e : BlockId} {s t u : Builder}

theorem strict_extends (h : Extends s t) (hb : InBody s e) (hs : Strict s) : Strict t := by
  show t.program.view.Strict t.cursor.method
  rw [h.advance.method]
  exact hs.since h.advance.toSince hb h.ready.wired s.program.view_tables t.program.view_tables
    fun _ hold hnew => absurd hold (h.kinds ▸ hnew)

/-- A return adds a block that control cannot get to. -/
theorem Left.strict {value : Option ValueId} {c : Cursor} (h : Left t u e value c)
    (hkinds : t.program.view.kind = s.program.view.kind) (ran : Ran e s u) (hs : Strict s) :
    Strict u := by
  show u.program.view.Strict u.cursor.method
  rw [ran.advance.method]
  refine hs.since ran.advance.toSince ran.start ran.finish.wired s.program.view_tables
    u.program.view_tables fun b hold _ hlive => absurd hlive ?_
  have hbe : b ≠ e := by
    rintro rfl
    rw [ran.start.waiting.kind] at hold
    cases hold
  rw [h.view]
  exact not_live_leave t.program.view_tables (hkinds ▸ hold) hbe

theorem Conditional.strict {left left' right right' ends : Builder} {v : ValueId} {a b j : BlockId}
    (h : Conditional e t left left' right right' ends u v a b j) (hs : Strict t)
    (hleft : Strict left → Strict left') (hright : Strict right → Strict right') : Strict u := by
  obtain ⟨hm_left, htarget_left, hexit_left⟩ := h.target_left
  obtain ⟨hm_right, htarget_right, hexit_right⟩ := h.target_right h.passed_left h.at_right
  obtain ⟨⟨body, -, branched, at_left⟩, ran_left, passed_left, between, at_right, ran_right,
    passed_right, behind, met⟩ := h
  have h1 : Strict left := by
    show left.program.view.Strict left.cursor.method
    rw [hm_left]
    exact hs.branched branched body t.program.view_tables left.program.view_tables
  have h2 : Strict right := by
    show right.program.view.Strict right.cursor.method
    rw [between, hm_right, ← hm_left, ← ran_left.advance.method]
    exact (hleft h1).passed ran_left.finish.toPlaced left'.program.view_tables ran_left.advance
      htarget_left hexit_left fun _ hidom => absurd branched.join.idom hidom
  rw [at_left] at passed_left
  have h3 : ends.program.view.Strict t.cursor.method := by
    rw [behind, ← hm_right, ← ran_right.advance.method]
    exact (hright h2).passed ran_right.finish.toPlaced right'.program.view_tables
      ran_right.advance htarget_right hexit_right fun _ hidom =>
        absurd (passed_left.target.idom.trans branched.join.idom) hidom
  rw [at_right] at passed_right
  have k := passed_left.keeps.trans passed_right.keeps
  show u.program.view.Strict u.cursor.method
  rw [met.method]
  exact h3.met (branched.meeting body right.program.view_tables passed_left passed_right) met
    ends.program.view_tables u.program.view_tables (k.idom _ _ branched.left.idom)
    (k.idom _ _ branched.right.idom) branched.apart (passed_left.above.mono passed_right.keeps.idom)
    passed_right.above

/-- The head of a loop is tight before the loop goes back to it. -/
theorem Looped.strict {header : BlockId} {z : View} (h : Looped s t header z) (ran : Ran e s t)
    (hs : Strict s) : Strict t := by
  show t.program.view.Strict t.cursor.method
  rw [ran.advance.method]
  refine hs.since ran.advance.toSince ran.start ran.finish.wired s.program.view_tables
    t.program.view_tables fun b hold hnew hlive => Or.inr ?_
  rw [h.view] at hnew hlive ⊢
  obtain rfl : b = header := by
    by_contra hne
    exact hnew ((h.headed.only b hne).trans hold)
  exact ⟨h.headed.idom, mem_preds_of_live h.headed.blank.not_entry h.headed.preds hlive⟩

theorem Loop.strict {t' inside inside' : Builder} {v : ValueId} {header a b : BlockId}
    (h : Loop e s t t' inside inside' u v header a b) (hs : Strict s)
    (hbody : Strict inside → Strict inside') : Strict u := by
  obtain ⟨hm, htarget, hexit⟩ := h.target
  obtain ⟨⟨⟨z, looped⟩, entered, extended, forked, at_body⟩, ran, -, back, behind⟩ := h
  have body : InBody t' e := entered.finish.extends extended
  have h1 := strict_extends extended entered.finish (looped.strict entered hs)
  have h2 : Strict inside := by
    show inside.program.view.Strict inside.cursor.method
    rw [hm]
    exact h1.forked forked body t'.program.view_tables inside.program.view_tables
  obtain rfl : t'.cursor.block = header := by rw [extended.block, looped.cursor]
  have hlive : inside.cursor.reachable = true → inside.program.view.Live t'.cursor.block := by
    rw [at_body]
    exact fun hreach => (forked.grown.live forked.keeps body.present).2 (body.live.1 hreach)
  show u.program.view.Strict u.cursor.method
  rw [back, behind]
  show View.Strict _ t'.cursor.method
  rw [← hm, ← ran.advance.method]
  exact (hbody h2).passed ran.finish.toPlaced inside'.program.view_tables ran.advance htarget hexit
    fun hreach _ => hlive hreach

end Statements

mutual

theorem Laid.strict {e : BlockId} {x : Syntax.Stmt} {s u : Builder} :
    Laid e x s u → Ran e s u → Strict s → Strict u
  | .straight _ _ extended, ran, hs => strict_extends extended ran.start hs
  | .left gone, ran, hs => gone.strict rfl ran hs
  | .leftWith _ extended gone, ran, hs => gone.strict extended.kinds ran hs
  | .conditional _ extended _ _ _ parts laid_left laid_right, ran, hs =>
      parts.strict (strict_extends extended ran.start hs) laid_left.strict laid_right.strict
  | .loop _ _ _ parts laid, _, hs => parts.strict hs laid.strict

/-- Whatever the statements, the pointers they leave miss no dominator. -/
theorem LaidAll.strict {e : BlockId} {watch : Bool} {x : Syntax.Sequence} {s u : Builder} :
    LaidAll e watch x s u → Strict s → Strict u
  | .nil, hs => hs
  | .cons _ _ laid ran after, hs =>
      after.strict (laid.strict ⟨ran.start, ran.finish, ran.advance⟩ hs)

end

end Build

end StructuredSsa
