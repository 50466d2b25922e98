import StructuredSsa.Proofs.CallSites
import StructuredSsa.Proofs.Methods

/-!
# Invariants of bodies

A body grows in four ways: code is added at the cursor, with new blocks that the
block there leads to (`Arrival`); a part of a conditional leaves for the block
behind it; that block is entered; the body of a loop goes back to its head. A
property that these steps keep (`Upheld`) holds whatever the statements are
(`LaidAll.upheld`).

Where the code itself matters, straight code is told from the ends of blocks: `Framed`
is about the latter only, and what straight code keeps is shown from its run
(`LaidAll.held`).

Where the methods of a program come from is said by `buildTokens_made`: each was
opened at its entry, got a body, and was left alone after that. So a property of
every finished method is shown in three steps: it holds when a body is opened,
building upholds it, and it survives closing the body.
-/

namespace StructuredSsa

namespace View

/-! ## What can happen in a body -/

/-- A block that was added while code was built at the cursor `c`. -/
inductive Arrival (w : View) (c : Cursor) (z : View) (b : BlockId) : Prop where
  /-- The block behind a conditional: nothing leads there yet. -/
  | waiting (kind : z.kind b = some (.join false)) (after : z.after b = none)
      (preds : z.preds b = []) (idom : z.idom b = none)
  /-- The block behind a return: nothing will lead there. -/
  | dead (kind : z.kind b = some .plain) (after : z.after b = none)
      (left : z.after c.block ≠ none) (preds : z.preds b = []) (idom : z.idom b = some c.block)
  /-- A block that a branch goes to. -/
  | led (left : z.after c.block = some c.bindings) (led : z.Led c b)
  /-- The head of a loop. -/
  | head {st : Bindings} (kind : z.kind b = some (.join true)) (after : z.after b = none)
      (left : z.after c.block ≠ none)
      (preds : z.preds b = if c.reachable = true then [c.block] else [])
      (idom : z.idom b = some c.block) (before : z.before b = some st)
      (placement : c.reachable = true → (w.tracked c.method).Nodup →
        Placement z b c.bindings (· ∈ w.tracked c.method) [] st)

/-- The block at the cursor `c` was ended and sealed, and what is new is empty. -/
structure Turned (w : View) (c : Cursor) (z : View) : Prop extends Since w c z where
  arrivals : ∀ b, w.kind b = none → z.kind b ≠ none → Arrival w c z b
  ended : ∃ v o, z.body c.block = w.body c.block ++ [v] ∧ z.op v = some o ∧ o.isTerminator = true
  sealed : ∃ st, z.after c.block = some st ∧ ∀ x v, st.get? x = some v →
    c.bindings.get? x = some v ∨ x = Bindings.returnName
  blank : ∀ b, w.kind b = none → z.kind b ≠ none → z.body b = []

/-- A property of a method that is kept where control goes to a block that was made
before, in a body with exit `e`: on to where two ways meet, and back to the head of a loop. -/
structure Rejoined (e : BlockId) (I : View → MethodId → Prop) : Prop where
  passed : ∀ {w : View} {c : Cursor} {j : BlockId}, w.InBody c e → w.Tables → Target w c j →
    w.kind j = some (.join false) → w.after j = none → w.idom j = none →
    I w c.method → I (w.depart c j) c.method
  met : ∀ {w z : View} {m : MethodId} {join branch : BlockId} {left right : Departure}
    {d : Cursor}, w.Tables → z.Tables → Meeting w m join branch left right →
    w.after branch ≠ none → Met w m join branch left right z d → I w m → I z m
  back : ∀ {w : View} {c : Cursor} {h q : BlockId} {reach : Bool}, w.InBody c e → w.Tables →
    Target w c h → w.kind h = some (.join true) → w.after h ≠ none → w.idom h = some q →
    w.preds h = (if reach = true then [q] else []) → (c.reachable = true → reach = true) →
    Above w.idom h c.block → I w c.method → I (w.depart c h) c.method

/-- A property of a method that the ends of blocks keep, in a body with exit `e`. -/
structure Framed (e : BlockId) (I : View → MethodId → Prop) : Prop extends Rejoined e I where
  turned : ∀ {w z : View} {c : Cursor}, w.InBody c e → w.Tables → z.Tables → z.Sound →
    Turned w c z → I w c.method → I z c.method

/-- A property of a method that is kept while its body with exit `e` is built. -/
structure Upheld (e : BlockId) (I : View → MethodId → Prop) : Prop extends Rejoined e I where
  since : ∀ {w z : View} {c : Cursor}, w.InBody c e → w.Tables → z.Tables → z.Sound →
    Since w c z → (∀ b, w.kind b = none → z.kind b ≠ none → Arrival w c z b) →
    I w c.method → I z c.method

theorem Upheld.framed {e : BlockId} {I : View → MethodId → Prop} (h : Upheld e I) : Framed e I where
  toRejoined := h.toRejoined
  turned hb hw hz hs k := h.since hb hw hz hs k.toSince k.arrivals

section Arrivals

variable {w z : View} {c : Cursor} {a b j d : BlockId} {v : ValueId}

theorem Forked.arrival (h : Forked w c v z a b) (hold : w.kind d = none) (hnew : z.kind d ≠ none) :
    Arrival w c z d := by
  rcases h.only d hold hnew with rfl | rfl
  · exact .led h.after h.left
  · exact .led h.after h.right

theorem Forked.turned (h : Forked w c v z a b) (hc : w.Open c) : Turned w c z where
  toSince := h.since hc
  arrivals _ hold hnew := h.arrival hold hnew
  ended := ⟨_, _, h.body, h.op, rfl⟩
  sealed := ⟨_, h.after, fun _ _ hv => Or.inl hv⟩
  blank d hold hnew := by
    rcases h.only d hold hnew with rfl | rfl
    · exact h.left.body
    · exact h.right.body

theorem Branched.arrival (h : Branched w c z a b j) (hold : w.kind d = none)
    (hnew : z.kind d ≠ none) : Arrival w c z d := by
  rcases h.only d hold hnew with rfl | rfl | rfl
  · exact .led h.after h.left
  · exact .led h.after h.right
  · exact .waiting h.kind h.join.after h.join.preds h.join.idom

theorem Branched.turned {y : View} (h : Branched w c z a b j) (hc : w.Open c)
    (hfork : Forked w c v y a b) (k : Keeps y z fun _ => False) : Turned w c z where
  toSince := h.since hc
  arrivals _ hold hnew := h.arrival hold hnew
  ended := ⟨_, _, (k.same _ (hfork.keeps.exists_kind hc.present) id).body.trans hfork.body,
    k.op _ _ hfork.op, rfl⟩
  sealed := ⟨_, h.after, fun _ _ hv => Or.inl hv⟩
  blank d hold hnew := by
    rcases h.only d hold hnew with rfl | rfl | rfl
    · exact h.left.body
    · exact h.right.body
    · exact h.join.body

/-- The way back does not bring the head of a loop to life. -/
theorem live_of_back {reach : Bool} {q head : BlockId} (hp : w.Placed c)
    (hkind : w.kind head = some (.join true))
    (hpreds : w.preds head = if reach = true then [q] else [])
    (hreach : c.reachable = true → reach = true) (hlive : (w.depart c head).Live head) :
    w.Live head := by
  refine Or.inr fun hnil => ?_
  have hne := hlive.resolve_left fun ⟨vs, hvs⟩ => by
    rw [depart_kept.1, hkind] at hvs
    cases hvs
  rw [preds_depart hp] at hne
  by_cases hc : c.reachable = true
  · rw [hpreds, if_pos (hreach hc)] at hnil
    cases hnil
  · rw [if_neg hc] at hne
    exact hne hnil

end Arrivals

/-! ## The start of a body -/

/-- At its start a body has the entry, where the cursor `c` was, the first block,
and the exit. -/
structure AtStart (w : View) (c : Cursor) (first e : BlockId) : Prop where
  sound : w.Sound
  entry : w.entry c.method = some c.block
  sealed : w.after c.block = some c.bindings
  led : w.Led c first
  waiting : w.ExitOpen c.method e
  blocks : ∀ b, w.home b = some c.method → b = c.block ∨ b = first ∨ b = e

theorem AtEntry.led {w : View} {c : Cursor} (h : w.AtEntry c) (ht : w.Tables) :
    ((w.entered c).addExit c.method).Led c ⟨w.blocks⟩ := by
  have k := keeps_newBlock ht c.method .plain
  have hp := h.toPlaced.newBlock ht .plain (by simp) (by simp)
  have hfresh := fresh_newBlock ht c.method .plain (by simp) (by simp)
  have hne : (⟨w.blocks⟩ : BlockId) ≠ c.block := fun he => h.present (he ▸ ht.fresh_kind)
  have hentered := entered_depart hp hne
  have hready := (h.started ht).ready
  have hdepart : (w.leftEntry c).kind ⟨w.blocks⟩ = some .plain := by
    rw [depart_kept.1]
    exact if_pos rfl
  have hlast : (⟨w.blocks⟩ : BlockId) ≠ ⟨(w.entered c).blocks⟩ := by
    have hblocks : (w.entered c).blocks = w.blocks + 1 := depart_kept.2.1
    simp [hblocks]
  have hkind : ((w.entered c).addExit c.method).kind ⟨w.blocks⟩ = some .plain :=
    (if_neg hlast).trans hdepart
  refine
    { kind := ⟨.plain, hkind, by simp, by simp⟩
      home := (if_neg hlast).trans hready.home
      owned := ?_
      body := hentered.body.trans hfresh.body
      after := hentered.after.trans hfresh.after
      phis := hentered.phis.trans hfresh.phis
      idom := idom_begin _ _ c.block c.bindings
      preds := (preds_depart hp).trans ?_
      plain := hkind
      before := if_pos rfl }
  · show _ ∈ if c.method = c.method then (w.entered c).owned c.method ++ _ else _
    rw [if_pos rfl]
    exact List.mem_append_left _ hready.owned
  · rw [hfresh.preds]
    rfl

end View

namespace Build

open View

theorem BodyOpen.atStart {s t : Builder} {e : BlockId} (h : BodyOpen s t e)
    (hs : s.program.view.AtEntry s.cursor) :
    t.program.view.AtStart s.cursor t.cursor.block e := by
  have ht := s.program.view_tables
  have hstarted := hs.started ht
  have hfirst : t.cursor.block = ⟨s.program.view.blocks⟩ := by rw [h.cursor]; rfl
  have hwaiting := h.inBody.waiting
  rw [h.method] at hwaiting
  have hexit : e = ⟨(s.program.view.entered s.cursor).blocks⟩ := by
    have he := hwaiting.exit
    rw [h.view] at he
    exact (Option.some.inj ((if_pos rfl).symm.trans he)).symm
  have hhomes (b : BlockId) : (s.program.view.entered s.cursor).home b
      = if b = ⟨s.program.view.blocks⟩ then some s.cursor.method else s.program.view.home b := by
    show ((s.program.view.newBlock s.cursor.method .plain).depart s.cursor
      ⟨s.program.view.blocks⟩).home b = _
    unfold View.depart
    split <;> rfl
  refine ⟨h.inBody.toSound, ?_, ?_, ?_, hwaiting, fun b hb => ?_⟩
  · rw [h.view]
    show (s.program.view.entered s.cursor).entry s.cursor.method = _
    rw [hstarted.keeps.entry]
    exact hs.start
  · rw [h.view]
    exact after_depart
  · rw [hfirst, h.view]
    exact hs.led ht
  · rw [hfirst, hexit]
    rw [h.view] at hb
    change (if b = ⟨(s.program.view.entered s.cursor).blocks⟩ then _ else
      (s.program.view.entered s.cursor).home b) = _ at hb
    split at hb
    · next hb' => exact Or.inr (Or.inr hb')
    · rw [hhomes] at hb
      split at hb
      · next hb' => exact Or.inr (Or.inl hb')
      · exact Or.inl (hs.alone b hb)

section Statements

variable {e : BlockId} {I : View → MethodId → Prop} {s t u : Builder}

theorem upheld_extends (hI : Upheld e I) (h : Extends s t) (hb : InBody s e)
    (hs : I s.program.view s.cursor.method) : I t.program.view t.cursor.method := by
  rw [h.advance.method]
  exact hI.since hb s.program.view_tables t.program.view_tables h.ready.toSound h.advance.toSince
    (fun b hold hnew => absurd hold (h.kinds ▸ hnew)) hs

/-- A return. -/
theorem Left.turned {value : Option ValueId} {c : Cursor} (h : Left t u e value c)
    (ht : InBody t e) : Turned t.program.view t.cursor u.program.view := by
  have htt := t.program.view_tables
  have hmethod : c.method = t.cursor.method := by
    have hhome := h.placed.home
    rw [h.block, ht.home] at hhome
    exact (Option.some.inj hhome).symm
  have hsince : Since t.program.view c (t.program.view.leave c e) :=
    (Advance.leave h.placed htt h.tables (hmethod ▸ ht.waiting)).toSince
  have hbindings := h.bindings
  have hview := h.view
  have htables := h.tables
  have hpresent := h.placed.present
  have hblock := h.block
  obtain ⟨m, b, st, reach⟩ := c
  dsimp only at hmethod hblock hpresent
  subst hmethod hblock
  -- the only new block is the one behind the return
  have hnew {d : BlockId} (hold : t.program.view.kind d = none) (hd : u.program.view.kind d ≠ none) :
      d = ⟨t.program.view.blocks⟩ := by
    by_contra hne
    refine hd ?_
    rw [hview]
    show (if d = ⟨(t.program.view.depart _ e).blocks⟩ then _ else
      (t.program.view.depart _ e).kind d) = none
    rw [depart_kept.2.1, if_neg hne, depart_kept.1]
    exact hold
  have hfresh := fresh_dead htables
  have hafter : u.program.view.after t.cursor.block = some st := by
    rw [hview]
    exact after_depart
  refine ⟨?_, fun d hold hd => ?_, ⟨⟨t.program.view.values⟩, .jump e, ?_, ?_, rfl⟩,
    ⟨st, hafter, fun x v hv => ?_⟩, fun d hold hd => ?_⟩
  · rw [hview]
    exact { hsince with }
  · obtain rfl := hnew hold hd
    have hpreds : u.program.view.preds ⟨t.program.view.blocks⟩ = [] := by
      rw [hview]
      exact hfresh.preds
    refine .dead ?_ ?_ (by simp [hafter]) hpreds ?_
    · rw [hview]
      show (if (⟨t.program.view.blocks⟩ : BlockId) = ⟨(t.program.view.depart _ e).blocks⟩ then _
        else _) = some BlockKind.plain
      rw [depart_kept.2.1]
      exact if_pos rfl
    · rw [hview]
      exact hfresh.after
    · rw [hview]
      exact idom_begin ..
  · rw [hview]
    exact body_depart
  · rw [hview]
    exact op_depart
  · obtain ⟨kind, hkind⟩ := Option.ne_none_iff_exists'.1 ht.has_method
    have hst : st = leavingWith kind t.cursor.bindings value := hbindings kind hkind
    rw [hst] at hv
    unfold leavingWith at hv
    split at hv
    · rw [Bindings.get?_bind] at hv
      split at hv
      · next hx => exact Or.inr hx
      · exact Or.inl hv
    · exact Or.inl hv
  · obtain rfl := hnew hold hd
    rw [hview]
    exact hfresh.body

theorem Looped.turned {header : BlockId} {z : View} (h : Looped s t header z) (ran : Ran e s t) :
    Turned s.program.view s.cursor t.program.view := by
  have hheader {b : BlockId} (hold : s.program.view.kind b = none)
      (hnew : t.program.view.kind b ≠ none) : b = header := by
    rw [h.view] at hnew
    by_contra hne
    exact hnew ((h.headed.only b hne).trans hold)
  have hafter : t.program.view.after s.cursor.block = some s.cursor.bindings := by
    rw [h.view]
    exact h.headed.departed.after
  refine ⟨ran.advance.toSince, fun b hold hnew => ?_,
    ⟨⟨s.program.view.values⟩, .jump header, ?_, ?_, rfl⟩, ⟨_, hafter, fun _ _ hv => Or.inl hv⟩,
    fun b hold hnew => ?_⟩
  · obtain rfl := hheader hold hnew
    rw [h.view]
    refine .head h.headed.kind h.headed.blank.after ?_ h.headed.preds h.headed.idom (if_pos rfl)
      fun hreach hnodup => (h.placement hreach hnodup).of_same rfl fun _ _ _ => Iff.rfl
    rw [← h.view, hafter]
    simp
  · rw [h.view]
    exact h.headed.body
  · rw [h.view]
    exact h.headed.op
  · obtain rfl := hheader hold hnew
    rw [h.view]
    exact h.headed.blank.body

theorem framed_turned (hI : Framed e I) (h : Turned s.program.view s.cursor t.program.view)
    (hb : InBody s e) (ht : t.program.view.Sound) (hm : t.cursor.method = s.cursor.method)
    (hs : I s.program.view s.cursor.method) : I t.program.view t.cursor.method := by
  rw [hm]
  exact hI.turned hb s.program.view_tables t.program.view_tables ht h hs

/-- The end of a part of a conditional, in a block that the branch leads to. -/
theorem framed_passed {j : BlockId} (hI : Framed e I) (ran : Ran e s t)
    (hj : Target s.program.view s.cursor j)
    (hexit : s.program.view.exit s.cursor.method ≠ some j)
    (hkind : s.program.view.kind j = some (.join false)) (hafter : s.program.view.after j = none)
    (hidom : s.program.view.idom j = none) (ht : I t.program.view t.cursor.method) :
    I (t.program.view.depart t.cursor j) t.cursor.method := by
  have hsame := ran.advance.same j hj.present fun hS => hS.elim hj.apart hexit
  exact hI.passed ran.finish t.program.view_tables (hj.advance ran.advance hexit)
    (hsame.kind.trans hkind) (hsame.after.trans hafter) (hsame.idom.trans hidom) ht

theorem Conditional.framed {left left' right right' ends : Builder} {v : ValueId} {a b j : BlockId}
    (hI : Framed e I) (h : Conditional e t left left' right right' ends u v a b j)
    (hs : I t.program.view t.cursor.method)
    (hleft : I left.program.view left.cursor.method → I left'.program.view left'.cursor.method)
    (hright : I right.program.view right.cursor.method →
      I right'.program.view right'.cursor.method) : I u.program.view u.cursor.method := by
  obtain ⟨hm_left, htarget_left, hexit_left⟩ := h.target_left
  obtain ⟨hm_right, htarget_right, hexit_right⟩ := h.target_right h.passed_left h.at_right
  obtain ⟨⟨body, ⟨y, forked, kept⟩, branched, at_left⟩, ran_left, passed_left, between, at_right,
    ran_right, passed_right, behind, met⟩ := h
  have hjoin := branched.join
  -- the branch, and the first part
  have h1 : I left.program.view left.cursor.method :=
    framed_turned hI (branched.turned body.toOpen forked kept) body branched.sound hm_left hs
  have h2 : I right.program.view right.cursor.method := by
    rw [between, hm_right, ← hm_left, ← ran_left.advance.method]
    exact framed_passed hI ran_left htarget_left hexit_left branched.kind hjoin.after hjoin.idom
      (hleft h1)
  -- the second part, which finds the block behind the conditional as the first one left it
  rw [at_left] at passed_left
  have htarget := passed_left.target
  have h3 : I ends.program.view t.cursor.method := by
    rw [behind, ← hm_right, ← ran_right.advance.method]
    exact framed_passed hI ran_right htarget_right hexit_right
      (passed_left.keeps.kind _ _ branched.kind) (htarget.after.trans hjoin.after)
      (htarget.idom.trans hjoin.idom) (hright h2)
  rw [at_right] at passed_right
  have hbranch : ends.program.view.after t.cursor.block ≠ none := by
    refine (passed_left.keeps.trans passed_right.keeps).after_of_ne ?_
    rw [branched.after]
    simp
  rw [met.method]
  exact hI.met ends.program.view_tables u.program.view_tables
    (branched.meeting body right.program.view_tables passed_left passed_right) hbranch met h3

theorem Loop.framed {t' inside inside' : Builder} {v : ValueId} {header a b : BlockId}
    (hI : Framed e I) (h : Loop e s t t' inside inside' u v header a b)
    (hs : I s.program.view s.cursor.method)
    (htest : I t.program.view t.cursor.method → I t'.program.view t'.cursor.method)
    (hbody : I inside.program.view inside.cursor.method →
      I inside'.program.view inside'.cursor.method) : I u.program.view u.cursor.method := by
  obtain ⟨hm, htarget, hexit⟩ := h.target
  obtain ⟨⟨⟨z, looped⟩, entered, extended, forked, at_body⟩, ran, -, back, behind⟩ := h
  have body : InBody t' e := entered.finish.extends extended
  have h1 : I t.program.view t.cursor.method :=
    framed_turned hI (looped.turned entered) entered.start entered.finish.toSound
      entered.advance.method hs
  have h2 : I inside.program.view inside.cursor.method :=
    framed_turned hI (forked.turned body.toOpen) body forked.sound hm (htest h1)
  obtain rfl : t'.cursor.block = header := by rw [extended.block, looped.cursor]
  -- the head is as it was entered: the test was added to it, and the body left it alone
  have hhead := looped.headed
  have k : Keeps t.program.view inside'.program.view fun _ => True :=
    ((extended.keeps.trans forked.keeps).trans ran.advance.toKeeps).weaken fun _ _ _ => trivial
  have hsame := ran.advance.same _ htarget.present fun hS => hS.elim htarget.apart hexit
  have hpreds : inside'.program.view.preds t'.cursor.block
      = if s.cursor.reachable = true then [s.cursor.block] else [] := by
    have hgrown := extended.advance.start
    rw [← extended.block] at hgrown
    rw [hsame.preds, forked.grown.preds, hgrown.preds, looped.view]
    exact hhead.preds
  have hafter : inside'.program.view.after t'.cursor.block ≠ none := by
    rw [hsame.after, forked.after]
    simp
  have hreach : inside'.cursor.reachable = true → s.cursor.reachable = true := by
    intro hr
    have hinside := ran.advance.live hr
    rw [at_body] at hinside
    exact entered.advance.live (extended.advance.live hinside)
  have habove : Above inside'.program.view.idom t'.cursor.block inside'.cursor.block := by
    have hstart : inside.program.view.idom inside.cursor.block = some t'.cursor.block := by
      rw [at_body]
      exact forked.left.idom
    exact (Above.single (ran.advance.idom _ _ hstart)).trans ran.advance.above
  rw [back, behind]
  show I _ t'.cursor.method
  rw [← hm, ← ran.advance.method]
  refine hI.back ran.finish inside'.program.view_tables (htarget.advance ran.advance hexit)
    (k.kind _ _ ?_) hafter (k.idom _ _ ?_) hpreds hreach habove (hbody h2)
  · rw [looped.view]
    exact hhead.kind
  · rw [looped.view]
    exact hhead.idom

end Statements

mutual

theorem Laid.held {e : BlockId} {I : View → MethodId → Prop} {K : CallSite → Prop} (hI : Framed e I)
    (hE : ∀ {s t : Builder}, InBody s e → Extends s t → Straight K s t →
      I s.program.view s.cursor.method → I t.program.view t.cursor.method)
    {x : Syntax.Stmt} {s u : Builder} : Laid e x s u → Ran e s u →
      (∀ κ, stmtMakes x s κ → K κ) → I s.program.view s.cursor.method →
      I u.program.view u.cursor.method
  | .straight plain run extended, ran, hK, hs => hE ran.start extended (.stmt plain run hK) hs
  | .left gone, ran, _, hs =>
      framed_turned hI (gone.turned ran.start) ran.start ran.finish.toSound ran.advance.method hs
  | .leftWith run extended gone, ran, hK, hs => by
      have ht := ran.start.extends extended
      simp only [stmtMakes] at hK
      refine framed_turned hI (gone.turned ht) ht ran.finish.toSound
        (ran.advance.method.trans extended.advance.method.symm) ?_
      exact hE ran.start extended (.expr run hK) hs
  | .conditional test extended opened run_left turned parts laid_left laid_right, ran, hK, hs => by
      simp only [stmtMakes] at hK
      have hnext := (bind_run (f := fun _ => nextPart _ _ _ _) run_left).trans turned
      exact parts.framed hI (hE ran.start extended (.relation test fun κ h => hK κ (.inl h)) hs)
        (laid_left.held hI hE fun κ h => hK κ (.inr ⟨_, _, opened, .inl h⟩))
        (laid_right.held hI hE fun κ h => hK κ (.inr ⟨_, _, opened, .inr ⟨_, _, hnext, h⟩⟩))
  | .loop entered test opened parts laid, ran, hK, hs => by
      simp only [stmtMakes] at hK
      exact parts.framed hI hs
        (hE parts.entered.finish parts.extended
          (.relation test fun κ h => hK κ (.inl ⟨_, _, entered, h⟩)))
        (laid.held hI hE fun κ h => hK κ (.inr ⟨_, _, opened, h⟩))

/-- What the ends of blocks keep, and straight code with it, holds behind a sequence of
statements if it held before it. -/
theorem LaidAll.held {e : BlockId} {I : View → MethodId → Prop} {K : CallSite → Prop}
    (hI : Framed e I)
    (hE : ∀ {s t : Builder}, InBody s e → Extends s t → Straight K s t →
      I s.program.view s.cursor.method → I t.program.view t.cursor.method)
    {watch : Bool} {x : Syntax.Sequence} {s u : Builder} : LaidAll e watch x s u →
      (∀ κ, sequenceMakes watch x s κ → K κ) → I s.program.view s.cursor.method →
      I u.program.view u.cursor.method
  | .nil, _, hs => hs
  | .cons announced run laid ran after, hK, hs => by
      simp only [sequenceMakes] at hK
      refine after.held hI hE (fun κ h => hK κ ⟨_, _, announced, .inr ⟨_, _, run, h⟩⟩) ?_
      exact laid.held hI hE ⟨ran.start, ran.finish, ran.advance⟩
        (fun κ h => hK κ ⟨_, _, announced, .inl h⟩) hs

end

/-- What is upheld holds behind a sequence of statements if it held before it. -/
theorem LaidAll.upheld {e : BlockId} {I : View → MethodId → Prop} (hI : Upheld e I)
    {watch : Bool} {x : Syntax.Sequence} {s u : Builder} (h : LaidAll e watch x s u)
    (hs : I s.program.view s.cursor.method) : I u.program.view u.cursor.method :=
  h.held (K := fun _ => True) hI.framed (fun hb k _ => upheld_extends hI k hb) (fun _ _ => trivial) hs

end Build

end StructuredSsa
