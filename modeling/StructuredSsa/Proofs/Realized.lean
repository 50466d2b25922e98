import StructuredSsa.Proofs.Emitted
import StructuredSsa.Proofs.PhiPlacement
import StructuredSsa.Proofs.Reducible

/-!
# The code of statements

The blocks of a finished body are the code of its statements in the sense of
`Machine.Code.Implements` (`LaidAll.implements`). While a body is built its blocks
are not finished: a block gets its phis when it is entered, its operands when the
method is closed, and dead code is removed. `Later` is what stays of a block that
control gets to, from any point of the construction up to the end.

Where control enters a block with what one way left bound, a variable is held by a
phi of the block that takes it from there, or by the same value as before. The
value is then from further up: a block whose values come around to it again is the
head of a loop (`Ordered.wayBack`), and heads have phis for all variables.
-/

namespace StructuredSsa

open Machine

namespace View

/-! ## From one point of the construction to a later one -/

/-- A block that control gets to, at a later point. -/
structure LaterAt (w z : View) (b : BlockId) : Prop where
  body : w.body b <+: z.body b
  preds : w.preds b ⊆ z.preds b
  idom : ∀ d, w.idom b = some d → z.idom b = some d
  begun : w.idom b ≠ none → z.before b = w.before b ∧ z.phis b = w.phis b
  sealed : ∀ st, w.after b = some st → z.after b = some st ∧ z.body b = w.body b

/-- What stays of the code that control gets to. -/
structure Later (w z : View) : Prop where
  op : ∀ v o, w.op v = some o → o.isPhi = false → z.op v = some o
  kind : ∀ b k, w.kind b = some k → z.kind b = some k
  home : ∀ b m, w.home b = some m → z.home b = some m
  tracked : z.tracked = w.tracked
  block : ∀ b, w.Live b → LaterAt w z b

section Later

variable {w z y : View} {b e : BlockId} {c : Cursor}

theorem Later.live (h : Later w z) (hb : w.Live b) : z.Live b := by
  rcases hb with ⟨vs, hvs⟩ | hpreds
  · exact Or.inl ⟨vs, h.kind b _ hvs⟩
  · obtain ⟨q, hq⟩ := List.exists_mem_of_ne_nil _ hpreds
    exact Or.inr (List.ne_nil_of_mem ((h.block b (Or.inr hpreds)).preds hq))

theorem Later.trans (h : Later w z) (k : Later z y) : Later w y where
  op v o ho hno := k.op v o (h.op v o ho hno) hno
  kind b l hl := k.kind b l (h.kind b l hl)
  home b m hm := k.home b m (h.home b m hm)
  tracked := k.tracked.trans h.tracked
  block b hb := by
    have hz := h.block b hb
    have hy := k.block b (h.live hb)
    refine ⟨hz.body.trans hy.body, fun q hq => hy.preds (hz.preds hq), ?_, ?_, ?_⟩
    · intro d hd
      exact hy.idom d (hz.idom d hd)
    · intro hidom
      obtain ⟨hbefore, hphis⟩ := hz.begun hidom
      obtain ⟨d, hd⟩ := Option.ne_none_iff_exists'.1 hidom
      obtain ⟨hbefore', hphis'⟩ := hy.begun (by simp [hz.idom d hd])
      exact ⟨hbefore'.trans hbefore, hphis'.trans hphis⟩
    · intro st hst
      obtain ⟨hafter, hbody⟩ := hz.sealed st hst
      obtain ⟨hafter', hbody'⟩ := hy.sealed st hafter
      exact ⟨hafter', hbody'.trans hbody⟩

theorem Same.laterAt (h : Same w z b) : LaterAt w z b where
  body := h.body ▸ List.prefix_rfl
  preds := h.preds ▸ fun _ hq => hq
  idom _ hd := h.idom.trans hd
  begun _ := ⟨h.before, h.phis⟩
  sealed _ hst := ⟨h.after.trans hst, h.body⟩

theorem Grown.laterAt (h : Grown w z b) (hopen : w.after b = none) : LaterAt w z b where
  body := h.body
  preds := h.preds ▸ fun _ hq => hq
  idom _ hd := h.idom.trans hd
  begun _ := ⟨h.before, h.phis⟩
  sealed _ hst := by
    rw [hopen] at hst
    cases hst

theorem Entered.laterAt (h : Entered w z b) : LaterAt w z b where
  body := h.body ▸ List.prefix_rfl
  preds := h.preds.subset
  idom _ hd := h.idom.trans hd
  begun _ := ⟨h.before, h.phis⟩
  sealed _ hst := ⟨h.after.trans hst, h.body⟩

theorem Keeps.later {S : BlockId → Prop} (k : Keeps w z S) (ht : w.Tables)
    (hS : ∀ b, w.kind b ≠ none → S b → LaterAt w z b) : Later w z where
  op v o ho _ := k.op v o ho
  kind := k.kind
  home := k.home
  tracked := funext k.tracked
  block b hb := by
    have hpresent := ht.present_of_live hb
    by_cases hs : S b
    · exact hS b hpresent hs
    · exact (k.same b hpresent hs).laterAt

theorem Since.later (k : Since w c z) (ht : w.Tables) (hc : w.Open c) : Later w z := by
  refine k.toKeeps.later ht fun b _ hb => ?_
  rcases hb with rfl | hexit
  · exact k.start.laterAt hc.opened
  · exact (k.exit b hexit).laterAt

theorem later_depart (hp : w.Placed c) (ht : w.Tables) (hne : b ≠ c.block) :
    Later w (w.depart c b) := by
  refine (keeps_depart hp.toOpen ht b).later ht fun a _ ha => ?_
  rcases ha with rfl | ⟨-, rfl⟩
  · exact (grown_depart hne).laterAt hp.opened
  · exact (entered_depart hp hne).laterAt

theorem Met.later {m : MethodId} {join branch : BlockId} {left right : Departure} {d : Cursor}
    (h : Met w m join branch left right z d) (hmeet : Meeting w m join branch left right)
    (ht : w.Tables) : Later w z := by
  refine h.keeps.later ht fun b _ hb => ?_
  subst hb
  have hblank := hmeet.blank
  refine ⟨?_, h.preds ▸ fun _ hq => hq, ?_, ?_, ?_⟩
  · rw [hblank.body]
    exact List.nil_prefix
  · intro d hd
    rw [hmeet.idom] at hd
    cases hd
  · intro hidom
    exact absurd hmeet.idom hidom
  · intro st hst
    rw [hblank.after] at hst
    cases hst

/-- Closing a body finishes its exit, which was empty, and removes only dead code. -/
theorem Settled.later (h : Settled w z e) (hbody : w.body e = []) (hafter : w.after e = none)
    (hidom : w.idom e = none) : Later w z where
  op := h.op
  kind b k hk := h.kind ▸ hk
  home b m hm := h.home ▸ hm
  tracked := h.tracked
  block b hb := by
    have hpreds : w.preds b ⊆ z.preds b := h.preds ▸ fun _ hq => hq
    by_cases hbe : b = e
    · subst hbe
      refine ⟨hbody ▸ List.nil_prefix, hpreds, ?_, ?_, ?_⟩
      · intro d hd
        rw [hidom] at hd
        cases hd
      · intro hne
        exact absurd hidom hne
      · intro st hst
        rw [hafter] at hst
        cases hst
    · obtain ⟨hphis, hbody⟩ := h.contents b hb hbe
      refine ⟨hbody ▸ List.prefix_rfl, hpreds, ?_, ?_, ?_⟩
      · intro d hd
        exact (h.idom b hbe).trans hd
      · intro _
        exact ⟨h.before b hbe, hphis⟩
      · intro st hst
        exact ⟨(h.after b hbe).trans hst, hbody⟩

end Later

/-! ## A finished method -/

/-- The body of the computation with exit `e`, when it is finished. -/
structure Done (z : View) (m : MethodId) (e : BlockId) : Prop where
  sound : z.Sound
  closed : z.Closed m e
  placing : z.Placing m
  ordered : z.Ordered m
  entry : ∃ a, z.entry m = some a
  phis : z.phis e = []
  ret : ∃ r, z.body e = [r] ∧ z.op r = some (.ret none)

/-- A block that control gets to, with what is bound on entry to it. -/
structure Entrance (z : View) (m : MethodId) (b : BlockId) (st : Bindings) : Prop where
  home : z.home b = some m
  live : z.Live b
  idom : z.idom b ≠ none
  not_exit : z.kind b ≠ some .exit
  before : z.before b = some st
  known : ∀ x v, st.get? x = some v → x ∈ z.tracked m

section Done

variable {z w : View} {m : MethodId} {e b : BlockId} {st : Bindings} {x : String} {v : ValueId}
  {c : Cursor}

/-- A variable is held by a phi of the block, or by what all ways to it left bound,
which is none of the values of the block. -/
theorem Done.bound (h : z.Done m e) (hb : z.Entrance m b st) (hx : st.get? x = some v) :
    z.SolePhi b x v ∨ v ∉ z.contents b ∧ z.Agree b x v := by
  have hbinds := h.placing.binds b hb.home hb.live hb.idom hb.not_exit x (hb.known x v hx)
  have hsame {u : ValueId} (hu : z.Begins b x u) : u = v := by
    obtain ⟨st', hst', hu⟩ := hu
    obtain rfl := Option.some.inj (hb.before.symm.trans hst')
    exact Option.some.inj (hu.symm.trans hx)
  by_cases hhead : z.kind b = some (.join true)
  · obtain ⟨u, hu, hbegins⟩ := hbinds.head hhead
    exact Or.inl (hsame hbegins ▸ hu)
  by_cases hagree : ∃ u, z.Agree b x u
  · obtain ⟨u, hagree⟩ := hagree
    obtain ⟨-, hbegins⟩ := hbinds.agreed hhead u hagree
    obtain rfl := hsame hbegins
    refine Or.inr ⟨fun hmem => hhead ?_, hagree⟩
    -- The value would be above a block that leads here, and so would this block.
    have hnot : ¬z.IsEntry b := fun hentry => hb.idom (h.sound.scoping.entry_idom b hentry)
    obtain ⟨q, hq⟩ := List.exists_mem_of_ne_nil _ (hb.live.resolve_left hnot)
    have hedge := (h.sound.wired.edge q b).2 hq
    have hlive := h.sound.wired.edge_live q b hedge
    have hexit : z.kind q ≠ some .exit := by
      intro hk
      rw [h.sound.wired.exit_succs q hk] at hedge
      cases hedge
    obtain ⟨st', hst', hu⟩ := hagree q hq
    obtain ⟨d, hd, habove⟩ := h.sound.scoping.after_above q st' x u hlive hst' hexit hu
    obtain rfl := Option.some.inj (((h.sound.wired.listed u b).1 hmem).symm.trans hd)
    obtain ⟨a, ha⟩ := h.entry
    have howned := h.sound.wired.live_owned q m hlive
      ((h.sound.wired.edge_home q b hedge).symm.trans hb.home)
    exact (h.ordered.wayBack h.closed h.sound ha howned hedge habove).1
  · obtain ⟨u, hu, hbegins⟩ := hbinds.differ hhead hagree
    exact Or.inl (hsame hbegins ▸ hu)

theorem Done.apart (h : z.Done m e) (hb : z.Entrance m b st) :
    (Place.mk b (z.body b) st).Apart where
  nodup := by
    refine (h.sound.wired.body_sorted b).imp ?_
    rintro u v hlt rfl
    exact Nat.lt_irrefl _ hlt
  unheld x v hv hmem := by
    rcases h.bound hb hv with hphi | ⟨hnot, -⟩
    · obtain ⟨y, os, hop⟩ := h.sound.wired.phi_of_phis v b hphi.mem
      obtain ⟨op, hop', hno⟩ := h.sound.wired.not_phi_of_body v b hmem
      obtain rfl := Option.some.inj (hop.symm.trans hop')
      cases hno
    · exact hnot (List.mem_append_right _ hmem)

/-- The place of a cursor in code that was finished later. -/
def placeOf (z w : View) (c : Cursor) : Place :=
  ⟨c.block, (z.body c.block).drop (w.body c.block).length, c.bindings⟩

/-- The block at the cursor `c` was left for `b`. -/
structure Gone (w : View) (c : Cursor) (y : View) (b : BlockId) : Prop where
  jump : ∃ j, y.body c.block = w.body c.block ++ [j] ∧ y.op j = some (.jump b)
  after : y.after c.block = some c.bindings
  pred : c.block ∈ y.preds b
  live : y.Live c.block

theorem gone_depart (hp : w.Placed c) (hne : b ≠ c.block) (ht : w.Tables)
    (hreach : c.reachable = true) : Gone w c (w.depart c b) b where
  jump := ⟨_, body_depart, op_depart⟩
  after := after_depart
  pred := by
    rw [preds_depart hp, if_pos hreach]
    exact List.mem_append_right _ (List.mem_singleton_self _)
  live := (later_depart hp ht hne).live (hp.live.1 hreach)

/-- Nothing was added to a block since it was left. -/
theorem Gone.place {y : View} (h : Gone w c y b) (hlater : Later y z) :
    ∃ j, z.placeOf w c = ⟨c.block, [j], c.bindings⟩ ∧ z.op j = some (.jump b)
      ∧ z.after c.block = some c.bindings ∧ c.block ∈ z.preds b := by
  obtain ⟨j, hbody, hop⟩ := h.jump
  obtain ⟨hafter, hdone⟩ := (hlater.block c.block h.live).sealed c.bindings h.after
  refine ⟨j, ?_, hlater.op _ _ hop rfl, hafter,
    (hlater.block b (Or.inr (List.ne_nil_of_mem h.pred))).preds h.pred⟩
  rw [placeOf, hdone, hbody, List.drop_left]

/-- A block is entered from one that was left for it. -/
theorem Done.enters {y : View} (h : z.Done m e) (hb : z.Entrance m b st) (hgone : Gone w c y b)
    (hlater : Later y z) : z.code.Enters (z.placeOf w c) ⟨b, z.body b, st⟩ := by
  obtain ⟨j, hplace, hjump, hafter, hpred⟩ := hgone.place hlater
  rw [hplace]
  refine ⟨⟨_, rfl, hjump⟩, rfl, ?_, ?_, h.apart hb⟩
  · intro v hv
    have howned := h.sound.wired.live_owned b m hb.live hb.home
    obtain ⟨x, os, hop, hsources⟩ := h.closed.filled b howned v hv
    have hmem : c.block ∈ os.map (·.1) := hsources ▸ hpred
    cases hlook : os.lookup c.block with
    | none =>
        obtain ⟨o, ho, hsource⟩ := List.mem_map.1 hmem
        have hne := List.lookup_eq_none_iff.1 hlook o ho
        simp [hsource] at hne
    | some u =>
        obtain ⟨front, behind, hsplit, -⟩ := List.lookup_eq_some_iff.1 hlook
        obtain ⟨-, st', hst', hu⟩ :=
          h.sound.scoping.phi_operand v b x os c.block u hv hop (by simp [hsplit])
        obtain rfl := Option.some.inj (hafter.symm.trans hst')
        exact ⟨x, os, u, hop, hlook, hu⟩
  · intro x v hv
    rcases h.bound hb hv with hphi | ⟨hnot, hagree⟩
    · exact Or.inl ⟨hphi.mem, hphi.label⟩
    · obtain ⟨st', hst', hx⟩ := hagree c.block hpred
      obtain rfl := Option.some.inj (hafter.symm.trans hst')
      exact Or.inr ⟨fun hmem => hnot (List.mem_append_left _ hmem), hx⟩

/-- The exit is entered from a block that was left for it. -/
theorem Done.exits {y : View} (h : z.Done m e) (hgone : Gone w c y e) (hlater : Later y z) :
    z.code.Exits (z.placeOf w c).rest := by
  obtain ⟨j, hplace, hjump, -, -⟩ := hgone.place hlater
  obtain ⟨r, hbody, hop⟩ := h.ret
  rw [hplace]
  exact ⟨_, e, r, rfl, hjump, h.phis, hbody, hop⟩

theorem Led.entrance {a : BlockId} (h : w.Led c a) (hlater : Later w z) (hm : c.method = m)
    (hreach : c.reachable = true)
    (hknown : ∀ x v, c.bindings.get? x = some v → x ∈ w.tracked c.method) :
    z.Entrance m a c.bindings := by
  have hlive : w.Live a := by
    refine Or.inr ?_
    simp [h.preds, hreach]
  have hblock := hlater.block a hlive
  refine ⟨hm ▸ hlater.home _ _ h.home, hlater.live hlive, ?_, ?_, ?_, ?_⟩
  · simp [hblock.idom _ h.idom]
  · simp [hlater.kind _ _ h.plain]
  · exact (hblock.begun (by simp [h.idom])).1.trans h.before
  · rw [hlater.tracked, ← hm]
    exact hknown

/-- A block that a branch leads to. -/
theorem Led.opens {a : BlockId} (h : w.Led c a) (hd : z.Done m e) (hlater : Later w z)
    (ha : z.Entrance m a c.bindings) (hreach : c.reachable = true) :
    z.code.Opens c.bindings ⟨a, z.body a, c.bindings⟩ where
  start := rfl
  phis := by
    have hlive : w.Live a := by
      refine Or.inr ?_
      simp [h.preds, hreach]
    exact ((hlater.block a hlive).begun (by simp [h.idom])).2.trans h.phis
  bindings := rfl
  apart := hd.apart ha

/-- A branch ended the block at the cursor. -/
theorem Done.forks {y : View} {a : BlockId} {j : ValueId} (h : z.Done m e) (hlater : Later y z)
    (hlive : y.Live c.block) (hbody : y.body c.block = w.body c.block ++ [j])
    (hop : y.op j = some (.branch v a b)) (hafter : y.after c.block = some c.bindings)
    (hleft : y.Led c a) (hright : y.Led c b) (hreach : c.reachable = true)
    (ha : z.Entrance m a c.bindings) (hb : z.Entrance m b c.bindings) :
    z.code.Forks (z.placeOf w c).rest c.bindings v ⟨a, z.body a, c.bindings⟩
      ⟨b, z.body b, c.bindings⟩ where
  branch := by
    obtain ⟨-, hdone⟩ := (hlater.block c.block hlive).sealed _ hafter
    refine ⟨j, ?_, hlater.op _ _ hop rfl⟩
    show (z.body c.block).drop (w.body c.block).length = _
    rw [hdone, hbody, List.drop_left]
  onTrue := hleft.opens h hlater ha hreach
  onFalse := hright.opens h hlater hb hreach

end Done

end View

namespace Build

open View

variable {s t u : Builder} {z : View} {m : MethodId} {e : BlockId}

/-- The place of the cursor in code that was finished later. -/
abbrev place (s : Builder) (z : View) : Place := z.placeOf s.program.view s.cursor

/-- Where control is behind what was built up to `s`. -/
def placeBehind (s : Builder) (z : View) : Option Place :=
  if s.cursor.reachable = true then some (place s z) else none

/-- Code that was added at the cursor comes next there. -/
theorem place_of_added {code : List ValueId} (hlater : Later t.program.view z)
    (hlive : t.program.view.Live s.cursor.block) (hblock : t.cursor.block = s.cursor.block)
    (hbody : t.program.view.body s.cursor.block = s.program.view.body s.cursor.block ++ code) :
    place s z = ⟨s.cursor.block, code ++ (place t z).rest, s.cursor.bindings⟩ := by
  obtain ⟨more, hmore⟩ := (hlater.block _ hlive).body
  unfold place placeOf
  rw [hblock, ← hmore, List.drop_left, hbody, List.append_assoc, List.drop_left]

/-- The cursor is at the start of its block. -/
structure AtTop (s : Builder) : Prop where
  body : s.program.view.body s.cursor.block = []
  idom : s.program.view.idom s.cursor.block ≠ none
  before : s.program.view.before s.cursor.block = some s.cursor.bindings

theorem place_of_empty (h : s.program.view.body s.cursor.block = []) (z : View) :
    place s z = ⟨s.cursor.block, z.body s.cursor.block, s.cursor.bindings⟩ := by
  unfold place placeOf
  rw [h]
  rfl

theorem AtTop.entrance (h : AtTop s) (hlater : Later s.program.view z) (hs : InBody s e)
    (hm : s.cursor.method = m) (hreach : s.cursor.reachable = true) :
    z.Entrance m s.cursor.block s.cursor.bindings := by
  have hlive := hs.live.1 hreach
  obtain ⟨d, hd⟩ := Option.ne_none_iff_exists'.1 h.idom
  obtain ⟨k, hk⟩ := Option.ne_none_iff_exists'.1 hs.present
  have hblock := hlater.block _ hlive
  refine ⟨hm ▸ hlater.home _ _ hs.home, hlater.live hlive, ?_, ?_, ?_, ?_⟩
  · simp [hblock.idom d hd]
  · rw [hlater.kind _ k hk, ← hk]
    exact hs.not_exit
  · exact (hblock.begun h.idom).1.trans h.before
  · rw [hlater.tracked, ← hm]
    exact hs.known hreach

/-- What is kept of a body that is under construction. -/
theorem Ran.later (h : Ran e s t) : Later s.program.view t.program.view :=
  h.advance.toSince.later s.program.view_tables h.start.toOpen

/-- A block is entered at its top. -/
theorem AtTop.enters (h : AtTop u) (hd : z.Done m e) (hz : Later u.program.view z)
    (hu : InBody u e) (hm : u.cursor.method = m) (hreach : u.cursor.reachable = true) {y : View}
    (hgone : Gone s.program.view s.cursor y u.cursor.block) (hlater : Later y z) :
    z.code.Enters (place s z) (place u z) := by
  rw [place_of_empty h.body]
  exact hd.enters (h.entrance hz hu hm hreach) hgone hlater

theorem eq_place_of_behind {p : Place} (h : placeBehind s z = some p) :
    s.cursor.reachable = true ∧ p = place s z := by
  unfold placeBehind at h
  split at h
  · next hreach => exact ⟨hreach, (Option.some.inj h).symm⟩
  · cases h

theorem placeBehind_of_reachable (h : s.cursor.reachable = true) :
    placeBehind s z = some (place s z) :=
  if_pos h

section Statements

variable {v : ValueId} {a b j : BlockId}

theorem Met.idom_ne {w y : View} {branch : BlockId} {left right : Departure} {d : Cursor}
    (h : Met w m j branch left right y d) : y.idom j ≠ none := by
  cases hl : left.reachable <;> cases hr : right.reachable
  · simp [h.idom_none hl hr]
  · simp [h.idom_right hl hr]
  · simp [h.idom_left hl hr]
  · simp [h.idom_both hl hr]

/-- A conditional, in the code that was finished later. -/
theorem Conditional.implements {left left' right right' ends : Builder}
    {test : Source.Test} {yes no : List Source.Stmt} {code : List ValueId} (hd : z.Done m e)
    (h : Conditional e t left left' right right' ends u v a b j) (hu : InBody u e)
    (hz : Later u.program.view z) (hm : t.cursor.method = m) (hreach : t.cursor.reachable = true)
    (hemits : Emits s t code)
    (hcompares : t.program.view.code.Compares s.cursor.bindings test v code)
    (hleft : Later left'.program.view z → z.code.ImplementsAll yes (place left z) (placeBehind left' z))
    (hright : Later right'.program.view z → z.code.ImplementsAll no (place right z) (placeBehind right' z)) :
    z.code.Implements (.ifThen test yes no) (place s z) (placeBehind u z) := by
  obtain ⟨-, htarget_left, hexit_left⟩ := h.target_left
  obtain ⟨-, htarget_right, hexit_right⟩ := h.target_right h.passed_left h.at_right
  obtain ⟨⟨body, ⟨y, forked, kept⟩, branched, at_left⟩, ran_left, passed_left, between, at_right,
    ran_right, passed_right, behind, met⟩ := h
  replace htarget_left := htarget_left.advance ran_left.advance hexit_left
  replace htarget_right := htarget_right.advance ran_right.advance hexit_right
  rw [at_left] at passed_left
  rw [at_right] at passed_right
  have hmeeting := branched.meeting body right.program.view_tables passed_left passed_right
  -- what was built at each of the states, as it is in the end
  have hends : Later ends.program.view z := (met.later hmeeting ends.program.view_tables).trans hz
  have hdepart_right : Later (right'.program.view.depart right'.cursor j) z := behind ▸ hends
  have hright' : Later right'.program.view z :=
    (later_depart ran_right.finish.toPlaced right'.program.view_tables htarget_right.apart).trans
      hdepart_right
  have hdepart_left : Later (left'.program.view.depart left'.cursor j) z :=
    between ▸ ran_right.later.trans hright'
  have hleft' : Later left'.program.view z :=
    (later_depart ran_left.finish.toPlaced left'.program.view_tables htarget_left.apart).trans
      hdepart_left
  have hopened : Later left.program.view z := ran_left.later.trans hleft'
  have htest : Later t.program.view left.program.view :=
    (branched.since body.toOpen).later t.program.view_tables body.toOpen
  have hlive := body.live.1 hreach
  -- the test and the branch
  have hknown : ∀ x v, t.cursor.bindings.get? x = some v →
      x ∈ left.program.view.tracked t.cursor.method := by
    rw [branched.keeps.tracked]
    exact body.known hreach
  have hfork : left.program.view.body t.cursor.block
      = t.program.view.body t.cursor.block ++ [⟨t.program.view.values⟩] := by
    rw [(kept.same _ (forked.keeps.exists_kind body.present) id).body, forked.body]
  have hforks := hd.forks hopened (htest.live hlive) hfork (kept.op _ _ forked.op) branched.after
    branched.left branched.right hreach (branched.left.entrance hopened hm hreach hknown)
    (branched.right.entrance hopened hm hreach hknown)
  have hplace_left : place left z = ⟨a, z.body a, t.cursor.bindings⟩ := by
    rw [place_of_empty, at_left]
    · rfl
    · rw [at_left]
      exact branched.left.body
  have hplace_right : place right z = ⟨b, z.body b, t.cursor.bindings⟩ := by
    rw [place_of_empty, at_right]
    · rfl
    · rw [at_right]
      exact (branched.same_right body.toOpen passed_left).1.body.trans branched.right.body
  rw [place_of_added (htest.trans hopened) (hemits.cursor ▸ hlive) (by rw [hemits.cursor])
    hemits.body, ← hemits.cursor]
  rw [← hplace_left, ← hplace_right] at hforks
  rw [← hemits.cursor] at hcompares
  -- the parts and the block behind them
  have htop : AtTop u := by
    refine ⟨?_, ?_, ?_⟩ <;> rw [met.block]
    · exact met.body
    · exact Met.idom_ne met
    · exact met.before
  have hmeets {way : Builder} (hway : Later (way.program.view.depart way.cursor j) z)
      (hp : InBody way e) (ht : Target way.program.view way.cursor j)
      (hthrough : way.cursor.reachable = true → u.cursor.reachable = true) (p : Place)
      (hpass : placeBehind way z = some p) :
      ∃ q, placeBehind u z = some q ∧ z.code.Enters p q := by
    obtain ⟨hgone, rfl⟩ := eq_place_of_behind hpass
    have hthere := hthrough hgone
    have hdeparted := gone_depart hp.toPlaced ht.apart way.program.view_tables hgone
    rw [← met.block] at hway hdeparted
    exact ⟨_, placeBehind_of_reachable hthere,
      htop.enters hd hz hu (met.method.trans hm) hthere hdeparted hway⟩
  refine .ifThen (hcompares.mono (htest.trans hopened).op) hforks (hleft hleft') (hright hright')
    (hmeets hdepart_left ran_left.finish htarget_left ?_)
    (hmeets hdepart_right ran_right.finish htarget_right ?_)
  · intro hl
    rw [met.reachable]
    simp [Cursor.departure, hl]
  · intro hr
    rw [met.reachable]
    simp [Cursor.departure, hr]

theorem Looped.gone {header : BlockId} {y : View} (h : Looped s t header y) (hs : InBody s e)
    (hlater : Later s.program.view t.program.view) (hreach : s.cursor.reachable = true) :
    Gone s.program.view s.cursor t.program.view t.cursor.block := by
  have hheader : t.cursor.block = header := by rw [h.cursor]
  refine ⟨⟨⟨s.program.view.values⟩, ?_, ?_⟩, ?_, ?_, hlater.live (hs.live.1 hreach)⟩
  · rw [h.view]
    exact h.headed.body
  · rw [hheader, h.view]
    exact h.headed.op
  · rw [h.view]
    exact h.headed.departed.after
  · rw [hheader, h.view]
    show s.cursor.block ∈ y.preds header
    rw [h.headed.preds, if_pos hreach]
    exact List.mem_singleton_self _

/-- A loop, in the code that was finished later. -/
theorem Loop.implements {t' inside inside' : Builder} {header : BlockId} {test : Source.Test}
    {body : List Source.Stmt} {code : List ValueId} (hd : z.Done m e)
    (h : Loop e s t t' inside inside' u v header a b) (hz : Later u.program.view z)
    (hm : s.cursor.method = m) (hreach : s.cursor.reachable = true) (hemits : Emits t t' code)
    (hcompares : t'.program.view.code.Compares t.cursor.bindings test v code)
    (hbody : Later inside'.program.view z →
      z.code.ImplementsAll body (place inside z) (placeBehind inside' z)) :
    z.code.Implements (.whileDo test body) (place s z) (placeBehind u z) := by
  obtain ⟨-, htarget, hexit⟩ := h.target
  obtain ⟨⟨⟨y, looped⟩, entered, extended, forked, at_body⟩, ran, passed, back, behind⟩ := h
  replace htarget := htarget.advance ran.advance hexit
  have inBody : InBody t' e := entered.finish.extends extended
  have hmt : t.cursor.method = m := entered.advance.method.trans hm
  have hmt' : t'.cursor.method = m := extended.advance.method.trans hmt
  have hreach_t : t.cursor.reachable = true := by
    rw [looped.cursor]
    exact hreach
  have hreach_t' : t'.cursor.reachable = true := extended.reachable.trans hreach_t
  obtain rfl : t'.cursor.block = header := by rw [extended.block, looped.cursor]
  -- what was built at each of the states, as it is in the end
  have hdepart : Later (inside'.program.view.depart inside'.cursor t'.cursor.block) z := back ▸ hz
  have hinside' : Later inside'.program.view z :=
    (later_depart ran.finish.toPlaced inside'.program.view_tables htarget.apart).trans hdepart
  have hinside : Later inside.program.view z := ran.later.trans hinside'
  have hfork : Later t'.program.view inside.program.view :=
    (forked.since inBody.toOpen).later t'.program.view_tables inBody.toOpen
  have ht' : Later t'.program.view z := hfork.trans hinside
  have ht : Later t.program.view z :=
    (extended.advance.toSince.later t.program.view_tables entered.finish.toOpen).trans ht'
  have hlive := inBody.live.1 hreach_t'
  -- the head
  have htop : AtTop t := by
    refine ⟨?_, ?_, ?_⟩
    · rw [← extended.block, looped.view]
      exact looped.headed.blank.body
    · rw [← extended.block, looped.view]
      show y.idom t'.cursor.block ≠ none
      simp [looped.headed.idom]
    · rw [looped.view, ← extended.block]
      exact if_pos rfl
  have hhead : z.code.Enters (place s z) (place t z) :=
    htop.enters hd ht entered.finish hmt hreach_t
      (looped.gone entered.start entered.later hreach) ht
  have hplace : place t z
      = ⟨t'.cursor.block, code ++ (place t' z).rest, t'.cursor.bindings⟩ := by
    rw [place_of_added ht' (extended.block ▸ hlive) extended.block hemits.body, ← extended.block,
      ← hemits.cursor]
  -- the test and the branch
  have hknown : ∀ x v, t'.cursor.bindings.get? x = some v →
      x ∈ inside.program.view.tracked t'.cursor.method := by
    rw [forked.keeps.tracked]
    exact inBody.known hreach_t'
  have hforks := hd.forks hinside (hfork.live hlive) forked.body forked.op forked.after forked.left
    forked.right hreach_t' (forked.left.entrance hinside hmt' hreach_t' hknown)
    (forked.right.entrance hinside hmt' hreach_t' hknown)
  have hplace_inside : place inside z = ⟨a, z.body a, t'.cursor.bindings⟩ := by
    rw [place_of_empty, at_body]
    · rfl
    · rw [at_body]
      exact forked.left.body
  have hplace_behind : place u z = ⟨b, z.body b, t'.cursor.bindings⟩ := by
    rw [place_of_empty, behind]
    · rfl
    · rw [at_body] at passed
      have hsame := passed.apart forked.right.present (Ne.symm forked.apart)
        (fun he => inBody.present (he ▸ forked.new_right)) fun he => ?_
      · rw [behind]
        exact hsame.1.body.trans forked.right.body
      · rw [forked.keeps.exits] at he
        exact (inBody.exit_apart b he).1 forked.new_right
  rw [← hplace_inside, ← hplace_behind] at hforks
  rw [← hemits.cursor] at hcompares
  have hreach_u : u.cursor.reachable = true := by
    rw [behind]
    exact hreach_t'
  rw [placeBehind_of_reachable hreach_u]
  refine .whileDo hhead ?_
  rw [hplace]
  refine .intro (hcompares.mono ht'.op) hforks (hbody hinside') fun p hp => ?_
  obtain ⟨hgone, rfl⟩ := eq_place_of_behind hp
  rw [← hplace]
  have hdeparted := gone_depart ran.finish.toPlaced htarget.apart inside'.program.view_tables hgone
  rw [extended.block] at hdeparted hdepart
  exact htop.enters hd ht entered.finish hmt hreach_t hdeparted hdepart

end Statements

/-! ## Statements -/

theorem LaidAll.through {watch : Bool} {x : Syntax.Sequence} {s u : Builder} :
    LaidAll e watch x s u → InBody s e → Ran e s u
  | .nil, h => ⟨h, h, .refl _ _⟩
  | .cons _ _ _ ran after, h => by
      have hafter := after.through ran.finish
      exact ⟨h, hafter.finish, ran.advance.trans hafter.advance h.toOpen⟩

section

variable {value : Option ValueId} {c : Cursor} (h : Left t u e value c)
include h

/-- What is kept of the code in front of a return. -/
theorem Left.later (ht : InBody t e) : Later t.program.view u.program.view := by
  have htables := t.program.view_tables
  have hmethod : c.method = t.cursor.method := by
    have hhome := h.placed.home
    rw [h.block, ht.home] at hhome
    exact (Option.some.inj hhome).symm
  rw [h.view]
  exact (Advance.leave h.placed htables h.tables (hmethod ▸ ht.waiting)).toSince.later htables
    h.placed.toOpen

theorem Left.placeBehind : placeBehind u z = none := by
  refine if_neg ?_
  rw [h.cursor]
  simp [afterLeave]

/-- A return leads to the exit. -/
theorem Left.exits (hd : z.Done m e) (ht : InBody t e) (hz : Later u.program.view z)
    (hreach : t.cursor.reachable = true) (hsort : t.program.view.sort t.cursor.method = some .main) :
    z.code.Exits (place t z).rest := by
  have hbindings : c.bindings = t.cursor.bindings := h.bindings .main hsort
  have hgone : Gone t.program.view t.cursor u.program.view e := by
    refine ⟨⟨⟨t.program.view.values⟩, ?_, ?_⟩, ?_, ?_, (h.later ht).live (ht.live.1 hreach)⟩ <;>
      rw [h.view]
    · rw [← h.block]
      exact body_depart
    · exact op_depart
    · rw [← h.block, ← hbindings]
      exact after_depart
    · show _ ∈ (t.program.view.depart c e).preds e
      rw [preds_depart h.placed, if_pos (h.reachable.trans hreach), h.block]
      exact List.mem_append_right _ (List.mem_singleton_self _)
  exact hd.exits hgone hz

end

/-- What stands behind a statement has code if control gets past it. -/
theorem implementsAll_cons {y : Source.Stmt} {ys : List Source.Stmt} {p : Place}
    (hfirst : z.code.Implements y p (placeBehind t z))
    (hlive : u.cursor.reachable = true → t.cursor.reachable = true)
    (hrest : t.cursor.reachable = true →
      z.code.ImplementsAll ys (place t z) (placeBehind u z)) :
    z.code.ImplementsAll (y :: ys) p (placeBehind u z) := by
  by_cases hreach : t.cursor.reachable = true
  · rw [placeBehind_of_reachable hreach] at hfirst
    exact .cons hfirst (hrest hreach)
  · rw [placeBehind, if_neg hreach] at hfirst
    rw [placeBehind, if_neg fun hu => hreach (hlive hu)]
    exact .last hfirst

mutual

/-- The code of a statement that control gets to. -/
theorem Laid.implements {x : Syntax.Stmt} {y : Source.Stmt} {s u : Builder} (hd : z.Done m e) :
    Laid e x s u → Ran e s u → Source.Stmt.ofTree? x = some y → Later u.program.view z →
      s.cursor.method = m → s.cursor.reachable = true → Scalar s →
      z.code.Implements y (place s z) (placeBehind u z)
  | .straight plain run extended, ran, hy, hz, hm, hreach, hs => by
      obtain ⟨code, hperformed⟩ := (stmt_emits plain hy ran.start.toReady hs).of_ok run
      have hlive := (ran.finish.live.1 (extended.reachable.trans hreach))
      rw [extended.block] at hlive
      rw [place_of_added hz hlive extended.block hperformed.body,
        placeBehind_of_reachable (extended.reachable.trans hreach)]
      have hbehind : place u z = ⟨s.cursor.block, (place u z).rest, u.cursor.bindings⟩ := by
        rw [← extended.block]
        rfl
      rw [hbehind]
      exact .straight (hperformed.performs.mono hz.op)
  | .left gone, ran, hy, hz, hm, hreach, hs => by
      obtain rfl := Option.some.inj hy
      rw [gone.placeBehind]
      exact .ret (gone.exits hd ran.start hz hreach hs.main)
  | .leftWith run extended gone, ran, hy, hz, hm, hreach, hs => by
      simp only [Source.Stmt.ofTree?, Option.bind_eq_bind, Option.bind_eq_some_iff, Option.pure_def,
        Option.some.injEq] at hy
      obtain ⟨e', he, rfl⟩ := hy
      obtain ⟨code, hvalue⟩ := (expr_emits _ he ran.start.toReady hs).of_ok run
      have ht := ran.start.extends extended
      have hreach_t := extended.reachable.trans hreach
      have hlater := (gone.later ht).trans hz
      have hlive := ht.live.1 hreach_t
      rw [extended.block] at hlive
      rw [gone.placeBehind, place_of_added hlater hlive extended.block hvalue.emits.body]
      exact .retValue (hvalue.computes.mono hlater.op)
        (gone.exits hd ht hz hreach_t (hvalue.emits.scalar hs).main)
  | .conditional test extended _ _ _ parts laid_left laid_right, ran, hy, hz, hm, hreach, hs => by
      simp only [Source.Stmt.ofTree?, Option.bind_eq_bind, Option.bind_eq_some_iff, Option.pure_def,
        Option.some.injEq] at hy
      obtain ⟨test', htest, yes, hyes, no, hno, rfl⟩ := hy
      obtain ⟨code, hemits, hcompares⟩ :=
        (relation_emits htest ran.start.toReady hs).of_ok test
      have hscalar := hemits.scalar hs
      have hmt : _ = m := extended.advance.method.trans hm
      have hreach_t := extended.reachable.trans hreach
      have hleft := parts.at_left
      have hright := parts.at_right
      have hkeeps := parts.branched.keeps
      have hscalar_left := hscalar.keep hkeeps (by rw [hleft]; rfl)
      have hscalar_right := hscalar.keep (hkeeps.trans parts.passed_left.keeps) (by rw [hright]; rfl)
      refine parts.implements hd ran.finish hz hmt hreach_t hemits hcompares
        (fun hl => laid_left.implements hd parts.ran_left.start hyes hl ?_ ?_ hscalar_left)
        fun hr => laid_right.implements hd parts.ran_right.start hno hr ?_ ?_ hscalar_right
      · rw [hleft]
        exact hmt
      · rw [hleft]
        exact hreach_t
      · rw [hright]
        exact hmt
      · rw [hright]
        exact hreach_t
  | .loop _ test opened parts laid, ran, hy, hz, hm, hreach, hs => by
      simp only [Source.Stmt.ofTree?, Option.bind_eq_bind, Option.bind_eq_some_iff, Option.pure_def,
        Option.some.injEq] at hy
      obtain ⟨test', htest, ys, hys, rfl⟩ := hy
      have hscalar_t := hs.keep parts.entered.advance.toKeeps parts.entered.advance.method
      obtain ⟨code, hemits, hcompares⟩ :=
        (relation_emits htest parts.entered.finish.toReady hscalar_t).of_ok test
      have hinside := parts.at_body
      have hextended := parts.extended
      have hscalar := (hemits.scalar hscalar_t).keep parts.forked.keeps (by rw [hinside]; rfl)
      refine parts.implements hd hz hm hreach hemits hcompares fun hl =>
        laid.implements hd parts.ran.start hys hl ?_ ?_ hscalar
      · rw [hinside]
        exact (hextended.advance.method.trans parts.entered.advance.method).trans hm
      · rw [hinside]
        obtain ⟨y, hlooped⟩ := parts.looped
        refine hextended.reachable.trans ?_
        rw [hlooped.cursor]
        exact hreach

/-- The code of a sequence that control gets to. -/
theorem LaidAll.implements {watch : Bool} {x : Syntax.Sequence} {ys : List Source.Stmt}
    {s u : Builder} (hd : z.Done m e) : LaidAll e watch x s u → InBody s e →
      Source.ofSequence? x = some ys → Later u.program.view z → s.cursor.method = m →
      s.cursor.reachable = true → Scalar s →
      z.code.ImplementsAll ys (place s z) (placeBehind u z)
  | .nil, _, hys, _, _, hreach, _ => by
      obtain rfl := Option.some.inj hys
      rw [placeBehind_of_reachable hreach]
      exact .nil
  | .cons _ _ laid ran after, hb, hys, hz, hm, hreach, hs => by
      simp only [Source.ofSequence?, Option.bind_eq_bind, Option.bind_eq_some_iff, Option.pure_def,
        Option.some.injEq] at hys
      obtain ⟨y, hy, ys, hys, rfl⟩ := hys
      have hran := after.through ran.finish
      have hfirst := laid.implements hd ⟨ran.start, ran.finish, ran.advance⟩ hy
        (hran.later.trans hz) hm hreach ⟨hs.main, hs.shapes⟩
      refine implementsAll_cons hfirst hran.advance.live fun hreach_u =>
        after.implements hd ran.finish hys hz ?_ hreach_u ?_
      · exact ran.advance.method.trans hm
      · exact hs.keep ran.advance.toKeeps ran.advance.method

end

end Build

end StructuredSsa
