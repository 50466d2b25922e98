import StructuredSsa.Proofs.Body

/-!
# What building a statement does

A statement leaves the cursor in the block it found it in, or in a new one
behind the blocks it built. Either way code can be added there, and everything
that stood elsewhere is as it was.

The parts of a conditional and the body of a loop are passages: built from a
block that is ready, and left for a block that waits (`Passed`).
-/

namespace StructuredSsa

/-- A statement with no other ones in it that control goes through. -/
def Syntax.Stmt.isStraight : Syntax.Stmt → Bool
  | .assign .. | .call .. | .unknown _ => true
  | _ => false

namespace View

/-! ## Passages -/

section Passed

variable {p q r : View} {c d : Cursor} {j e : BlockId}

/-- A block to leave for stays one while the way to it is built. -/
theorem Target.advance (h : Target p c j) (k : Advance p c q d) (hj : p.exit c.method ≠ some j) :
    Target q d j := by
  have hsame := k.same j h.present fun hS => hS.elim h.apart hj
  refine
    { present := hsame.kind ▸ h.present
      home := by rw [hsame.home, k.method]; exact h.home
      not_entry := fun ⟨vs, hvs⟩ => h.not_entry ⟨vs, hsame.kind ▸ hvs⟩
      owned := fun hl => by rw [k.method]; exact k.owned _ _ (h.owned (k.live hl))
      apart := ?_
      fit := fun hl => ?_
      pointed := fun hl a ha => ?_ }
  · rintro rfl
    rcases k.place with hd | hd
    · exact h.apart hd
    · exact h.present hd
  · rw [hsame.live, View.contents, hsame.phis, hsame.body, hsame.after]
    exact h.fit (k.live hl)
  · rw [hsame.idom] at ha
    exact ((h.pointed (k.live hl) a ha).mono k.idom).trans k.above

/-- From the block at the cursor `c` code was built that leaves for the block
`j` as `way` says. -/
structure Passed (p : View) (c : Cursor) (j e : BlockId) (r : View) (way : Departure) : Prop where
  sound : r.Sound
  departed : r.Departed c.method way
  keeps : Keeps p r fun b => b = c.block ∨ p.exit c.method = some b ∨ b = j
  start : Grown p r c.block
  exit : ∀ b, p.exit c.method = some b → Entered p r b
  target : Entered p r j
  preds : r.preds j = p.preds j ++ if way.reachable = true then [way.block] else []
  place : way.block = c.block ∨ p.kind way.block = none
  present : r.kind way.block ≠ none
  above : Above r.idom c.block way.block
  live : way.reachable = true → c.reachable = true
  fresh : ∀ x v, way.bindings.get? x = some v →
    (∃ y, c.bindings.get? y = some v) ∨ p.values ≤ v.index
  sealed : ∀ b, p.kind b = none ∨ b = c.block → r.kind b ≠ none → r.after b ≠ none
  new_home : ∀ b, p.kind b = none → r.kind b ≠ none → r.home b = some c.method
  returns : way.reachable = true ∨ r.preds e ≠ []

theorem Passed.of_advance (hc : p.Open c) (k : Advance p c q d) (hq : q.InBody d e) (ht : q.Tables)
    (hj : Target p c j) (hexit : p.exit c.method ≠ some j) :
    Passed p c j e (q.depart d j) ⟨d.block, d.bindings, d.reachable⟩ := by
  have htarget := hj.advance k hexit
  have kd := keeps_depart hq.toOpen ht j
  have hentered := entered_depart hq.toPlaced htarget.apart
  have hnot (b : BlockId) (hb : p.kind b ≠ none) (hne : b ≠ c.block) : b ≠ d.block := by
    rintro rfl
    rcases k.place with hd | hd
    · exact hne hd
    · exact hb hd
  have hsame := k.same j hj.present fun hS => hS.elim hj.apart hexit
  refine
    { sound := .depart hq.toPlaced ht htarget
      departed := k.method ▸ departed_depart hq.toReady ht j
      keeps := (k.toKeeps.trans kd).weaken fun b hb hS => ?_
      start := ?_
      exit := fun b hb => ?_
      target := hsame.entered.trans hentered
      preds := ?_
      place := k.place
      present := kd.exists_kind hq.present
      above := k.above.mono kd.idom
      live := k.live
      fresh := k.fresh
      sealed := fun b hb hr => ?_
      new_home := fun b hb hr => kd.home b _ (k.new_home b hb (depart_kept.1 ▸ hr))
      returns := ?_ }
  · rcases hS with (hS | hS) | hS | hS
    · exact Or.inl hS
    · exact Or.inr (Or.inl hS)
    · by_cases hne : b = c.block
      · exact Or.inl hne
      · exact absurd hS (hnot b hb hne)
    · exact Or.inr (Or.inr hS.2)
  · by_cases hd : c.block = d.block
    · exact k.start.trans (hd ▸ grown_depart htarget.apart)
    · refine k.start.trans (kd.same c.block (k.exists_kind hc.present) ?_).grown
      exact fun hS => hS.elim hd fun h => hj.apart h.2.symm
  · obtain ⟨hpresent, hne⟩ := hc.exit_apart b hb
    refine (k.exit b hb).trans (kd.same b (k.exists_kind hpresent) ?_).entered
    exact fun hS => hS.elim (hnot b hpresent hne) fun h => hexit (h.2 ▸ hb)
  · rw [preds_depart hq.toPlaced, hsame.preds]
    split <;> simp
  · by_cases hbd : b = d.block
    · rw [hbd, after_depart]
      simp
    · refine kd.after_of_ne ?_
      rcases hb with hb | rfl
      · exact k.sealed b hb (depart_kept.1 ▸ hr) hbd
      · exact k.moved (Ne.symm hbd)
  · refine hq.returns.imp id fun hne => ?_
    have he : p.exit c.method = some e := by
      rw [← k.exits, ← k.method]
      exact hq.waiting.exit
    obtain ⟨hpresent, happ⟩ := hc.exit_apart e he
    rw [(kd.same e (k.exists_kind hpresent) ?_).preds]
    · exact hne
    · exact fun hS => hS.elim (hnot e hpresent happ) fun h => hexit (h.2 ▸ he)

/-- A passage through new blocks, to a new block. -/
theorem Passed.since {w : View} {c' : Cursor} {way : Departure} (h : Passed p c' j e r way)
    (k : Since w c p) (hc : w.Open c) (hm : c'.method = c.method) (hnew : w.kind c'.block = none)
    (hj : w.kind j = none) : Since w c r := by
  refine k.step hc h.keeps (fun b hb hr => hm ▸ h.new_home b hb hr) fun b hb => ?_
  rcases hb with rfl | hb | rfl
  · exact Or.inl hnew
  · exact Or.inr (Or.inr ⟨by rwa [k.exits, hm] at hb, h.exit b hb⟩)
  · exact Or.inl hj

/-- A block that neither starts nor ends a passage is left alone by it. -/
theorem Passed.apart {way : Departure} {t : BlockId} (h : Passed p c j e r way)
    (ht : p.kind t ≠ none) (hne : t ≠ c.block) (htj : t ≠ j) (hexit : p.exit c.method ≠ some t) :
    Same p r t ∧ t ≠ way.block := by
  refine ⟨h.keeps.same t ht ?_, ?_⟩
  · rintro (h | h | h)
    · exact hne h
    · exact hexit h
    · exact htj h
  · rintro rfl
    rcases h.place with hp | hp
    · exact hne hp
    · exact ht hp

end Passed

/-! ## Conditionals -/

/-- A branch to `a` and `b`, with a block `j` behind it. -/
structure Branched (w : View) (c : Cursor) (z : View) (a b j : BlockId) : Prop where
  sound : z.Sound
  keeps : Keeps w z (· = c.block)
  grown : Grown w z c.block
  after : z.after c.block = some c.bindings
  new_left : w.kind a = none
  new_right : w.kind b = none
  new_join : w.kind j = none
  apart : a ≠ b
  left : z.Led c a
  right : z.Led c b
  join : z.Fresh c.method j
  kind : z.kind j = some (.join false)
  left_join : a ≠ j
  right_join : b ≠ j
  only : ∀ d, w.kind d = none → z.kind d ≠ none → d = a ∨ d = b ∨ d = j

theorem Forked.branched {w z : View} {c : Cursor} {v : ValueId} {a b : BlockId}
    (h : Forked w c v z a b) (ht : z.Tables) (hc : w.Open c) (hm : w.sort c.method ≠ none) :
    Branched w c (z.newBlock c.method (.join false)) a b ⟨z.blocks⟩ := by
  have k := keeps_newBlock ht c.method (.join false)
  have hnew := ht.fresh_kind
  have hpresent := h.keeps.exists_kind hc.present
  have hsame := k.same c.block hpresent id
  have hne {t : BlockId} (ht : z.kind t ≠ none) : t ≠ ⟨z.blocks⟩ := by
    rintro rfl
    exact ht hnew
  refine
    { sound := h.sound.newBlock ht (h.keeps.sort ▸ hm) _ (by simp) (by simp)
      keeps := (h.keeps.trans k).weaken fun b _ hb => hb.elim id False.elim
      grown := h.grown.trans hsame.grown
      after := k.after _ _ h.after
      new_left := h.new_left
      new_right := h.new_right
      new_join := Classical.not_not.1 fun hw => h.keeps.exists_kind hw hnew
      apart := h.apart
      left := h.left.same k id
      right := h.right.same k id
      join := fresh_newBlock ht _ _ (by simp) (by simp)
      kind := if_pos rfl
      left_join := hne h.left.present
      right_join := hne h.right.present
      only := fun d hd hz => ?_ }
  change (if d = ⟨z.blocks⟩ then _ else z.kind d) ≠ none at hz
  split at hz
  · next hd => exact Or.inr (Or.inr hd)
  · exact (h.only d hd hz).imp id Or.inl

section Branched

variable {w z y x : View} {c : Cursor} {a b j e : BlockId} {left right : Departure}

theorem Branched.since (h : Branched w c z a b j) (hc : w.Open c) : Since w c z := by
  refine (Since.refl w c).step hc h.keeps (fun d hd hz => ?_) fun d hd =>
    Or.inr (Or.inl ⟨hd, hd ▸ h.grown⟩)
  rcases h.only d hd hz with rfl | rfl | rfl
  · exact h.left.home
  · exact h.right.home
  · exact h.join.home

theorem Branched.not_exit (h : Branched w c z a b j) (hc : w.Open c) {t : BlockId}
    (hnew : w.kind t = none) : z.exit c.method ≠ some t := by
  rw [h.keeps.exits]
  exact fun ht => (hc.exit_apart t ht).1 hnew

/-- What a block that the branch leads to knows. -/
theorem InBody.fork (hb : w.InBody c e) {t : BlockId} (k : Since w c z) (hs : z.Sound)
    (ho : z.Open (c.fork t)) (hnew : w.kind t = none) : z.InBody (c.fork t) e := by
  refine hb.since (d := c.fork t) k ⟨⟨hs, ho⟩, ?_⟩ rfl (Or.inr hnew)
    (hb.returns.imp id fun h => k.preds_ne hb.waiting.exit h)
  exact k.tracked c.method ▸ hb.known

section

variable (h : Branched w c z a b j)
include h

theorem Branched.body_left (hb : w.InBody c e) : z.InBody (c.fork a) e :=
  hb.fork (h.since hb.toOpen) h.sound (h.left.open hb.toOpen h.keeps h.new_left) h.new_left

theorem Branched.target_left : Target z (c.fork a) j :=
  h.join.target (c := c.fork a) (Ne.symm h.left_join)

/-- The second part of the conditional, behind the first one. -/
theorem Branched.same_right (hc : w.Open c) (hl : Passed z (c.fork a) j e y left) :
    Same z y b ∧ b ≠ left.block :=
  hl.apart h.right.present (Ne.symm h.apart) h.right_join (h.not_exit hc h.new_right)

theorem Branched.body_right (hb : w.InBody c e) (hl : Passed z (c.fork a) j e y left) :
    y.InBody (c.fork b) e := by
  refine hb.fork (hl.since (h.since hb.toOpen) hb.toOpen rfl h.new_left h.new_join) hl.sound ?_
    h.new_right
  refine (h.right.open hb.toOpen h.keeps h.new_right).keep hl.keeps ?_
  rintro (hba | hbe | hbj)
  · exact h.apart hba.symm
  · exact h.not_exit hb.toOpen h.new_right hbe
  · exact h.right_join hbj

theorem Branched.target_right (hl : Passed z (c.fork a) j e y left) : Target y (c.fork b) j where
  present := hl.keeps.exists_kind h.join.present
  home := hl.keeps.home _ _ h.join.home
  not_entry := not_isEntry_of_kind (hl.keeps.kind _ _ h.kind) nofun
  owned _ := hl.keeps.owned _ _ h.join.owned
  apart := Ne.symm h.right_join
  fit _ := by
    refine Or.inr ⟨?_, hl.target.after.trans h.join.after⟩
    rw [View.contents, hl.target.phis, hl.target.body]
    exact h.join.contents
  pointed _ d hd := by
    rw [hl.target.idom, h.join.idom] at hd
    cases hd

/-- Behind both parts of a conditional, the block that follows may be entered. -/
theorem Branched.meeting (hb : w.InBody c e) (hty : y.Tables) (hl : Passed z (c.fork a) j e y left)
    (hr : Passed y (c.fork b) j e x right) : Meeting x c.method j c.block left right := by
  have hexit : z.exit (c.fork a).method ≠ some j := h.not_exit hb.toOpen h.new_join
  have kwy := h.keeps.trans hl.keeps
  have kwx := kwy.trans hr.keeps
  have hentered := hl.target.trans hr.target
  have habove_left : Above y.idom c.block left.block :=
    (Above.single (hl.keeps.idom _ _ h.left.idom)).trans hl.above
  have hright : y.idom b = some c.block := hl.keeps.idom _ _ h.right.idom
  have hkind : x.kind j = some (.join false) := hr.keeps.kind _ _ (hl.keeps.kind _ _ h.kind)
  have hsame := h.same_right hb.toOpen hl
  refine
    { sound := hr.sound
      blank := ⟨⟨_, hkind, by simp, by simp⟩, hr.keeps.home _ _ (hl.keeps.home _ _ h.join.home),
        hr.keeps.owned _ _ (hl.keeps.owned _ _ h.join.owned), hentered.body.trans h.join.body,
        hentered.after.trans h.join.after⟩
      kind := hkind
      phis := hentered.phis.trans h.join.phis
      idom := hentered.idom.trans h.join.idom
      departed_left := hl.departed.keep hr.keeps
      departed_right := hr.departed
      apart := ?_
      preds := ?_
      home := kwx.home _ _ hb.home
      rooted := fun m hm => ?_
      above_left := habove_left.mono hr.keeps.idom
      above_right := (Above.single (hr.keeps.idom _ _ hright)).trans hr.above
      agreed := fun hreach n v hvl hvr => ?_
      exit_apart := fun d hd => ?_ }
  · rcases hr.place with hp | hp
    · rw [hp]
      exact Ne.symm hsame.2
    · intro he
      exact hl.present (he ▸ hp)
  · rw [hr.preds, hl.preds, h.join.preds]
    rfl
  · rw [kwx.entry] at hm
    exact (hb.rooted m hm).mono kwx.idom
  · -- a value bound on both ways was bound before the branch: the second part
    -- cannot bind a value that the first one created
    have hval := hl.departed.value n v hvl
    rcases hr.fresh n v hvr with ⟨m, hm⟩ | hlt
    · obtain ⟨hhas, habove⟩ := hb.usable m v hm
      exact kwx.definedAbove hhas (habove (hl.live hreach))
    · have := hty.index_lt hval.exists_op
      omega
  · rw [kwx.exits] at hd
    refine ⟨kwx.exists_kind (hb.exit_apart d hd).1, ?_⟩
    rintro rfl
    exact (hb.exit_apart _ hd).1 h.new_join

/-- The two passages seal every block that is new, but for the one behind them. -/
theorem Branched.sealed (hl : Passed z (c.fork a) j e y left) (hr : Passed y (c.fork b) j e x right)
    {t : BlockId} (hnew : w.kind t = none) (ht : x.kind t ≠ none) (hj : t ≠ j) :
    x.after t ≠ none := by
  by_cases hy : y.kind t = none
  · exact hr.sealed t (Or.inl hy) ht
  · by_cases hz : z.kind t = none
    · exact hr.keeps.after_of_ne (hl.sealed t (Or.inl hz) hy)
    · rcases h.only t hnew hz with rfl | rfl | rfl
      · exact hr.keeps.after_of_ne (hl.sealed t (Or.inr rfl) hy)
      · exact hr.sealed t (Or.inr rfl) ht
      · exact absurd rfl hj

theorem Branched.advance (hc : w.Open c) (hl : Passed z (c.fork a) j e y left)
    (hr : Passed y (c.fork b) j e x right) {u : View} {d : Cursor}
    (hm : Met x c.method j c.block left right u d) : Advance w c u d := by
  have hsince := (hr.since (hl.since (h.since hc) hc rfl h.new_left h.new_join) hc rfl h.new_right
    h.new_join).step hc hm.keeps (fun t ht hu => absurd ht (hm.kinds ▸ hu)) fun t ht =>
      Or.inl (ht ▸ h.new_join)
  have kwy := h.keeps.trans hl.keeps
  have kzx := hl.keeps.trans hr.keeps
  refine
    { toSince := hsince
      method := hm.method
      place := Or.inr (hm.block ▸ h.new_join)
      moved := fun _ => (kzx.trans hm.keeps).after_of_ne (by simp [h.after])
      sealed := fun t ht hu hne => ?_
      above := hm.block ▸ hm.above
      live := fun hd => ?_
      fresh := fun n v hv => ?_ }
  · refine hm.keeps.after_of_ne (h.sealed hl hr ht (hm.kinds ▸ hu) ?_)
    rwa [← hm.block]
  · rw [hm.reachable, Bool.or_eq_true] at hd
    exact hd.elim hl.live hr.live
  · rcases hm.fresh n v hv with ⟨m, hv⟩ | ⟨m, hv⟩ | hlt
    · exact (hl.fresh m v hv).imp id fun hlt => h.keeps.values.trans hlt
    · exact (hr.fresh m v hv).imp id fun hlt => kwy.values.trans hlt
    · exact Or.inr ((kwy.trans hr.keeps).values.trans hlt)

theorem Branched.inBody (hb : w.InBody c e) (hl : Passed z (c.fork a) j e y left)
    (hr : Passed y (c.fork b) j e x right) {u : View} {d : Cursor}
    (hm : Met x c.method j c.block left right u d) : u.InBody d e := by
  have hadv := h.advance hb.toOpen hl hr hm
  refine hb.since hadv.toSince hm.ready hadv.method hadv.place ?_
  rw [hm.reachable, Bool.or_eq_true]
  rcases hr.returns with hreach | hne
  · exact Or.inl (Or.inr hreach)
  · obtain ⟨hpresent, -⟩ := hb.exit_apart e hb.waiting.exit
    have kwx := (h.keeps.trans hl.keeps).trans hr.keeps
    refine Or.inr ?_
    rw [(hm.keeps.same e (kwx.exists_kind hpresent) ?_).preds]
    · exact hne
    · rintro rfl
      exact hpresent h.new_join

end

end Branched

/-! ## Loops -/

section Loop

variable {w z y : View} {c : Cursor} {a b e : BlockId} {v : ValueId} {way : Departure}

section

variable (h : Forked w c v z a b)
include h

theorem Forked.since (hc : w.Open c) : Since w c z := by
  refine (Since.refl w c).step hc h.keeps (fun d hd hz => ?_) fun d hd =>
    Or.inr (Or.inl ⟨hd, hd ▸ h.grown⟩)
  rcases h.only d hd hz with rfl | rfl
  · exact h.left.home
  · exact h.right.home

/-- The body of a loop can go back to its head. -/
theorem Forked.back (hb : w.InBody c e) : Target z (c.fork a) c.block := by
  have hne : c.block ≠ a := fun he => hb.present (he ▸ h.new_left)
  have hlive := (h.grown.live h.keeps hb.present).2
  obtain ⟨k, hk⟩ := Option.ne_none_iff_exists'.1 hb.present
  refine
    { present := h.keeps.exists_kind hb.present
      home := h.keeps.home _ _ hb.home
      not_entry := fun ⟨vs, hvs⟩ => hb.inside ?_
      owned := fun hl => h.keeps.owned _ _ (hb.wired.live_owned _ _ (hb.live.1 hl) hb.home)
      apart := hne
      fit := fun hl => Or.inl (hlive (hb.live.1 hl))
      pointed := fun _ d hd => .up h.left.idom (.single hd) }
  rw [h.keeps.kind _ _ hk, ← hk] at hvs
  exact hb.wired.entry_home _ _ ⟨vs, hvs⟩ hb.home

theorem Forked.inside (hb : w.InBody c e) : z.InBody (c.fork a) e :=
  hb.fork (h.since hb.toOpen) h.sound (h.left.open hb.toOpen h.keeps h.new_left) h.new_left

/-- Behind the loop everything is as it was before its body. -/
theorem Forked.behind (hb : w.InBody c e) (hp : Passed z (c.fork a) c.block e y way) :
    y.Ready (c.fork b) := by
  have ho : z.Open (c.fork b) := h.right.open hb.toOpen h.keeps h.new_right
  refine ⟨⟨hp.sound, ho.keep hp.keeps ?_⟩, ?_⟩
  · rintro (he | he | he)
    · exact h.apart he.symm
    · change z.exit c.method = some b at he
      rw [h.keeps.exits] at he
      exact (hb.exit_apart b he).1 h.new_right
    · exact hb.present (he ▸ h.new_right)
  · exact (h.keeps.trans hp.keeps).tracked c.method ▸ hb.known

end

theorem Forked.advance {w₀ : View} {c₀ : Cursor} (h : Forked w c v z a b) (hb : w.InBody c e)
    (ha : Advance w₀ c₀ w c) (hc : w₀.Open c₀) (hnew : w₀.kind c.block = none)
    (hp : Passed z (c.fork a) c.block e y way) : Advance w₀ c₀ y (c.fork b) := by
  have hne : c.block ≠ c₀.block := fun he => hc.present (he ▸ hnew)
  have hold {t : BlockId} (ht : w.kind t = none) : w₀.kind t = none :=
    Classical.not_not.1 fun hw => ha.exists_kind hw ht
  have kzy := hp.keeps
  refine
    { toSince := hp.since (ha.toSince.trans (h.since hb.toOpen) hc ha.method (Or.inr hnew)) hc
        ha.method (hold h.new_left) hnew
      method := ha.method
      place := Or.inr (hold h.new_right)
      moved := fun _ => (h.keeps.trans kzy).after_of_ne (ha.moved hne)
      sealed := fun t ht hy htb => ?_
      above := ?_
      live := ha.live
      fresh := ha.fresh }
  · by_cases hz : z.kind t = none
    · exact hp.sealed t (Or.inl hz) hy
    · by_cases hw : w.kind t = none
      · rcases h.only t hw hz with rfl | rfl
        · exact hp.sealed t (Or.inr rfl) hy
        · exact absurd rfl htb
      · by_cases htc : t = c.block
        · refine kzy.after_of_ne ?_
          rw [htc, h.after]
          simp
        · exact (h.keeps.trans kzy).after_of_ne (ha.sealed t ht hw htc)
  · exact .up (kzy.idom _ _ h.right.idom) (ha.above.mono (h.keeps.trans kzy).idom)

theorem Forked.inBody {w₀ : View} {c₀ : Cursor} (h : Forked w c v z a b) (hb : w.InBody c e)
    (ha : Advance w₀ c₀ w c) (hb₀ : w₀.InBody c₀ e) (hnew : w₀.kind c.block = none)
    (hp : Passed z (c.fork a) c.block e y way) : y.InBody (c.fork b) e := by
  have hadv := h.advance hb ha hb₀.toOpen hnew hp
  refine hb₀.since hadv.toSince (h.behind hb hp) hadv.method hadv.place ?_
  refine hb.returns.imp id fun hne => ?_
  have he : z.exit (c.fork a).method = some e := by
    rw [h.keeps.exits]
    exact hb.waiting.exit
  exact (hp.exit e he).preds_ne ((h.since hb.toOpen).preds_ne hb.waiting.exit hne)

end Loop

end View

namespace Build

open View

/-! ## Statements -/

section

variable {s t : Builder} {e : BlockId}

theorem inBody_at {c : Cursor} (h : s.program.view.InBody c e) (hc : s.cursor = c) : InBody s e := by
  subst hc
  exact h

/-- A part of a conditional or loop, and the jump behind it. -/
theorem departPassed_meets {E : Error → Prop} {j : BlockId} (h : InBody s e) (hadv : Advance s t)
    (ht : InBody t e) (hj : Target s.program.view s.cursor j)
    (hexit : s.program.view.exit s.cursor.method ≠ some j) (line : Nat) :
    Meets E (departTo j line) t fun way u => u.cursor = t.cursor
      ∧ way = t.cursor.departure ∧ u.program.view = t.program.view.depart t.cursor j
      ∧ Passed s.program.view s.cursor j e u.program.view way := by
  refine (departTo_view ht.toPlaced (hj.advance hadv hexit) line).mono ?_
  rintro _ u ⟨rfl, hc, hview⟩
  refine ⟨hc, rfl, hview, ?_⟩
  rw [hview]
  exact .of_advance h.toOpen hadv ht t.program.view_tables hj hexit

/-- Code was built in the body with exit `e`, from one state to another. -/
structure Ran (e : BlockId) (s t : Builder) : Prop where
  start : InBody s e
  finish : InBody t e
  advance : Advance s t

/-! ## The steps around the parts of a statement -/

/-- A conditional up to its first part. The cursor behind the test, the block of
the second part and the block behind both. -/
def openParts (line : Nat) (condition : Syntax.Relation) (thenMark : Syntax.Mark) :
    BuildM (Cursor × BlockId × BlockId) := do
  let v ← relation condition
  require (.keyword .then_) thenMark
  let (onTrue, onFalse) ← branchOff v line
  let join ← newBlock (.join false)
  let c ← cursor
  moveTo (c.fork onTrue)
  return (c, onFalse, join)

/-- From the end of the first part to the start of the second. -/
def nextPart (c : Cursor) (onFalse join : BlockId) (line : Nat) : BuildM Departure := do
  let left ← departTo join line
  moveTo (c.fork onFalse)
  return left

/-- A loop up to its body. Its head, the cursor behind the test and the block
behind the loop. -/
def openLoop (line : Nat) (condition : Syntax.Relation) (doMark : Syntax.Mark) :
    BuildM (BlockId × Cursor × BlockId) := do
  let header ← enterLoop line
  let v ← relation condition
  require (.keyword .do_) doMark
  let (inside, behind) ← branchOff v line
  let c ← cursor
  moveTo (c.fork inside)
  return (header, c, behind)

/-- What is reported before a statement, and whether to go on watching. -/
def announce (watch separated : Bool) (first : Token) : BuildM Bool := do
  if !separated then
    report first.pos (.expectedSemicolon first.kind)
  let dead := watch && !(← cursor).reachable
  if dead then
    report first.pos .unreachableStatement
  return watch && !dead

theorem stmt_ifThen (line thenLine endLine : Nat) (condition : Syntax.Relation)
    (thenMark fi : Syntax.Mark) (yes no : Syntax.Sequence) :
    stmt (.ifThen line condition thenMark yes thenLine no endLine fi) = (do
      let (c, onFalse, join) ← openParts line condition thenMark
      sequence c.reachable yes
      let left ← nextPart c onFalse join thenLine
      sequence c.reachable no
      require (.keyword .fi) fi
      let right ← departTo join endLine
      enterJoin join c.block left right endLine) := by
  unfold stmt openParts nextPart
  simp only [bind_assoc, pure_bind]

theorem stmt_whileDo (line endLine : Nat) (condition : Syntax.Relation) (doMark od : Syntax.Mark)
    (body : Syntax.Sequence) :
    stmt (.whileDo line condition doMark body endLine od) = (do
      let (header, c, behind) ← openLoop line condition doMark
      sequence c.reachable body
      require (.keyword .od) od
      let _ ← departTo header endLine
      moveTo (c.fork behind)) := by
  unfold stmt openLoop
  simp only [bind_assoc, pure_bind]

theorem sequence_cons (watch separated : Bool) (first : Token) (t : Syntax.Stmt)
    (rest : Syntax.Sequence) :
    sequence watch (.cons separated first t rest) = (do
      let watch ← announce watch separated first
      stmt t
      sequence watch rest) := by
  have htail (c : Cursor) : (do
        if watch && !c.reachable then report first.pos .unreachableStatement
        stmt t
        sequence (watch && !(watch && !c.reachable)) rest) = (do
        let watch ← (do
          if watch && !c.reachable then report first.pos .unreachableStatement
          return watch && !(watch && !c.reachable))
        stmt t
        sequence watch rest) := by
    split <;> simp only [bind_assoc, pure_bind]
  rw [sequence, announce]
  cases separated <;> simp only [bind_assoc, htail, Bool.not_false, Bool.not_true, if_true,
    Bool.false_eq_true, if_false]

theorem announce_quiet (watch separated : Bool) (first : Token) (s : Builder) :
    ∃ watch' ds, announce watch separated first s = .ok watch' { s with diagnostics := ds } := by
  have htail (ds : List Diagnostic) : ∃ watch' ds', (do
      let dead := watch && !(← cursor).reachable
      if dead then report first.pos .unreachableStatement
      return watch && !dead : BuildM Bool) { s with diagnostics := ds }
        = .ok watch' { s with diagnostics := ds' } := by
    show ∃ watch' ds', (if (watch && !s.cursor.reachable) = true then do
        report first.pos .unreachableStatement
        pure (watch && !(watch && !s.cursor.reachable))
      else pure (watch && !(watch && !s.cursor.reachable)) : BuildM Bool)
        { s with diagnostics := ds } = .ok watch' { s with diagnostics := ds' }
    split <;> exact ⟨_, _, rfl⟩
  unfold announce
  cases separated with
  | true => exact htail s.diagnostics
  | false => exact htail _

/-- A conditional whose first part is built next, from `left` at `a`: from `t` a
branch leads to `a` and `b`, and `j` stands behind it. -/
structure PartsOpen (e : BlockId) (t left : Builder) (v : ValueId) (a b j : BlockId) : Prop where
  body : InBody t e
  forked : ∃ z, Forked t.program.view t.cursor v z a b
    ∧ Keeps z left.program.view fun _ => False
  branched : Branched t.program.view t.cursor left.program.view a b j
  at_left : left.cursor = t.cursor.fork a

/-- The parts of a conditional. From `t` they are built at `a` and at `b`; both go
on in `j`. -/
structure Conditional (e : BlockId) (t left left' right right' ends u : Builder) (v : ValueId)
    (a b j : BlockId) : Prop extends PartsOpen e t left v a b j where
  ran_left : Ran e left left'
  passed_left : Passed left.program.view left.cursor j e right.program.view left'.cursor.departure
  between : right.program.view = left'.program.view.depart left'.cursor j
  at_right : right.cursor = t.cursor.fork b
  ran_right : Ran e right right'
  passed_right : Passed right.program.view right.cursor j e ends.program.view
    right'.cursor.departure
  behind : ends.program.view = right'.program.view.depart right'.cursor j
  met : Met ends.program.view t.cursor.method j t.cursor.block left'.cursor.departure
    right'.cursor.departure u.program.view u.cursor

/-- A loop whose body is built next, from `inside` at `a`. The test stands in the
header, between `t` and `t'`. -/
structure LoopOpen (e : BlockId) (s t t' inside : Builder) (v : ValueId)
    (header a b : BlockId) : Prop where
  looped : ∃ z, Looped s t header z
  entered : Ran e s t
  extended : Extends t t'
  forked : Forked t'.program.view t'.cursor v inside.program.view a b
  at_body : inside.cursor = t'.cursor.fork a

/-- The parts of a loop. The body goes back to the header from `inside'`. -/
structure Loop (e : BlockId) (s t t' inside inside' u : Builder) (v : ValueId)
    (header a b : BlockId) : Prop extends LoopOpen e s t t' inside v header a b where
  ran : Ran e inside inside'
  passed : Passed inside.program.view inside.cursor header e u.program.view
    inside'.cursor.departure
  back : u.program.view = inside'.program.view.depart inside'.cursor header
  behind : u.cursor = t'.cursor.fork b

mutual

/-- How the code of a statement was laid out: the states that its construction
went through, and what is known of them. -/
inductive Laid (e : BlockId) : Syntax.Stmt → Builder → Builder → Prop where
  | straight {t : Syntax.Stmt} {s u : Builder} (plain : t.isStraight = true)
      (run : stmt t s = .ok () u) (extended : Extends s u) : Laid e t s u
  | left {pos : Pos} {s u : Builder} {c : Cursor} (gone : Left s u e none c) :
      Laid e (.ret pos none) s u
  | leftWith {pos : Pos} {value : Syntax.Expr} {v : ValueId} {s t u : Builder} {c : Cursor}
      (run : expr value s = .ok v t) (extended : Extends s t) (gone : Left t u e (some v) c) :
      Laid e (.ret pos (some value)) s u
  | conditional {line thenLine endLine : Nat} {condition : Syntax.Relation}
      {thenMark fi : Syntax.Mark} {yes no : Syntax.Sequence}
      {s t left left' right right' ends u : Builder} {v : ValueId} {a b j : BlockId}
      (test : relation condition s = .ok v t) (extended : Extends s t)
      (opened : openParts line condition thenMark s = .ok (t.cursor, b, j) left)
      (run_left : sequence t.cursor.reachable yes left = .ok () left')
      (turned : nextPart t.cursor b j thenLine left' = .ok left'.cursor.departure right)
      (parts : Conditional e t left left' right right' ends u v a b j)
      (laid_left : LaidAll e t.cursor.reachable yes left left')
      (laid_right : LaidAll e t.cursor.reachable no right right') :
      Laid e (.ifThen line condition thenMark yes thenLine no endLine fi) s u
  | loop {line endLine : Nat} {condition : Syntax.Relation} {doMark od : Syntax.Mark}
      {body : Syntax.Sequence} {s t t' inside inside' u : Builder} {v : ValueId}
      {header a b : BlockId} (entered : enterLoop line s = .ok header t)
      (test : relation condition t = .ok v t')
      (opened : openLoop line condition doMark s = .ok (header, t'.cursor, b) inside)
      (parts : Loop e s t t' inside inside' u v header a b)
      (laid : LaidAll e t'.cursor.reachable body inside inside') :
      Laid e (.whileDo line condition doMark body endLine od) s u

/-- How the code of a sequence was laid out. Problems may have been reported
before each statement. -/
inductive LaidAll (e : BlockId) : Bool → Syntax.Sequence → Builder → Builder → Prop where
  | nil {watch : Bool} {s : Builder} : LaidAll e watch .nil s s
  | cons {watch watch' separated : Bool} {first : Token} {t : Syntax.Stmt} {rest : Syntax.Sequence}
      {s u r : Builder} {ds : List Diagnostic}
      (announced : announce watch separated first s = .ok watch' { s with diagnostics := ds })
      (run : stmt t { s with diagnostics := ds } = .ok () u)
      (laid : Laid e t { s with diagnostics := ds } u) (ran : Ran e s u)
      (after : LaidAll e watch' rest u r) : LaidAll e watch (.cons separated first t rest) s r

end

/-- What building a sequence of statements does. -/
def Builds (e : BlockId) (x : BuildM Unit) (L : Builder → Builder → Prop) : Prop :=
  ∀ s, InBody s e → Meets Expected x s fun _ t => Ran e s t ∧ L s t

theorem openParts_meets (h : InBody s e) (line : Nat) (condition : Syntax.Relation)
    (thenMark : Syntax.Mark) :
    Meets Expected (openParts line condition thenMark) s fun r left => ∃ t v a b j,
      r = (t.cursor, b, j) ∧ relation condition s = .ok v t ∧ Extends s t
        ∧ PartsOpen e t left v a b j := by
  unfold openParts
  refine Meets.bind (relation_meets h.toReady condition).run ?_
  rintro v t1 ⟨htest, k1, hv⟩
  refine (quiet_require ..).bind fun ds => ?_
  have h1 : InBody t1 e := h.extends k1
  refine Meets.bind (branchOff_view (s := { t1 with diagnostics := ds }) h1.toPlaced hv.usable line) ?_
  rintro ⟨a, b⟩ t2 ⟨hc2, hfork⟩
  dsimp only at hc2 hfork ⊢
  have hm2 : t2.program.view.sort t2.cursor.method ≠ none := by
    rw [hc2, hfork.keeps.sort]
    exact h1.has_method
  refine Meets.bind (newBlock_view (.join false) hm2) ?_
  rintro _ t3 ⟨rfl, hc3, hview3⟩
  have hcur : t3.cursor = t1.cursor := hc3.trans hc2
  have hopened : Keeps t2.program.view t3.program.view fun _ => False := by
    rw [hview3]
    exact keeps_newBlock t2.program.view_tables _ _
  have hbranched : Branched t1.program.view t1.cursor t3.program.view a b
      ⟨t2.program.view.blocks⟩ := by
    rw [hview3, hc2]
    exact hfork.branched t2.program.view_tables h1.toOpen h1.has_method
  refine meets_cursor ?_
  rw [hcur]
  refine meets_bind_of_eq rfl (meets_pure ?_)
  exact ⟨t1, v, a, b, _, rfl, htest, k1, h1, ⟨_, hfork, hopened⟩, hbranched, rfl⟩

section Parts

variable {E : Error → Prop} {left left' right right' : Builder} {v : ValueId} {a b j : BlockId}
  {way : Departure}

section

variable (h : PartsOpen e t left v a b j)
include h

theorem PartsOpen.inBody : InBody left e :=
  inBody_at (h.branched.body_left h.body) h.at_left

/-- The first part of a conditional goes on in the block behind it. -/
theorem PartsOpen.target_left :
    left.cursor.method = t.cursor.method ∧ Target left.program.view left.cursor j
      ∧ left.program.view.exit left.cursor.method ≠ some j := by
  rw [h.at_left]
  exact ⟨rfl, h.branched.target_left, h.branched.not_exit h.body.toOpen h.branched.new_join⟩

theorem nextPart_meets (ran : Ran e left left') (line : Nat) :
    Meets E (nextPart t.cursor b j line) left' fun way right =>
      way = left'.cursor.departure ∧ right.cursor = t.cursor.fork b
        ∧ right.program.view = left'.program.view.depart left'.cursor j
        ∧ Passed left.program.view left.cursor j e right.program.view way := by
  obtain ⟨-, htarget, hexit⟩ := h.target_left
  refine Meets.bind (departPassed_meets h.inBody ran.advance ran.finish htarget hexit line) ?_
  rintro way u ⟨-, hway, hview, hleft⟩
  exact meets_bind_of_eq rfl (meets_pure ⟨hway, rfl, hview, hleft⟩)

theorem PartsOpen.inBody_right
    (hleft : Passed left.program.view left.cursor j e right.program.view way)
    (at_right : right.cursor = t.cursor.fork b) : InBody right e :=
  inBody_at (h.branched.body_right h.body (h.at_left ▸ hleft)) at_right

/-- So does the second part. -/
theorem PartsOpen.target_right
    (hleft : Passed left.program.view left.cursor j e right.program.view way)
    (at_right : right.cursor = t.cursor.fork b) :
    right.cursor.method = t.cursor.method ∧ Target right.program.view right.cursor j
      ∧ right.program.view.exit right.cursor.method ≠ some j := by
  rw [hleft.keeps.exits, at_right]
  exact ⟨rfl, h.branched.target_right (h.at_left ▸ hleft),
    h.branched.not_exit h.body.toOpen h.branched.new_join⟩

/-- The second part of a conditional, and the jump behind it. -/
theorem lastPart_meets (hleft : Passed left.program.view left.cursor j e right.program.view way)
    (at_right : right.cursor = t.cursor.fork b) (ran : Ran e right right') (line : Nat) :
    Meets E (departTo j line) right' fun way ends => ends.cursor = right'.cursor
      ∧ way = right'.cursor.departure ∧ ends.program.view = right'.program.view.depart right'.cursor j
      ∧ Passed right.program.view right.cursor j e ends.program.view way := by
  obtain ⟨-, htarget, hexit⟩ := h.target_right hleft at_right
  exact departPassed_meets (h.inBody_right hleft at_right) ran.advance ran.finish htarget hexit line

end

end Parts

theorem conditional_meets (line thenLine endLine : Nat) (condition : Syntax.Relation)
    (thenMark fi : Syntax.Mark) {yes no : Syntax.Sequence}
    (hyes : ∀ watch, Builds e (sequence watch yes) (LaidAll e watch yes))
    (hno : ∀ watch, Builds e (sequence watch no) (LaidAll e watch no)) :
    Builds e (stmt (.ifThen line condition thenMark yes thenLine no endLine fi))
      (Laid e (.ifThen line condition thenMark yes thenLine no endLine fi)) := by
  intro s h
  rw [stmt_ifThen]
  refine Meets.bind (openParts_meets h line condition thenMark).run ?_
  rintro ⟨c, b, j⟩ left ⟨hopened, t, v, a, b, j, hr, htest, k1, hopen⟩
  obtain ⟨rfl, rfl, rfl⟩ : c = t.cursor ∧ _ = b ∧ _ = j := by simpa using hr
  obtain ⟨h1, -, hbranched, at_left⟩ := id hopen
  dsimp only
  -- the first part
  refine Meets.bind (hyes t.cursor.reachable left hopen.inBody).run ?_
  rintro _ left' ⟨hrun_left, ran5, laid5⟩
  refine Meets.bind (nextPart_meets hopen ran5 thenLine).run ?_
  rintro _ right ⟨hturned, rfl, at_right, hview6, hleft⟩
  -- the second part
  have hleft' := at_left ▸ hleft
  refine Meets.bind (hno t.cursor.reachable right (hopen.inBody_right hleft at_right)) ?_
  rintro _ right' ⟨ran8, laid8⟩
  refine (quiet_require ..).bind fun ds => ?_
  have ran9 : Ran e right { right' with diagnostics := ds } := ⟨ran8.start, ran8.finish, ran8.advance⟩
  refine Meets.bind (lastPart_meets hopen hleft at_right ran9 endLine) ?_
  rintro _ ends ⟨hc9, rfl, hview9, hright⟩
  -- behind both
  have hm9 : ends.cursor.method = t.cursor.method := by
    rw [hc9]
    exact ran8.advance.method.trans (by rw [at_right]; rfl)
  have hright' := at_right ▸ hright
  have hmeeting := hbranched.meeting h1 right.program.view_tables hleft' hright'
  rw [← hm9] at hmeeting
  refine (enterJoin_meets hmeeting endLine).mono fun _ u hmet => ?_
  rw [hm9] at hmet
  refine ⟨⟨h, hbranched.inBody h1 hleft' hright' hmet,
    k1.advance.trans (hbranched.advance h1.toOpen hleft' hright' hmet) h.toOpen⟩, ?_⟩
  have parts : Conditional e t left left' right right' ends u v a b j :=
    ⟨hopen, ran5, hleft, hview6, at_right, ran8, hright, hview9, hmet⟩
  exact .conditional htest k1 hopened hrun_left hturned parts laid5 laid8

theorem openLoop_meets (h : InBody s e) (line : Nat) (condition : Syntax.Relation)
    (doMark : Syntax.Mark) :
    Meets Expected (openLoop line condition doMark) s fun r inside => ∃ t t' v header a b,
      r = (header, t'.cursor, b) ∧ enterLoop line s = .ok header t
        ∧ relation condition t = .ok v t' ∧ LoopOpen e s t t' inside v header a b := by
  unfold openLoop
  refine Meets.bind (enterLoop_meets h.toReady line).run ?_
  rintro header t1 ⟨hentered, z, hloop⟩
  have a1 := hloop.advance h.toReady
  have h1 : InBody t1 e := by
    refine h.since a1.toSince (hloop.ready h.toReady) a1.method a1.place ?_
    rw [hloop.cursor]
    exact h.returns.imp id fun hne => a1.preds_ne h.waiting.exit hne
  refine Meets.bind (relation_meets h1.toReady condition).run ?_
  rintro v t2 ⟨htest, k2, hv⟩
  refine (quiet_require ..).bind fun ds => ?_
  have h2 : InBody t2 e := h1.extends k2
  refine Meets.bind (branchOff_view (s := { t2 with diagnostics := ds }) h2.toPlaced hv.usable line) ?_
  rintro ⟨a, b⟩ t3 ⟨hc3, hfork⟩
  dsimp only at hc3 hfork ⊢
  refine meets_cursor ?_
  rw [hc3]
  refine meets_bind_of_eq rfl (meets_pure ?_)
  exact ⟨t1, t2, v, header, a, b, rfl, hentered, htest, ⟨z, hloop⟩, ⟨h, h1, a1⟩, k2, hfork, rfl⟩

theorem LoopOpen.inBody {t' inside : Builder} {v : ValueId} {header a b : BlockId}
    (h : LoopOpen e s t t' inside v header a b) : InBody inside e :=
  inBody_at (h.forked.inside (h.entered.finish.extends h.extended)) h.at_body

/-- The body of a loop goes on in the header. -/
theorem LoopOpen.target {t' inside : Builder} {v : ValueId} {header a b : BlockId}
    (h : LoopOpen e s t t' inside v header a b) :
    inside.cursor.method = t'.cursor.method ∧ Target inside.program.view inside.cursor header
      ∧ inside.program.view.exit inside.cursor.method ≠ some header := by
  obtain ⟨⟨_, looped⟩, entered, extended, forked, at_body⟩ := h
  obtain rfl : t'.cursor.block = header := by rw [extended.block, looped.cursor]
  have body : InBody t' e := entered.finish.extends extended
  rw [at_body, forked.keeps.exits]
  exact ⟨rfl, forked.back body, fun he => (body.exit_apart _ he).2 rfl⟩

theorem loop_meets (line endLine : Nat) (condition : Syntax.Relation) (doMark od : Syntax.Mark)
    {body : Syntax.Sequence}
    (hbody : ∀ watch, Builds e (sequence watch body) (LaidAll e watch body)) :
    Builds e (stmt (.whileDo line condition doMark body endLine od))
      (Laid e (.whileDo line condition doMark body endLine od)) := by
  intro s h
  rw [stmt_whileDo]
  refine Meets.bind (openLoop_meets h line condition doMark).run ?_
  rintro ⟨header, c, b⟩ inside ⟨hopened, t, t', v, header, a, b, hr, hrun, htest, hopen⟩
  obtain ⟨rfl, rfl, rfl⟩ : _ = header ∧ c = t'.cursor ∧ _ = b := by simpa using hr
  obtain ⟨⟨z, hloop⟩, hentered, k2, hfork, at_body⟩ := id hopen
  dsimp only
  have h2 : InBody t' e := hentered.finish.extends k2
  have a2 : Advance s t' := hentered.advance.trans k2.advance h.toOpen
  have hheader : t'.cursor.block = header := by rw [k2.block, hloop.cursor]
  have hnew : s.program.view.kind t'.cursor.block = none := by
    rw [hheader]
    exact hloop.headed.new
  have h4 : InBody inside e := hopen.inBody
  refine Meets.bind (hbody t'.cursor.reachable inside h4) ?_
  rintro _ inside' ⟨ran5, laid5⟩
  refine (quiet_require ..).bind fun ds => ?_
  subst hheader
  refine Meets.bind (departPassed_meets (t := { inside' with diagnostics := ds }) h4 ran5.advance
    ran5.finish hopen.target.2.1 hopen.target.2.2 endLine) ?_
  rintro _ u ⟨-, rfl, hview6, hpassed⟩
  have hpassed' := at_body ▸ hpassed
  refine meets_moveTo ⟨⟨h, hfork.inBody h2 a2 h hnew hpassed',
    hfork.advance h2 a2 h.toOpen hnew hpassed'⟩, ?_⟩
  have parts : Loop e s t t' inside inside' { u with cursor := t'.cursor.fork b } v
      t'.cursor.block a b :=
    ⟨hopen, ran5, hpassed, hview6, rfl⟩
  exact .loop hrun htest hopened parts laid5

/-- A statement that only adds instructions. -/
theorem straight_meets {t : Syntax.Stmt} (plain : t.isStraight = true) (h : InBody s e)
    (hrun : Meets Expected (stmt t) s fun _ u => Extends s u) :
    Meets Expected (stmt t) s fun _ u => Ran e s u ∧ Laid e t s u :=
  hrun.run.mono fun _ _ hu =>
    ⟨⟨h, h.extends hu.2, hu.2.advance⟩, .straight plain hu.1 hu.2⟩

mutual

theorem stmt_meets (e : BlockId) : ∀ t : Syntax.Stmt, Builds e (stmt t) (Laid e t)
  | .assign x is arrow value => by
      intro s h
      refine straight_meets rfl h ?_
      unfold stmt
      refine Meets.bind (name_meets _ x) ?_
      rintro ⟨x, pos⟩ _ rfl
      refine Meets.bind (resolve_meets h.toReady x pos.line) ?_
      rintro ⟨shape, storage⟩ _ ⟨rfl, hx⟩
      refine Meets.bind (indices_meets is h.toReady) ?_
      rintro is t1 ⟨k1, his⟩
      refine (quiet_require ..).bind fun ds => ?_
      have hr1 : Ready { t1 with diagnostics := ds } := k1.ready
      refine Meets.bind (expr_meets value hr1) ?_
      rintro v t2 ⟨k2, hv⟩
      exact writeDesignator_meets (extends_trans k1 k2) x pos shape storage
        (fun i hi => (yields_extend (his i hi) k2).usable) hx (yields_after k1 hv)
  | .call callee args close => by
      intro s h
      refine straight_meets rfl h ?_
      unfold stmt
      refine Meets.bind (name_meets _ callee) ?_
      rintro ⟨callee, pos⟩ _ rfl
      refine Meets.bind (arguments_meets args h.toReady) ?_
      rintro args t1 ⟨k1, hargs⟩
      refine (quiet_require ..).bind fun ds => ?_
      have hr1 : Ready { t1 with diagnostics := ds } := k1.ready
      refine Meets.bind (callNamed_meets hr1 callee pos fun v hv => (hargs v hv).usable) ?_
      rintro _ t2 ⟨k2, -⟩
      exact meets_pure (extends_trans k1 k2)
  | .ifThen line condition thenMark yes thenLine no endLine fi =>
      conditional_meets line thenLine endLine condition thenMark fi
        (fun watch => sequence_meets e watch yes) fun watch => sequence_meets e watch no
  | .whileDo line condition doMark body endLine od =>
      loop_meets line endLine condition doMark od fun watch => sequence_meets e watch body
  | .ret pos none => by
      intro s h
      unfold stmt
      refine (leave_meets h (.refl h.toReady) pos (by simp)).mono ?_
      rintro _ u ⟨hu, hadv, c, hleft⟩
      exact ⟨⟨h, hu, hadv⟩, .left hleft⟩
  | .ret pos (some value) => by
      intro s h
      unfold stmt
      refine Meets.bind (expr_meets value h.toReady).run ?_
      rintro v t1 ⟨hrun, k1, hv⟩
      refine (leave_meets h k1 pos (by simpa using hv)).mono ?_
      rintro _ u ⟨hu, hadv, c, hleft⟩
      exact ⟨⟨h, hu, hadv⟩, .leftWith hrun k1 hleft⟩
  | .unknown found => by
      intro s h
      refine straight_meets rfl h ?_
      unfold stmt
      exact (quiet_report ..).meets fun ds => .refl h.toReady

theorem sequence_meets (e : BlockId) (watch : Bool) :
    ∀ ts : Syntax.Sequence, Builds e (sequence watch ts) (LaidAll e watch ts)
  | .nil => by
      intro s h
      unfold sequence
      exact meets_pure ⟨⟨h, h, .refl _ _⟩, .nil⟩
  | .cons separated first t rest => by
      intro s h
      rw [sequence_cons]
      obtain ⟨watch', ds, hannounced⟩ := announce_quiet watch separated first s
      refine meets_bind_of_eq hannounced ?_
      refine Meets.bind (stmt_meets e t { s with diagnostics := ds } h).run ?_
      rintro _ u ⟨hrun, ran1, laid1⟩
      refine (sequence_meets e watch' rest u ran1.finish).mono ?_
      rintro _ r ⟨ran2, laid2⟩
      exact ⟨⟨h, ran2.finish, ran1.advance.trans ran2.advance h.toOpen⟩,
        .cons hannounced hrun laid1 ⟨h, ran1.finish, ran1.advance⟩ laid2⟩

end

end

end Build

end StructuredSsa
