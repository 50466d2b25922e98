import StructuredSsa.Proofs.Joins

/-!
# Inside a body

The steps that end one block and go on in another, while the exit of the
method waits. It gets edges from the ways that return, and where the cursor is
in dead code, there is such a way (`InBody`). A return goes on in a block that
nothing leads to; a loop goes on in its head, with a phi for every variable.
-/

namespace StructuredSsa

namespace View

/-- The exit of a method while its body is built. -/
structure ExitOpen (w : View) (m : MethodId) (e : BlockId) : Prop where
  exit : w.exit m = some e
  kind : w.kind e = some .exit
  home : w.home e = some m
  owned : e ∈ w.owned m
  contents : w.contents e = []
  after : w.after e = none
  idom : w.idom e = none
  /-- The entry block leads into the body. -/
  bypassed : ∀ b, w.entry m = some b → e ∉ w.succs b

/-- The cursor is in the body of a method with exit `e`. -/
structure InBody (w : View) (c : Cursor) (e : BlockId) : Prop extends Ready w c where
  waiting : w.ExitOpen c.method e
  inside : w.entry c.method ≠ some c.block
  returns : c.reachable = true ∨ w.preds e ≠ []

section InBody

variable {w z : View} {c d : Cursor} {e : BlockId}

theorem Since.preds_ne (k : Since w c z) (he : w.exit c.method = some e) (h : w.preds e ≠ []) :
    z.preds e ≠ [] :=
  (k.exit e he).preds_ne h

theorem Wired.entry_kind (h : w.Wired) {m : MethodId} {b : BlockId} (hb : w.entry m = some b) :
    w.kind b ≠ none ∧ w.kind b ≠ some .exit := by
  obtain ⟨⟨vs, hvs⟩, -⟩ := h.isEntry_entry b m hb
  simp [hvs]

/-- The exit is left alone by what is built in the body. -/
theorem ExitOpen.since (h : w.ExitOpen c.method e) (hw : w.Wired) (k : Since w c z)
    (hin : w.entry c.method ≠ some c.block) : z.ExitOpen c.method e := by
  have he := k.exit e h.exit
  refine
    { exit := by rw [k.exits]; exact h.exit
      kind := k.kind _ _ h.kind
      home := k.home _ _ h.home
      owned := k.owned _ _ h.owned
      contents := by rw [View.contents, he.phis, he.body]; exact h.contents
      after := he.after.trans h.after
      idom := he.idom.trans h.idom
      bypassed := fun b hb => ?_ }
  rw [k.entry] at hb
  obtain ⟨hpresent, hkind⟩ := hw.entry_kind hb
  rw [(k.same b hpresent ?_).succs]
  · exact h.bypassed b hb
  · rintro (rfl | hexit)
    · exact hin hb
    · obtain rfl := Option.some.inj (h.exit.symm.trans hexit)
      exact hkind h.kind

/-- From one place of a body to another. -/
theorem InBody.since (h : w.InBody c e) (k : Since w c z) (hr : z.Ready d)
    (hm : d.method = c.method) (hd : d.block = c.block ∨ w.kind d.block = none)
    (hreturns : d.reachable = true ∨ z.preds e ≠ []) : z.InBody d e := by
  refine ⟨hr, hm ▸ h.waiting.since h.wired k h.inside, ?_, hreturns⟩
  rw [k.entry, hm]
  intro hb
  rcases hd with hd | hd
  · exact h.inside (hd ▸ hb)
  · exact (h.wired.entry_kind hb).1 hd

theorem InBody.extends (h : w.InBody c e) (k : Extends w c z d) : z.InBody d e := by
  refine h.since k.advance.toSince k.ready k.advance.method k.advance.place ?_
  rw [k.reachable]
  exact h.returns.imp id fun hp => k.advance.preds_ne h.waiting.exit hp

theorem ExitOpen.target (h : w.ExitOpen c.method e) (hc : w.Open c) : Target w c e where
  present := by simp [h.kind]
  home := h.home
  not_entry := not_isEntry_of_kind h.kind nofun
  owned _ := h.owned
  apart := (hc.exit_apart e h.exit).2
  fit _ := Or.inr ⟨h.contents, h.after⟩
  pointed _ d hd := by
    rw [h.idom] at hd
    cases hd

/-! ## Returning -/

/-- Jump to the exit and go on in a block that nothing leads to. -/
def leave (w : View) (c : Cursor) (e : BlockId) : View :=
  ((w.depart c e).newBlock c.method .plain).begin ⟨w.blocks⟩ c.block c.bindings

/-- Where the cursor is after that. -/
def afterLeave (w : View) (c : Cursor) : Cursor := ⟨c.method, ⟨w.blocks⟩, c.bindings, false⟩

theorem fresh_dead (htz : (w.depart c e).Tables) :
    ((w.depart c e).newBlock c.method .plain).Fresh c.method ⟨w.blocks⟩ := by
  have := fresh_newBlock htz c.method .plain (by simp) (by simp)
  rwa [depart_kept.2.1] at this

theorem Ready.leave (hp : w.Placed c) (ht : w.Tables) (htz : (w.depart c e).Tables)
    (hx : w.ExitOpen c.method e) : (w.leave c e).Ready (w.afterLeave c) := by
  have k1 := keeps_depart hp.toOpen ht e
  have k2 := keeps_newBlock htz c.method .plain
  have k := k1.trans k2
  have hm : (w.depart c e).sort c.method ≠ none := by
    rw [k1.sort]
    exact hp.has_method
  have hsound := (Sound.depart hp ht (hx.target hp.toOpen)).newBlock htz hm .plain (by simp)
    (by simp)
  have hfresh := fresh_dead htz
  refine Blank.begin (c := w.afterLeave c) hfresh.toBlank c.bindings hsound hfresh.idom
    (k.home _ _ hp.home) (fun q hq => ?_) (fun b hb => ?_) (fun b hb => ?_) ?_ (fun x hx' => ?_)
    (fun x v hv => ⟨k.hasValue (hp.usable x v hv).1, fun h => by cases h⟩) (fun h => by cases h)
  · change q ∈ ((w.depart c e).newBlock c.method .plain).preds ⟨w.blocks⟩ at hq
    rw [hfresh.preds] at hq
    cases hq
  · rw [k.exits] at hb
    refine ⟨k.exists_kind (hp.exit_apart b hb).1, ?_⟩
    rintro rfl
    exact (hp.exit_apart _ hb).1 ht.fresh_kind
  · rw [k.entry] at hb
    exact (hp.rooted b hb).mono k.idom
  · show false = true ↔ ((w.depart c e).newBlock c.method .plain).preds ⟨w.blocks⟩ ≠ []
    simp [hfresh.preds]
  · rw [k.tracked] at hx'
    exact hp.bound x hx'

theorem Advance.leave (hp : w.Placed c) (ht : w.Tables) (htz : (w.depart c e).Tables)
    (hx : w.ExitOpen c.method e) : Advance w c (w.leave c e) (w.afterLeave c) := by
  have hne : e ≠ c.block := (hp.exit_apart e hx.exit).2
  have k1 := keeps_depart hp.toOpen ht e
  have k2 := keeps_newBlock htz c.method .plain
  have k3 := keeps_begin c.block c.bindings (fresh_dead htz).idom
  have hnew : w.kind ⟨w.blocks⟩ = none := ht.fresh_kind
  have hsince : Since w c (w.leave c e) := by
    have h1 : Since w c (w.depart c e) := by
      refine (Since.refl w c).step hp.toOpen k1 (fun b hb hz => ?_) fun b hb => ?_
      · exact absurd hb (depart_kept.1 ▸ hz)
      rcases hb with rfl | ⟨-, rfl⟩
      · exact Or.inr (Or.inl ⟨rfl, grown_depart hne⟩)
      · exact Or.inr (Or.inr ⟨hx.exit, entered_depart hp hne⟩)
    have h2 := h1.step hp.toOpen k2 (new_home_newBlock _ _ _) fun _ hb => hb.elim
    exact h2.step hp.toOpen k3 (fun b hb hz => absurd hb hz) fun b hb => Or.inl (hb ▸ hnew)
  have hidom : (w.leave c e).idom ⟨w.blocks⟩ = some c.block := idom_begin ..
  refine
    { toSince := hsince
      method := rfl
      place := Or.inr hnew
      moved := fun _ => ?_
      sealed := fun b hb hz hne => ?_
      above := .single hidom
      live := fun h => by cases h
      fresh := fun x v hv => Or.inl ⟨x, hv⟩ }
  · refine (k2.trans k3).after_of_ne ?_
    simp [after_depart]
  · exfalso
    refine hz ?_
    show (if b = ⟨(w.depart c e).blocks⟩ then _ else (w.depart c e).kind b) = none
    rw [depart_kept.2.1, depart_kept.1]
    exact (if_neg hne).trans hb

/-- After a return there is a way to the exit. -/
theorem preds_leave (hp : w.Placed c) (h : c.reachable = true ∨ w.preds e ≠ []) :
    (w.leave c e).preds e ≠ [] := by
  show (w.depart c e).preds e ≠ []
  rw [preds_depart hp]
  split
  · simp
  · next hl => exact h.resolve_left hl

end InBody

/-! ## The head of a loop -/

/-- A new block for the head of a loop, with the block at the cursor leading
to it and above it. -/
def headed (w : View) (c : Cursor) : View :=
  ((w.newBlock c.method (.join true)).depart c ⟨w.blocks⟩).setIdom ⟨w.blocks⟩ c.block

/-- The block at the cursor `c` was left for the head `h` of a loop, which is
about to be entered. -/
structure Headed (w : View) (c : Cursor) (z : View) (h : BlockId) : Prop where
  sound : z.Sound
  new : w.kind h = none
  kind : z.kind h = some (.join true)
  blank : z.Blank c.method h
  preds : z.preds h = if c.reachable = true then [c.block] else []
  idom : z.idom h = some c.block
  keeps : Keeps w z (· = c.block)
  grown : Grown w z c.block
  departed : z.Departed c.method ⟨c.block, c.bindings, c.reachable⟩
  only : ∀ b, b ≠ h → z.kind b = w.kind b
  body : z.body c.block = w.body c.block ++ [⟨w.values⟩]
  op : z.op ⟨w.values⟩ = some (.jump h)

section Loop

variable {w z : View} {c : Cursor} {h : BlockId}

theorem headed_ok (hr : w.Ready c) (ht : w.Tables) :
    Headed w c (w.headed c) ⟨w.blocks⟩ ∧ (w.headed c).phis ⟨w.blocks⟩ = [] := by
  have hnew := ht.fresh_kind
  have ht1 := ht.newBlock hr.has_method (.join true)
  have k1 := keeps_newBlock ht c.method (.join true)
  have hr1 : (w.newBlock c.method (.join true)).Ready c :=
    ⟨hr.toPlaced.newBlock ht (.join true) (by simp) (by simp), k1.tracked c.method ▸ hr.known⟩
  have hfresh := fresh_newBlock ht c.method (.join true) (by simp) (by simp)
  have hne : (⟨w.blocks⟩ : BlockId) ≠ c.block := fun h => hr.present (h ▸ hnew)
  have hentered := entered_depart hr1.toPlaced hne
  have k2 := keeps_depart hr1.toOpen ht1 ⟨w.blocks⟩
  have hkind : ((w.newBlock c.method (.join true)).depart c ⟨w.blocks⟩).kind ⟨w.blocks⟩
      = some (.join true) := k2.kind _ _ (if_pos rfl)
  have hblank : ((w.newBlock c.method (.join true)).depart c ⟨w.blocks⟩).Blank c.method
      ⟨w.blocks⟩ :=
    ⟨⟨_, hkind, by simp, by simp⟩, k2.home _ _ hfresh.home, k2.owned _ _ hfresh.owned,
      hentered.body.trans hfresh.body, hentered.after.trans hfresh.after⟩
  have hidom := hentered.idom.trans hfresh.idom
  have k3 := keeps_setIdom c.block hidom
  have hpreds : ((w.newBlock c.method (.join true)).depart c ⟨w.blocks⟩).preds ⟨w.blocks⟩
      = (if c.reachable = true then [c.block] else []) := by
    rw [preds_depart hr1.toPlaced, hfresh.preds]
    rfl
  have hsame := k1.same c.block hr.present id
  have hgrown := hsame.grown.trans (grown_depart (c := c) hne)
  refine ⟨
    { sound := (Sound.depart hr1.toPlaced ht1 (hfresh.target hne)).setIdom hidom hblank.not_entry
        ?_ fun q hq => ?_
      new := hnew
      kind := hkind
      blank := ⟨hblank.kind, hblank.home, hblank.owned, hblank.body, hblank.after⟩
      preds := hpreds
      idom := if_pos rfl
      keeps := ((k1.trans k2).trans k3).weaken fun b hb hS => ?_
      grown := { hgrown with idom := (if_neg (Ne.symm hne)).trans hgrown.idom }
      departed := (departed_depart hr1 ht1 ⟨w.blocks⟩).keep k3
      only := fun b hb => ?_
      body := body_depart
      op := op_depart }, hentered.phis.trans hfresh.phis⟩
  · exact (k2.home _ _ (k1.home _ _ hr.home)).trans hblank.home.symm
  · rw [hpreds] at hq
    split at hq
    · rw [List.mem_singleton.1 hq]
      exact .refl _
    · cases hq
  · rcases hS with (hS | hS | ⟨-, rfl⟩) | rfl
    · exact hS.elim
    · exact hS
    · exact absurd hnew hb
    · exact absurd hnew hb
  · show ((w.newBlock c.method (.join true)).depart c ⟨w.blocks⟩).kind b = w.kind b
    rw [depart_kept.1]
    exact if_neg hb

/-- Placing phis in the head of the loop. -/
theorem Headed.phisOnly {y : View} (hh : Headed w c z h) (hc : w.Open c) (k : PhisOnly z y h)
    (hs : y.Sound) : Headed w c y h := by
  have hne : c.block ≠ h := fun he => hc.present (he ▸ hh.new)
  have hsame := k.keeps.same c.block (hh.keeps.exists_kind hc.present) hne
  exact
    { sound := hs
      new := hh.new
      kind := k.keeps.kind _ _ hh.kind
      blank := ⟨k.kinds ▸ hh.blank.kind, k.keeps.home _ _ hh.blank.home,
        k.keeps.owned _ _ hh.blank.owned, k.body.trans hh.blank.body, k.after.trans hh.blank.after⟩
      preds := k.preds.trans hh.preds
      idom := k.idom.trans hh.idom
      keeps := (hh.keeps.trans k.keeps).weaken fun b hb hS =>
        hS.elim id fun he => absurd hh.new (he ▸ hb)
      grown := hh.grown.trans hsame.grown
      departed := hh.departed.keep k.keeps
      only := fun b hb => by rw [k.kinds, hh.only b hb]
      body := hsame.body.trans hh.body
      op := k.keeps.op _ _ hh.op }

/-- What is bound in the head of a loop: phis, or in dead code what was bound
before. -/
def HeadBindings (z : View) (c : Cursor) (h : BlockId) (st : Bindings) : Prop :=
  if c.reachable = true then Merged z h c.bindings (fun _ _ => False) [] st
  else st = c.bindings

theorem HeadBindings.phi {st : Bindings} (hst : HeadBindings z c h st) (hl : c.reachable = true)
    {x : String} {v : ValueId} (hv : st.get? x = some v) : z.PhiFor h x v := by
  rw [HeadBindings, if_pos hl] at hst
  rcases hst.source x v hv with hphi | ⟨-, hfalse | hnil⟩
  · exact hphi
  · exact hfalse.elim
  · cases hnil

theorem Headed.ready (hh : Headed w c z h) (hr : w.Ready c) {st : Bindings}
    (hst : HeadBindings z c h st) :
    (z.setBefore h st).Ready ⟨c.method, h, st, c.reachable⟩ := by
  have hd := hh.departed
  refine ⟨⟨hh.sound.setBefore h st, Blank.open (c := ⟨c.method, h, st, c.reachable⟩)
    ⟨hh.blank.kind, hh.blank.home, hh.blank.owned, hh.blank.body, hh.blank.after⟩ hh.idom
    (fun b hb => ?_) hd.rooted ?_ (fun x hx => ?_) fun x v hv => ?_⟩, fun hl x v hv => ?_⟩
  · change z.exit c.method = some b at hb
    rw [hh.keeps.exits] at hb
    refine ⟨hh.keeps.exists_kind (hr.exit_apart b hb).1, ?_⟩
    rintro rfl
    exact (hr.exit_apart _ hb).1 hh.new
  · show c.reachable = true ↔ z.preds h ≠ []
    rw [hh.preds]
    split <;> simp_all
  · obtain ⟨v, hv⟩ := hd.bound x hx
    unfold HeadBindings at hst
    split at hst
    · exact hst.bound x v hv
    · exact ⟨v, hst ▸ hv⟩
  · by_cases hl : c.reachable = true
    · have hphi := hst.phi hl hv
      exact ⟨hphi.hasValue, fun _ => ⟨h, hphi.1, .refl _⟩⟩
    · rw [HeadBindings, if_neg hl] at hst
      exact ⟨hd.value x v (hst ▸ hv), fun h => absurd h hl⟩
  · rw [HeadBindings, if_pos hl] at hst
    obtain ⟨u, hu⟩ := hst.known x v hv
    exact hd.known hl x u hu

theorem Headed.advance (hh : Headed w c z h) (hc : w.Open c) {st : Bindings}
    (hfresh : ∀ x v, st.get? x = some v → c.bindings.get? x = some v ∨ w.values ≤ v.index) :
    Advance w c (z.setBefore h st) ⟨c.method, h, st, c.reachable⟩ := by
  have hne : c.block ≠ h := fun he => hc.present (he ▸ hh.new)
  have k := keeps_setBefore (w := z) h st
  refine
    { toSince := ((Since.refl w c).step hc hh.keeps (fun b hb hz => ?_) fun b hb => ?_).step hc k
        (fun b hb hz => absurd hb hz) fun b hb => Or.inl (hb ▸ hh.new)
      method := rfl
      place := Or.inr hh.new
      moved := fun _ => ?_
      sealed := fun b hb hz hbh => ?_
      above := .single hh.idom
      live := id
      fresh := fun x v hv => (hfresh x v hv).imp (fun h => ⟨x, h⟩) id }
  · by_cases hbh : b = h
    · exact hbh ▸ hh.blank.home
    · exact absurd ((hh.only b hbh).trans hb) hz
  · exact Or.inr (Or.inl ⟨hb, hb ▸ hh.grown⟩)
  · refine k.after_of_ne ?_
    have := hh.departed.after
    simp_all
  · exact absurd ((hh.only b hbh).trans hb) hz

end Loop

end View

namespace Build

open View

variable {E : Error → Prop} {s t u : Builder}

/-! ## Blocks and edges -/

theorem emit_view (op : Op) (line : Nat) (hpresent : s.program.view.kind s.cursor.block ≠ none)
    (hopen : s.program.view.after s.cursor.block = none)
    (hops : ∀ v ∈ op.operands, s.program.view.HasValue v) :
    Meets E (emit op line) s fun v t => v = ⟨s.program.view.values⟩ ∧ t.cursor = s.cursor
      ∧ t.program.view = s.program.view.emit s.cursor.block op := by
  obtain ⟨p, hp, hview⟩ := Program.emit_ok line hpresent hopen
    fun v hv => (hops v hv).exists_op
  exact meets_cursor (meets_editWith hp ⟨rfl, rfl, hview⟩)

theorem newBlock_view (kind : BlockKind) (hm : s.program.view.sort s.cursor.method ≠ none) :
    Meets E (newBlock kind) s fun b t => b = ⟨s.program.view.blocks⟩ ∧ t.cursor = s.cursor
      ∧ t.program.view = s.program.view.newBlock s.cursor.method kind := by
  obtain ⟨p, hp, hview⟩ := Program.newBlock_ok kind hm
  exact meets_cursor (meets_editWith hp ⟨rfl, rfl, hview⟩)

theorem departTo_view (h : s.program.view.Placed s.cursor) {b : BlockId}
    (hb : Target s.program.view s.cursor b) (line : Nat) : Meets E (departTo b line) s fun d t =>
      d = ⟨s.cursor.block, s.cursor.bindings, s.cursor.reachable⟩ ∧ t.cursor = s.cursor
        ∧ t.program.view = s.program.view.depart s.cursor b := by
  refine meets_cursor (Meets.bind (emit_view (.jump b) line h.present h.opened (by simp [Op.operands])) ?_)
  rintro _ t ⟨-, hc, hview⟩
  have hpresent : t.program.view.kind s.cursor.block ≠ none := hview ▸ h.present
  have hopen : t.program.view.after s.cursor.block = none := hview ▸ h.opened
  obtain ⟨p, hp, hseal⟩ := Program.sealBlock_ok s.cursor.bindings hpresent hopen
  refine meets_bind_edit hp ?_
  rw [View.depart]
  dsimp only
  split
  · have hsource : p.view.kind s.cursor.block ≠ none := by rw [hseal]; exact hpresent
    have htarget : p.view.kind b ≠ none := by rw [hseal, hview]; exact hb.present
    obtain ⟨q, hq, hlink⟩ := Program.link_ok hsource htarget
    refine meets_bind_edit hq ?_
    exact meets_pure ⟨rfl, hc, by rw [hlink, hseal, hview]⟩
  · exact meets_pure ⟨rfl, hc, by rw [hseal, hview]⟩

theorem lead_view {c : Cursor} {b : BlockId} (hc : s.program.view.kind c.block ≠ none)
    (hb : s.program.view.kind b ≠ none) :
    Meets E (do
        if c.reachable then edit fun p => p.link c.block b
        beginBlock b c.block c.bindings) s fun _ t =>
      t.cursor = s.cursor ∧ t.program.view = s.program.view.lead c b := by
  unfold View.lead
  split
  · obtain ⟨q, hq, hlink⟩ := Program.link_ok hc hb
    refine meets_bind_edit hq ?_
    have hb' : q.view.kind b ≠ none := by rw [hlink]; exact hb
    refine (beginBlock_meets _ _ hb').mono ?_
    rintro _ t ⟨hcur, hview⟩
    exact ⟨hcur, by rw [hview]; dsimp only; rw [hlink]⟩
  · exact beginBlock_meets _ _ hb

theorem fork_view {c : Cursor} {a b : BlockId} {v : ValueId} (line : Nat) (hcur : s.cursor = c)
    (hc : s.program.view.Open c) (hv : s.program.view.HasValue v)
    (ha : s.program.view.kind a ≠ none) (hb : s.program.view.kind b ≠ none) :
    Meets E (do
        let _ ← emit (.branch v a b) line
        edit fun p => p.sealBlock c.block c.bindings
        [a, b].forM fun target => do
          if c.reachable then edit fun p => p.link c.block target
          beginBlock target c.block c.bindings
        return (a, b)) s fun r t => r = (a, b) ∧ t.cursor = c
      ∧ t.program.view = s.program.view.fork c v a b := by
  subst hcur
  refine Meets.bind (emit_view (.branch v a b) line hc.present hc.opened
    (by simpa [Op.operands] using hv)) ?_
  rintro _ t ⟨-, hcur, hview⟩
  have hpresent : t.program.view.kind s.cursor.block ≠ none := hview ▸ hc.present
  have hopen : t.program.view.after s.cursor.block = none := hview ▸ hc.opened
  obtain ⟨p, hp, hseal⟩ := Program.sealBlock_ok s.cursor.bindings hpresent hopen
  refine meets_bind_edit hp ?_
  have hkind : p.view.kind = s.program.view.kind := by rw [hseal, hview]; rfl
  refine Meets.bind (P := fun _ u => u.cursor = s.cursor
    ∧ u.program.view = s.program.view.fork s.cursor v a b) ?_ ?_
  · refine Meets.bind (lead_view ?_ ?_) ?_
    · rw [hkind]
      exact hc.present
    · rw [hkind]
      exact ha
    · rintro _ t1 ⟨hcur1, hview1⟩
      have hkind1 : t1.program.view.kind = s.program.view.kind := by
        rw [hview1]
        exact lead_kept.2.2.2.2.2.1.trans hkind
      refine Meets.bind (lead_view ?_ ?_) ?_
      · rw [hkind1]
        exact hc.present
      · rw [hkind1]
        exact hb
      · rintro _ t2 ⟨hcur2, hview2⟩
        refine meets_pure ⟨hcur2.trans (hcur1.trans hcur), ?_⟩
        rw [hview2, hview1]
        dsimp only
        rw [hseal, hview]
        rfl
  · rintro _ u ⟨hcur, hview⟩
    exact meets_pure ⟨rfl, hcur, hview⟩

theorem branchOff_view (h : s.program.view.Placed s.cursor) {v : ValueId}
    (hv : s.program.view.Usable s.cursor v) (line : Nat) :
    Meets E (branchOff v line) s fun r t => t.cursor = s.cursor
      ∧ Forked s.program.view s.cursor v t.program.view r.1 r.2 := by
  have ht := s.program.view_tables
  have ht1 := ht.newBlock h.has_method .plain
  have k1 := keeps_newBlock ht s.cursor.method .plain
  have k12 := keeps_newBlock ht1 s.cursor.method .plain
  have k2 := (k1.trans k12).weaken (T := fun _ => False) fun _ _ h => h.elim id id
  refine meets_cursor (Meets.bind (newBlock_view .plain h.has_method) ?_)
  rintro _ t1 ⟨rfl, hc1, hview1⟩
  have hm1 : t1.program.view.sort t1.cursor.method ≠ none := by
    rw [hview1, hc1]
    exact h.has_method
  refine Meets.bind (newBlock_view .plain hm1) ?_
  rintro b t2 ⟨hb, hc2, hview2⟩
  rw [hview1, hc1] at hview2
  obtain rfl : b = ⟨s.program.view.blocks + 1⟩ := by rw [hb, hview1]; rfl
  refine (fork_view line (hc2.trans hc1) ?_ ?_ ?_ ?_).mono ?_
  · rw [hview2]
    exact h.toOpen.keep k2 id
  · rw [hview2]
    exact k2.hasValue hv.1
  · rw [hview2]
    exact k12.exists_kind (fresh_newBlock ht _ .plain (by simp) (by simp)).present
  · rw [hview2]
    exact (fresh_newBlock ht1 _ .plain (by simp) (by simp)).present
  · rintro _ t ⟨rfl, hc, hview⟩
    refine ⟨hc, ?_⟩
    rw [hview, hview2]
    exact forked_branchOff h ht hv

/-! ## Returning -/

abbrev InBody (s : Builder) (e : BlockId) : Prop := s.program.view.InBody s.cursor e

abbrev Advance (s t : Builder) : Prop :=
  View.Advance s.program.view s.cursor t.program.view t.cursor

/-- Leaving for the exit, from a cursor that may have a return value bound. -/
theorem departExit_meets {e : BlockId} (hp : s.program.view.Placed s.cursor)
    (hx : s.program.view.ExitOpen s.cursor.method e) (pos : Pos) :
    Meets E (do
        let left ← departTo e pos.line
        let dead ← newBlock .plain
        beginBlock dead left.block left.bindings
        moveTo ⟨s.cursor.method, dead, left.bindings, false⟩) s fun _ t =>
      t.program.view = s.program.view.leave s.cursor e
        ∧ t.cursor = s.program.view.afterLeave s.cursor
        ∧ (s.program.view.depart s.cursor e).Tables := by
  refine Meets.bind (departTo_view hp (hx.target hp.toOpen) pos.line) ?_
  rintro _ t ⟨rfl, hc, hview⟩
  have htz : (s.program.view.depart s.cursor e).Tables := hview ▸ t.program.view_tables
  have hm : t.program.view.sort t.cursor.method ≠ none := by
    rw [hc, hview, (keeps_depart hp.toOpen s.program.view_tables e).sort]
    exact hp.has_method
  refine Meets.bind (newBlock_view .plain hm) ?_
  rintro _ u ⟨rfl, hc', hview'⟩
  rw [hview, hc] at hview'
  have hblocks : t.program.view.blocks = s.program.view.blocks := by
    rw [hview]
    exact depart_kept.2.1
  have hpresent : u.program.view.kind ⟨t.program.view.blocks⟩ ≠ none := by
    rw [hview', hblocks]
    exact (fresh_dead htz).present
  refine (enter_meets hpresent).mono fun _ r hr => ?_
  rw [hr.1, hr.2, hview', hblocks]
  exact ⟨rfl, rfl, htz⟩

/-- The bindings that a method is left with: a function binds what it returns. -/
def leavingWith (kind : MethodKind) (bindings : Bindings) (value : Option ValueId) : Bindings :=
  match kind, value with
  | .function, some v => bindings.bind Bindings.returnName v
  | _, _ => bindings

/-- A method was left with `value` as the cursor `c` says, which stands where the
one of `t` does. -/
structure Left (t u : Builder) (e : BlockId) (value : Option ValueId) (c : Cursor) : Prop where
  placed : t.program.view.Placed c
  block : c.block = t.cursor.block
  reachable : c.reachable = t.cursor.reachable
  bindings : ∀ kind, t.program.view.sort t.cursor.method = some kind →
    c.bindings = leavingWith kind t.cursor.bindings value
  view : u.program.view = t.program.view.leave c e
  cursor : u.cursor = t.program.view.afterLeave c
  tables : (t.program.view.depart c e).Tables

/-- The second half of `leave`: everything but the value. -/
theorem leaveFor_meets {e : BlockId} (h : InBody s e) (ha : Advance s t)
    (hp : t.program.view.Placed t.cursor) (hx : t.program.view.ExitOpen t.cursor.method e)
    (hret : t.cursor.reachable = true ∨ t.program.view.preds e ≠ []) (pos : Pos) :
    Meets E (do
        let left ← departTo e pos.line
        let dead ← newBlock .plain
        beginBlock dead left.block left.bindings
        moveTo ⟨t.cursor.method, dead, left.bindings, false⟩) t fun _ u =>
      InBody u e ∧ Advance s u ∧ u.program.view = t.program.view.leave t.cursor e
        ∧ u.cursor = t.program.view.afterLeave t.cursor
        ∧ (t.program.view.depart t.cursor e).Tables := by
  refine (departExit_meets hp hx pos).mono ?_
  rintro _ u ⟨hview, hcur, htz⟩
  have ht := t.program.view_tables
  have hadv : Advance s u := by
    refine ha.trans ?_ h.toOpen
    rw [hview, hcur]
    exact .leave hp ht htz hx
  refine ⟨h.since hadv.toSince ?_ hadv.method hadv.place (Or.inr ?_), hadv, hview, hcur, htz⟩
  · rw [hview, hcur]
    exact .leave hp ht htz hx
  · rw [hview]
    exact preds_leave hp hret

theorem leave_meets {e : BlockId} (h : InBody s e) (k : Extends s t) (pos : Pos)
    {value : Option ValueId} (hv : ∀ v ∈ value, Yields s t v) :
    Meets E (leave pos value) t fun _ u => InBody u e ∧ Advance s u ∧ ∃ c, Left t u e value c := by
  have hbody := h.extends k
  refine meets_cursor (method_meets k.ready.has_method fun r hr => ?_)
  have hsort := (Program.view_of_method hr).1
  have hexit : r.exit = some e := by
    rw [← (Program.view_of_method hr).2.2.1]
    exact hbody.waiting.exit
  rw [hexit]
  dsimp only
  have hplain (hv : leavingWith r.kind t.cursor.bindings value = t.cursor.bindings)
      (ds : List Diagnostic) : Meets E (do
        let left ← departTo e pos.line
        let dead ← newBlock .plain
        beginBlock dead left.block left.bindings
        moveTo ⟨t.cursor.method, dead, left.bindings, false⟩) { t with diagnostics := ds }
      fun _ u => InBody u e ∧ Advance s u ∧ ∃ c, Left t u e value c := by
    refine (leaveFor_meets (t := { t with diagnostics := ds }) h k.advance k.ready.toPlaced
      hbody.waiting hbody.returns pos).mono ?_
    rintro _ u ⟨hu, hadv, hview, hcur, htz⟩
    refine ⟨hu, hadv, t.cursor, k.ready.toPlaced, rfl, rfl, fun kind hkind => ?_, hview, hcur, htz⟩
    obtain rfl := Option.some.inj (hsort.symm.trans hkind)
    exact hv.symm
  cases value with
  | none => cases hkind : r.kind <;> exact hplain (by rw [hkind]; rfl) t.diagnostics
  | some v =>
      have hv := hv v rfl
      cases hkind : r.kind with
      | main | procedure => exact (quiet_report ..).bind (hplain (by rw [hkind]; rfl))
      | function =>
          refine meets_bind_of_eq rfl ?_
          let c : Cursor :=
            { t.cursor with bindings := t.cursor.bindings.bind Bindings.returnName v }
          have hplaced : t.program.view.Placed c :=
            k.ready.toPlaced.bind Bindings.returnName hv.usable
          refine (leaveFor_meets (t := { t with cursor := c }) h (k.advance.bind hv.sourced)
            hplaced hbody.waiting hbody.returns pos).mono ?_
          rintro _ u ⟨hu, hadv, hview, hcur, htz⟩
          refine ⟨hu, hadv, c, hplaced, rfl, rfl, fun kind hfun => ?_, hview, hcur, htz⟩
          obtain rfl := Option.some.inj (hsort.symm.trans hfun)
          rw [hkind]
          rfl

/-! ## Entering a loop -/

/-- The head of a loop was entered. -/
structure Looped (s t : Builder) (header : BlockId) (z : View) : Prop where
  headed : Headed s.program.view s.cursor z header
  view : t.program.view = z.setBefore header t.cursor.bindings
  cursor : t.cursor = ⟨s.cursor.method, header, t.cursor.bindings, s.cursor.reachable⟩
  bindings : HeadBindings z s.cursor header t.cursor.bindings
  /-- Every variable has a phi. -/
  placement : s.cursor.reachable = true → (s.program.view.tracked s.cursor.method).Nodup →
    Placement z header s.cursor.bindings (· ∈ s.program.view.tracked s.cursor.method) []
      t.cursor.bindings
  fresh : ∀ x v, t.cursor.bindings.get? x = some v →
    s.cursor.bindings.get? x = some v ∨ s.program.view.values ≤ v.index

theorem Looped.ready {header : BlockId} {z : View} (h : Looped s t header z) (hr : Ready s) :
    Ready t := by
  show t.program.view.Ready t.cursor
  rw [h.view, h.cursor]
  exact h.headed.ready hr h.bindings

theorem Looped.advance {header : BlockId} {z : View} (h : Looped s t header z) (hr : Ready s) :
    Advance s t := by
  show View.Advance s.program.view s.cursor t.program.view t.cursor
  rw [h.view, h.cursor]
  exact h.headed.advance hr.toOpen h.fresh

/-- The last steps of entering a loop, once its phis are placed. -/
theorem enterHead_meets {header : BlockId} {st : Bindings}
    (hh : Headed s.program.view s.cursor t.program.view header)
    (hst : HeadBindings t.program.view s.cursor header st)
    (hplacement : s.cursor.reachable = true →
      (s.program.view.tracked s.cursor.method).Nodup → Placement t.program.view header
        s.cursor.bindings (· ∈ s.program.view.tracked s.cursor.method) [] st)
    (hfresh : ∀ x v, st.get? x = some v →
      s.cursor.bindings.get? x = some v ∨ s.program.view.values ≤ v.index) :
    Meets E (do
        edit fun p => p.setBefore header st
        moveTo ⟨s.cursor.method, header, st, s.cursor.reachable⟩
        return header) t fun header u => ∃ z, Looped s u header z := by
  obtain ⟨p, hp, hview⟩ := Program.setBefore_ok st hh.blank.present
  refine meets_bind_edit hp (meets_bind_of_eq rfl (meets_pure ?_))
  exact ⟨t.program.view, hh, hview, rfl, hst, hplacement, hfresh⟩

theorem enterLoop_meets (h : Ready s) (line : Nat) :
    Meets E (enterLoop line) s fun header t => ∃ z, Looped s t header z := by
  have ht := s.program.view_tables
  obtain ⟨hheaded, hphis⟩ := headed_ok h ht
  refine meets_cursor (Meets.bind (newBlock_view (.join true) h.has_method) ?_)
  rintro _ t1 ⟨rfl, hc1, hview1⟩
  have hplaced : t1.program.view.Placed t1.cursor := by
    rw [hview1, hc1]
    exact h.toPlaced.newBlock ht _ (by simp) (by simp)
  have hfresh := fresh_newBlock ht s.cursor.method (.join true) (by simp) (by simp)
  have hne : (⟨s.program.view.blocks⟩ : BlockId) ≠ s.cursor.block := fun h' =>
    h.present (h' ▸ ht.fresh_kind)
  have htarget : Target t1.program.view t1.cursor ⟨s.program.view.blocks⟩ := by
    rw [hview1, hc1]
    exact hfresh.target hne
  refine Meets.bind (departTo_view hplaced htarget line) ?_
  rintro _ t2 ⟨rfl, hc2, hview2⟩
  rw [hview1, hc1] at hview2
  rw [hc1] at hc2 ⊢
  have hpresent : t2.program.view.kind ⟨s.program.view.blocks⟩ ≠ none := by
    rw [hview2]
    exact hheaded.blank.present
  obtain ⟨p, hp, hidom⟩ := Program.setDominator_ok s.cursor.block hpresent
  refine meets_bind_edit hp ?_
  have hhead : Headed s.program.view s.cursor p.view ⟨s.program.view.blocks⟩ := by
    rw [hidom, hview2]
    exact hheaded
  dsimp only
  split
  · next hl =>
      have hm : p.view.sort t2.cursor.method ≠ none := by
        rw [hc2, hhead.keeps.sort]
        exact h.has_method
      refine Meets.bind (trackedNames_meets (s := { t2 with program := p }) hm) ?_
      rintro names _ ⟨rfl, rfl⟩
      refine Meets.bind (headerNames_meets (s := { t2 with program := p }) line rfl _ hhead.sound
        hhead.kind hhead.blank.home ?_ hhead.departed ?_ ?_) ?_
      · rw [hhead.preds, if_pos hl]
      · dsimp only
        rw [hc2]
        exact fun x hx => hx
      · refine ⟨fun x v hv => Or.inr ⟨hv, Or.inr ?_⟩, fun x v hv => ⟨v, hv⟩, fun x v hv => ⟨v, hv⟩⟩
        dsimp only
        rw [hc2]
        exact hhead.departed.known hl x v hv
      · rintro st u ⟨-, hs, honly, hmerged, hnew, hplacement⟩
        refine enterHead_meets (hhead.phisOnly h.toOpen honly hs) ?_ (fun _ hnodup => ?_)
          fun x v hv => ?_
        · rw [HeadBindings, if_pos hl]
          exact hmerged
        · have htracked : p.view.tracked t2.cursor.method
              = s.program.view.tracked s.cursor.method := by
            rw [hc2, hhead.keeps.tracked]
          dsimp only at hplacement
          rw [htracked] at hplacement
          refine hplacement _ (fun x hx => hx) hnodup (.start ?_ fun x hx => hx)
          rw [hidom, hview2]
          exact hphis
        · exact (hnew x v hv).imp id fun hle => hhead.keeps.values.trans hle
  · next hl =>
      refine enterHead_meets (t := { t2 with program := p }) hhead ?_ (fun h => absurd h hl)
        fun x v hv => Or.inl hv
      rw [HeadBindings, if_neg hl]

end Build

end StructuredSsa
