import StructuredSsa.Proofs.Declare

/-!
# Methods and computations

A method is opened at its entry, gets its declarations there, and then a body
from a first block to the exit. A computation opens the method of its own body
first, and builds that body when all other methods are finished.

`buildTokens_sound` is what comes out of it: whatever the tokens, a program
that is built is sound, and all of its methods are closed.
-/

namespace StructuredSsa

namespace View

section Open

variable {w z : View} {c : Cursor}

/-! ## Opening a method -/

theorem Sound.addMethod (h : w.Sound) (ht : w.Tables) (kind : MethodKind) :
    (w.addMethod kind).Sound where
  wired := h.wired.addMethod ht kind
  scoping := h.scoping.addMethod h.wired ht kind
  ended b hl hb := by
    have hbe : b ≠ ⟨w.blocks⟩ := by
      rintro rfl
      exact hb (ht.absent ht.fresh_kind).2.2.2.2.2.1
    refine h.ended b ?_ hb
    rcases hl with ⟨vs, hvs⟩ | hp
    · exact Or.inl ⟨vs, (if_neg hbe).symm.trans hvs⟩
    · exact Or.inr hp
  sole b n hb hn := by
    change (if b = ⟨w.blocks⟩ then some (.entry []) else w.kind b) = _ at hb
    change (if b = ⟨w.blocks⟩ then some _ else w.home b) = _ at hn
    split at hb
    · cases hb
    · next hbe =>
        rw [if_neg hbe] at hn
        exact h.sole b n hb hn

/-- The cursor at the entry of a new method. -/
theorem Sound.opening (h : w.Sound) (ht : w.Tables) (kind : MethodKind)
    (hmain : kind = .main → w.globals.scalars = [] ∧ ∀ n, w.sort n = none) :
    ((w.addMethod kind).setBefore ⟨w.blocks⟩ .empty).Opening
      (.start ⟨w.methods⟩ ⟨w.blocks⟩ .empty) := by
  have hnone : w.sort ⟨w.methods⟩ = none := ht.sort_none.2 (Nat.le_refl _)
  obtain ⟨-, hbody, -, -, -, hafter, -⟩ := ht.absent ht.fresh_kind
  have hsort : (w.addMethod kind).sort ⟨w.methods⟩ = some kind := if_pos rfl
  have hkind : (w.addMethod kind).kind ⟨w.blocks⟩ = some (.entry []) := if_pos rfl
  have hexit : (w.addMethod kind).exit ⟨w.methods⟩ = none := ht.exit_none hnone
  have htracked : (w.addMethod kind).tracked ⟨w.methods⟩ = [] := by
    rw [tracked, scopeOf, hsort]
    cases kind with
    | main => exact (hmain rfl).1
    | function | procedure =>
        show (w.symbols ⟨w.methods⟩).scalars = []
        rw [ht.symbols_none hnone]
        rfl
  have hstart : (w.addMethod kind).entry ⟨w.methods⟩ = some ⟨w.blocks⟩ := if_pos rfl
  refine
    { toSound := (h.addMethod ht kind).setBefore _ _
      present := ?_
      home := if_pos rfl
      owned := ?_
      opened := hafter
      straight := fun u hu => ?_
      not_exit := ?_
      exit_apart := fun b hb => ?_
      rooted := fun e he => ?_
      live := iff_of_true rfl (Or.inl ⟨[], hkind⟩)
      bound := fun x hx => ?_
      usable := fun x v hv => by simp [Cursor.start] at hv
      known := fun _ x v hv => by simp [Cursor.start] at hv
      before := if_pos rfl
      code := fun u hu => ?_
      reachable := rfl
      start := hstart
      no_exit := hexit
      alone := fun b hb => ?_
      distinct := ?_
      one_main := fun n hm hn => ?_ }
  · show (w.addMethod kind).kind ⟨w.blocks⟩ ≠ none
    simp [hkind]
  · show (⟨w.blocks⟩ : BlockId) ∈ if (⟨w.methods⟩ : MethodId) = ⟨w.methods⟩
      then [(⟨w.blocks⟩ : BlockId)] else _
    simp
  · change u ∈ w.body ⟨w.blocks⟩ at hu
    rw [hbody] at hu
    cases hu
  · show (w.addMethod kind).kind ⟨w.blocks⟩ ≠ some .exit
    simp [hkind]
  · change (w.addMethod kind).exit ⟨w.methods⟩ = some b at hb
    rw [hexit] at hb
    cases hb
  · change (w.addMethod kind).entry ⟨w.methods⟩ = some e at he
    obtain rfl := Option.some.inj (hstart.symm.trans he)
    exact .refl _
  · change x ∈ (w.addMethod kind).tracked ⟨w.methods⟩ at hx
    rw [htracked] at hx
    cases hx
  · change u ∈ w.body ⟨w.blocks⟩ at hu
    rw [hbody] at hu
    cases hu
  · change (if b = ⟨w.blocks⟩ then some _ else w.home b) = some ⟨w.methods⟩ at hb
    split at hb
    · next hbe => exact hbe
    · exact absurd hnone (h.wired.home_sort b _ hb)
  · show ((w.addMethod kind).tracked ⟨w.methods⟩).Nodup
    rw [htracked]
    exact List.nodup_nil
  · change (w.addMethod kind).sort ⟨w.methods⟩ = some .main at hm
    rw [hsort] at hm
    change (if n = ⟨w.methods⟩ then some kind else w.sort n) = some .main at hn
    split at hn
    · next hne => exact hne
    · rw [(hmain (Option.some.inj hm)).2 n] at hn
      cases hn

theorem outside_addMethod (ht : w.Tables) (kind : MethodKind) :
    Outside w ((w.addMethod kind).setBefore ⟨w.blocks⟩ .empty) ⟨w.methods⟩ where
  block b n hb _ := by
    have hbe : b ≠ ⟨w.blocks⟩ := by
      rintro rfl
      rw [ht.home_none.2 ht.fresh_kind] at hb
      cases hb
    exact ⟨if_neg hbe, if_neg hbe, rfl, rfl, rfl, rfl, if_neg hbe, rfl, rfl⟩
  home b n hb hn := by
    change (if b = ⟨w.blocks⟩ then some _ else w.home b) = some n at hb
    split at hb
    · exact absurd (Option.some.inj hb).symm hn
    · exact hb
  instr _ _ _ _ _ _ := ⟨rfl, rfl⟩
  sort _ hn := if_neg hn
  entry _ hn := if_neg hn
  exit _ _ := rfl
  symbols _ _ := rfl
  owned n hn b := by
    show b ∈ (if n = ⟨w.methods⟩ then _ else w.owned n) ↔ _
    rw [if_neg hn]
  globals := rfl

/-! ## Opening a body -/

/-- The entry is left for a new block. -/
abbrev leftEntry (w : View) (c : Cursor) : View := (w.newBlock c.method .plain).depart c ⟨w.blocks⟩

/-- The first block of a body, below the entry. -/
def entered (w : View) (c : Cursor) : View :=
  (w.leftEntry c).begin ⟨w.blocks⟩ c.block c.bindings

/-- What stands between the first block of a body and its exit. -/
structure Started (w : View) (c : Cursor) (z : View) (b : BlockId) : Prop where
  ready : z.Ready (.start c.method b c.bindings)
  keeps : Keeps w z (· = c.block)
  after : z.after c.block ≠ none
  only : ∀ d, w.kind d = none → z.kind d ≠ none → d = b
  new : w.kind b = none

theorem AtEntry.started (h : w.AtEntry c) (ht : w.Tables) :
    Started w c (w.entered c) ⟨w.blocks⟩ := by
  have ht1 := ht.newBlock h.has_method .plain
  have k1 := keeps_newBlock ht c.method .plain
  have hr1 := h.toPlaced.newBlock ht .plain (by simp) (by simp)
  have hfresh := fresh_newBlock ht c.method .plain (by simp) (by simp)
  have hne : (⟨w.blocks⟩ : BlockId) ≠ c.block := fun he => h.present (he ▸ ht.fresh_kind)
  have hentered := entered_depart hr1 hne
  have k2 := keeps_depart hr1.toOpen ht1 ⟨w.blocks⟩
  have hidom := hentered.idom.trans hfresh.idom
  have k3 := keeps_begin (w := w.leftEntry c) c.block c.bindings hidom
  have hblank : (w.leftEntry c).Blank c.method ⟨w.blocks⟩ := by
    obtain ⟨k, hk, hkinds⟩ := hfresh.kind
    exact ⟨⟨k, k2.kind _ _ hk, hkinds⟩, k2.home _ _ hfresh.home, k2.owned _ _ hfresh.owned,
      hentered.body.trans hfresh.body, hentered.after.trans hfresh.after⟩
  have hpreds : (w.leftEntry c).preds ⟨w.blocks⟩ = [c.block] := by
    rw [preds_depart hr1, hfresh.preds, if_pos h.reachable]
    rfl
  have k12 := k1.trans k2
  refine
    { ready := ?_
      keeps := (k12.trans k3).weaken fun b hb hS => ?_
      after := ?_
      only := fun d hd hz => ?_
      new := ht.fresh_kind }
  · refine Blank.begin (c := .start c.method ⟨w.blocks⟩ c.bindings) hblank c.bindings
      (Sound.depart hr1 ht1 (hfresh.target hne)) hidom (k12.home _ _ h.home) ?_ ?_ ?_ ?_ ?_ ?_ ?_
    · intro q hq
      change q ∈ (w.leftEntry c).preds ⟨w.blocks⟩ at hq
      rw [hpreds, List.mem_singleton] at hq
      exact hq ▸ .refl _
    · intro b hb
      change (w.leftEntry c).exit c.method = some b at hb
      rw [k12.exits, h.no_exit] at hb
      cases hb
    · intro e he
      change (w.leftEntry c).entry c.method = some e at he
      rw [k12.entry] at he
      exact (h.rooted e he).mono k12.idom
    · refine iff_of_true rfl ?_
      show (w.leftEntry c).preds ⟨w.blocks⟩ ≠ []
      simp [hpreds]
    · show ∀ x ∈ (w.leftEntry c).tracked c.method, _
      rw [k12.tracked]
      exact h.bound
    · intro x v hv
      obtain ⟨hval, habove⟩ := h.usable x v hv
      exact ⟨k12.hasValue hval, fun _ => Or.inr (k12.definedAbove hval (habove h.reachable))⟩
    · intro _ x v hv
      show x ∈ (w.leftEntry c).tracked c.method
      rw [k12.tracked]
      exact h.known h.reachable x v hv
  · rcases hS with (hS | hS | ⟨-, rfl⟩) | rfl
    · exact hS.elim
    · exact hS
    · exact absurd ht.fresh_kind hb
    · exact absurd ht.fresh_kind hb
  · refine k3.after_of_ne ?_
    simp [after_depart]
  · by_contra hne'
    refine hz ?_
    show (w.leftEntry c).kind d = none
    rw [depart_kept.1]
    exact (if_neg hne').trans hd

/-- The exit of a method, at the start of its body. -/
def addExit (w : View) (m : MethodId) : View :=
  (w.newBlock m .exit).setExit m (some ⟨w.blocks⟩)

theorem Sound.addExit (h : w.Sound) (ht : w.Tables) {m : MethodId} (hm : w.sort m ≠ none)
    (hexit : w.exit m = none) : (w.addExit m).Sound where
  wired := (h.wired.newBlock ht hm (by simp)).setExit m _
  scoping := (h.scoping.newBlock ht (by simp)).setExit m _
  ended b hl hb := h.ended b ((live_newBlock (m := m) ht (by simp)).1 hl) hb
  sole b n hb hn := by
    change (if b = ⟨w.blocks⟩ then some .exit else w.kind b) = _ at hb
    change (if b = ⟨w.blocks⟩ then some m else w.home b) = _ at hn
    show (if n = m then some ⟨w.blocks⟩ else w.exit n) = some b
    split at hb
    · next hbe =>
        rw [if_pos hbe] at hn
        rw [if_pos (Option.some.inj hn).symm, hbe]
    · next hbe =>
        rw [if_neg hbe] at hn
        have hbn := h.sole b n hb hn
        have hnm : n ≠ m := by
          rintro rfl
          rw [hexit] at hbn
          cases hbn
        rw [if_neg hnm, hbn]

theorem outside_addExit (ht : w.Tables) (hw : w.Wired) {m : MethodId} (hm : w.sort m ≠ none) :
    Outside w (w.addExit m) m := by
  have k := keeps_newBlock ht m .exit
  have hwired : (w.newBlock m .exit).Wired := hw.newBlock ht hm (by simp)
  have hnew := k.outside ht (ht.newBlock hm .exit) hw hwired (fun _ _ hb => hb.elim)
    (new_home_newBlock w m .exit)
  exact { hnew with exit := fun n hn => if_neg hn, block := fun b n hb hn => { hnew.block b n hb hn with } }

theorem Ready.addExit (h : w.Ready c) (ht : w.Tables) (hreach : c.reachable = true)
    (hexit : w.exit c.method = none) (hin : w.entry c.method ≠ some c.block) :
    (w.addExit c.method).InBody c ⟨w.blocks⟩ := by
  have k := keeps_newBlock ht c.method .exit
  have hopen := h.toOpen.keep k id
  have hne : (⟨w.blocks⟩ : BlockId) ≠ c.block := fun he => h.present (he ▸ ht.fresh_kind)
  have hkind : (w.newBlock c.method .exit).kind ⟨w.blocks⟩ = some .exit := if_pos rfl
  obtain ⟨hphis, hbody, hpreds, -, -, hafter, hidom⟩ := ht.absent ht.fresh_kind
  refine ⟨⟨⟨h.toSound.addExit ht h.has_method hexit, ?_⟩, h.known⟩, ?_, hin, Or.inl hreach⟩
  · refine { hopen with exit_apart := fun b hb => ?_ }
    change (if c.method = c.method then some ⟨w.blocks⟩ else _) = some b at hb
    rw [if_pos rfl] at hb
    obtain rfl := Option.some.inj hb
    refine ⟨?_, hne⟩
    show (w.newBlock c.method .exit).kind ⟨w.blocks⟩ ≠ none
    simp [hkind]
  · refine
      { exit := if_pos rfl
        kind := hkind
        home := if_pos rfl
        owned := ?_
        contents := by rw [View.contents]; exact List.append_eq_nil_iff.2 ⟨hphis, hbody⟩
        after := hafter
        idom := hidom
        bypassed := fun b _ hb => ?_ }
    · show _ ∈ if c.method = c.method then w.owned c.method ++ [⟨w.blocks⟩] else _
      simp
    · have hmem := (h.wired.edge b ⟨w.blocks⟩).1 hb
      rw [hpreds] at hmem
      cases hmem

/-- At the start of a body the first block is below the entry, which leads there. -/
theorem AtEntry.strict (h : w.AtEntry c) (ht : w.Tables) :
    ((w.entered c).addExit c.method).Strict c.method := by
  have ht1 := ht.newBlock h.has_method .plain
  have k1 := keeps_newBlock ht c.method .plain
  have hr1 := h.toPlaced.newBlock ht .plain (by simp) (by simp)
  have hdepart : (w.leftEntry c).idom = w.idom ∧ (w.leftEntry c).entry = w.entry := by
    unfold leftEntry depart
    split <;> exact ⟨rfl, rfl⟩
  intro a b ha hhome hlive hidom
  obtain rfl : c.block = a := by
    change (w.leftEntry c).entry c.method = some a at ha
    rw [hdepart.2, h.start] at ha
    exact Option.some.inj ha
  by_cases hb : b = ⟨w.blocks⟩
  · subst hb
    refine .single (idom_begin _ ⟨w.blocks⟩ c.block c.bindings) ?_ (tight_refl _ _)
    show _ ∈ (w.leftEntry c).succs c.block
    rw [succs_depart hr1 h.reachable]
    exact List.mem_singleton.2 rfl
  · change (if b = ⟨w.blocks⟩ then _ else (w.leftEntry c).idom b) ≠ none at hidom
    rw [if_neg hb, hdepart.1] at hidom
    -- only a block from before has a pointer, and the method had none but its entry
    have hpresent : w.kind b ≠ none := fun hnone => hidom (ht.absent hnone).2.2.2.2.2.2
    obtain ⟨n, hn⟩ := Option.ne_none_iff_exists'.1 (mt ht.home_none.1 hpresent)
    have hold := (h.started ht).keeps.home b n hn
    have hne : b ≠ ⟨(w.entered c).blocks⟩ := by
      rintro rfl
      refine hpresent (ht.kind_none.2 ?_)
      show w.blocks ≤ (w.leftEntry c).blocks
      rw [depart_kept.2.1]
      exact Nat.le_succ _
    change (if b = ⟨(w.entered c).blocks⟩ then _ else (w.entered c).home b) = _ at hhome
    rw [if_neg hne, hold] at hhome
    rw [h.alone b (hn.trans hhome),
      h.scoping.entry_idom _ (h.wired.isEntry_entry _ _ h.start).1] at hidom
    exact absurd rfl hidom

/-! ## While another method is built -/

/-- A method that waits at its entry is left alone. -/
theorem AtEntry.outside {m : MethodId} (h : w.AtEntry c) (k : Outside w z m) (hz : z.Sound)
    (hm : c.method ≠ m) : z.AtEntry c := by
  have hsame := k.block c.block c.method h.home hm
  have hnone := h.scoping.entry_idom _ (h.wired.isEntry_entry _ _ h.start).1
  have htracked : z.tracked c.method = w.tracked c.method := k.tracked hm
  have hinstr {v : ValueId} (hv : w.owner v = some c.block) :
      z.op v = w.op v ∧ z.owner v = w.owner v := k.instr v _ _ hv h.home hm
  refine
    { toSound := hz
      present := hsame.kind ▸ h.present
      home := hsame.home ▸ h.home
      owned := (k.owned _ hm _).2 h.owned
      opened := hsame.after ▸ h.opened
      straight := fun u hu => ?_
      not_exit := hsame.kind ▸ h.not_exit
      exit_apart := fun b hb => ?_
      rooted := fun e he => ?_
      live := h.live.trans hsame.live.symm
      bound := htracked ▸ h.bound
      usable := fun x v hv => ?_
      known := htracked ▸ h.known
      before := hsame.before.trans h.before
      code := fun v hv => ?_
      reachable := h.reachable
      start := (k.entry _ hm).trans h.start
      no_exit := (k.exit _ hm).trans h.no_exit
      alone := fun b hb => h.alone b (k.home b _ hb hm)
      distinct := htracked ▸ h.distinct }
  · rw [hsame.body] at hu
    rw [(hinstr ((h.wired.listed u c.block).1 (List.mem_append_right _ hu))).1]
    exact h.straight u hu
  · rw [k.exit _ hm, h.no_exit] at hb
    cases hb
  · rw [k.entry _ hm, h.start] at he
    exact Option.some.inj he ▸ .refl _
  · -- Above the entry there is only the entry.
    obtain ⟨⟨o, ho, hhas⟩, habove⟩ := h.usable x v hv
    obtain ⟨d, hd, hdc⟩ := habove h.reachable
    cases hdc with
    | refl =>
        obtain ⟨hop, howner⟩ := hinstr hd
        exact ⟨⟨o, hop.trans ho, hhas⟩, fun _ => ⟨c.block, howner.trans hd, .refl _⟩⟩
    | up hidom _ =>
        rw [hnone] at hidom
        cases hidom
  · rw [hsame.body] at hv
    rw [(hinstr ((h.wired.listed v c.block).1 (List.mem_append_right _ hv))).1]
    exact h.code v hv

end Open

end View

namespace Build

open View

variable {E : Error → Prop} {s : Builder}

theorem openMethod_meets (x : String) (kind : MethodKind) (h : s.program.view.Sound)
    (hmain : kind = .main → s.program.view.globals.scalars = []
      ∧ ∀ n, s.program.view.sort n = none) :
    Meets E (openMethod x kind) s fun _ t => Opening t
      ∧ t.cursor.method = ⟨s.program.view.methods⟩
      ∧ t.program.view.sort t.cursor.method = some kind
      ∧ Outside s.program.view t.program.view ⟨s.program.view.methods⟩ := by
  have ht := s.program.view_tables
  obtain ⟨hid, hview⟩ := Program.view_addMethod s.program x kind
  unfold openMethod
  refine Meets.bind (P := fun m t => m = ⟨s.program.view.methods⟩
    ∧ t = { s with program := (s.program.addMethod x kind).2 })
    (meets_editWith (a := (s.program.addMethod x kind).1) rfl ⟨hid, rfl⟩) ?_
  rintro _ _ ⟨rfl, rfl⟩
  have hsort : (s.program.addMethod x kind).2.view.sort ⟨s.program.view.methods⟩ = some kind := by
    rw [hview]
    exact if_pos rfl
  obtain ⟨r, hr⟩ := Program.method_of_sort (by rw [hsort]; simp)
  have hentry : r.entry = ⟨s.program.view.blocks⟩ := by
    have := (Program.view_of_method hr).2.1
    rw [hview] at this
    exact (Option.some.inj ((if_pos rfl).symm.trans this)).symm
  refine Meets.bind (P := fun a t => a = r
    ∧ t = { s with program := (s.program.addMethod x kind).2 })
    (meets_look (Program.getMethod_ok hr) ⟨rfl, rfl⟩) ?_
  rintro _ _ ⟨rfl, rfl⟩
  rw [hentry]
  obtain ⟨p, hp, hbefore⟩ := Program.setBefore_ok (p := (s.program.addMethod x kind).2)
    (b := ⟨s.program.view.blocks⟩) .empty (by rw [hview]; simp [View.addMethod])
  refine meets_bind_edit hp (meets_moveTo ?_)
  rw [hview] at hbefore
  dsimp only
  refine ⟨?_, rfl, ?_, ?_⟩
  · show p.view.Opening _
    rw [hbefore]
    exact h.opening ht kind hmain
  · rw [hbefore]
    exact if_pos rfl
  · rw [hbefore]
    exact outside_addMethod ht kind

/-- A body that has just been opened. -/
structure BodyOpen (s t : Builder) (e : BlockId) : Prop where
  inBody : InBody t e
  cursor : t.cursor = .start s.cursor.method ⟨s.program.view.blocks⟩ s.cursor.bindings
  view : t.program.view = (s.program.view.entered s.cursor).addExit s.cursor.method
  outside : Outside s.program.view t.program.view s.cursor.method
  sealed : ∀ b, t.program.view.home b = some t.cursor.method → b ≠ e → b ≠ t.cursor.block →
    t.program.view.after b ≠ none
  fresh : t.program.view.preds e = []

theorem openBody_meets (h : s.program.view.AtEntry s.cursor) (line : Nat) :
    Meets E (openBody line) s fun _ t => ∃ e, BodyOpen s t e := by
  have ht := s.program.view_tables
  have hstarted := h.started ht
  have hfresh := fresh_newBlock ht s.cursor.method .plain (by simp) (by simp)
  have hne : (⟨s.program.view.blocks⟩ : BlockId) ≠ s.cursor.block := fun he =>
    h.present (he ▸ ht.fresh_kind)
  unfold openBody
  refine meets_cursor (Meets.bind (newBlock_view .plain h.has_method) ?_)
  rintro _ t1 ⟨rfl, hc1, hview1⟩
  have hplaced : t1.program.view.Placed t1.cursor := by
    rw [hview1, hc1]
    exact h.toPlaced.newBlock ht _ (by simp) (by simp)
  have htarget : Target t1.program.view t1.cursor ⟨s.program.view.blocks⟩ := by
    rw [hview1, hc1]
    exact hfresh.target hne
  refine Meets.bind (departTo_view hplaced htarget line) ?_
  rintro _ t2 ⟨rfl, hc2, hview2⟩
  rw [hc1, hview1] at hview2
  have hpresent2 : t2.program.view.kind ⟨s.program.view.blocks⟩ ≠ none := by
    rw [hview2, depart_kept.1]
    exact hfresh.present
  refine Meets.bind (beginBlock_meets _ _ hpresent2) ?_
  rintro _ t3 ⟨hc3, hview3⟩
  have hcur3 : t3.cursor = s.cursor := hc3.trans (hc2.trans hc1)
  have hview3' : t3.program.view = s.program.view.entered s.cursor := by
    rw [hview3, hview2, hc1]
    rfl
  rw [← hview3'] at hstarted
  have ht3 := t3.program.view_tables
  have hready := hstarted.ready
  have hm3 : t3.program.view.sort t3.cursor.method ≠ none := by
    rw [hcur3]
    exact hready.has_method
  refine Meets.bind (newBlock_view .exit hm3) ?_
  rintro _ t4 ⟨rfl, hc4, hview4⟩
  rw [hcur3] at hview4
  have hm4 : t4.program.view.sort s.cursor.method ≠ none := by
    rw [hview4]
    exact hready.has_method
  obtain ⟨p, hp, hexit⟩ := Program.setExit_ok (some ⟨t3.program.view.blocks⟩) hm4
  refine meets_bind_edit hp (meets_moveTo ⟨⟨t3.program.view.blocks⟩, ?_⟩)
  rw [hc1]
  have hfinal : p.view = t3.program.view.addExit s.cursor.method := by
    rw [hexit, hview4]
    rfl
  have hnoexit : t3.program.view.exit s.cursor.method = none := by
    rw [hstarted.keeps.exits]
    exact h.no_exit
  have hin : t3.program.view.entry s.cursor.method ≠ some ⟨s.program.view.blocks⟩ := by
    rw [hstarted.keeps.entry, h.start]
    exact fun he => hne (Option.some.inj he).symm
  have hbody := hready.addExit ht3 rfl hnoexit hin
  have hnew : ∀ b, s.program.view.kind b = none → t3.program.view.kind b ≠ none →
      t3.program.view.home b = some s.cursor.method := by
    intro b hb hz
    rw [hstarted.only b hb hz]
    exact hready.home
  have hout : Outside s.program.view t3.program.view s.cursor.method := by
    refine hstarted.keeps.outside ht ht3 h.wired hready.wired (fun b n hb hn => ?_) hnew
    rw [hb, h.home] at hn
    exact (Option.some.inj hn).symm
  refine ⟨?_, rfl, hview3' ▸ hfinal, ?_, ?_, ?_⟩
  · show p.view.InBody _ _
    rw [hfinal]
    exact hbody
  · show Outside s.program.view p.view s.cursor.method
    rw [hfinal]
    exact hout.trans (outside_addExit ht3 hready.wired hready.has_method)
  · show ∀ b, p.view.home b = some s.cursor.method → b ≠ ⟨t3.program.view.blocks⟩ →
      b ≠ ⟨s.program.view.blocks⟩ → p.view.after b ≠ none
    rw [hfinal]
    intro b hb hbe hbf
    change (if b = ⟨t3.program.view.blocks⟩ then _ else t3.program.view.home b) = _ at hb
    rw [if_neg hbe] at hb
    show t3.program.view.after b ≠ none
    -- The only other block of the method is its entry.
    by_cases hold : s.program.view.kind b = none
    · refine absurd (hstarted.only b hold fun hnone => ?_) hbf
      rw [ht3.home_none.2 hnone] at hb
      cases hb
    · obtain ⟨n, hn⟩ := Option.ne_none_iff_exists'.1 (mt ht.home_none.1 hold)
      obtain rfl := Option.some.inj ((hstarted.keeps.home b n hn).symm.trans hb)
      rw [h.alone b hn]
      exact hstarted.after
  · show p.view.preds _ = []
    rw [hfinal]
    exact (ht3.absent ht3.fresh_kind).2.2.1

theorem BodyOpen.method {t : Builder} {e : BlockId} (h : BodyOpen s t e) :
    t.cursor.method = s.cursor.method := by
  rw [h.cursor]
  rfl

/-! ## A method -/

/-- While a body is built, all its blocks but the exit and the one at the cursor
are sealed. -/
theorem sealed_advance {t u : Builder} {e : BlockId} (h : BodyOpen s t e) (ha : Advance t u) :
    ∀ b, u.program.view.home b = some u.cursor.method → b ≠ e → b ≠ u.cursor.block →
      u.program.view.after b ≠ none := by
  intro b hb hbe hbu
  have htt := t.program.view_tables
  have htu := u.program.view_tables
  by_cases hold : t.program.view.kind b = none
  · refine ha.sealed b hold (fun hnone => ?_) hbu
    rw [htu.home_none.2 hnone] at hb
    cases hb
  · obtain ⟨n, hn⟩ := Option.ne_none_iff_exists'.1 (mt htt.home_none.1 hold)
    have hnm : n = t.cursor.method := by
      rw [← ha.method]
      exact Option.some.inj ((ha.home b n hn).symm.trans hb)
    by_cases hbt : b = t.cursor.block
    · rw [hbt] at hbu ⊢
      exact ha.moved (Ne.symm hbu)
    · exact ha.after_of_ne (h.sealed b (hnm ▸ hn) hbe hbt)

theorem advance_outside {t u : Builder} {e : BlockId} (h : InBody t e) (hu : InBody u e)
    (ha : Advance t u) : Outside t.program.view u.program.view t.cursor.method := by
  refine ha.toKeeps.outside t.program.view_tables u.program.view_tables h.wired hu.wired ?_
    ha.new_home
  rintro b n (rfl | hb) hn
  · exact Option.some.inj (hn.symm.trans h.home)
  · obtain rfl := Option.some.inj (h.waiting.exit.symm.trans hb)
    exact Option.some.inj (hn.symm.trans h.waiting.home)

/-- A body up to its statements. -/
def beginBody (b : Syntax.Body) : BuildM Unit := do
  require (.punct .lbrace) b.opening
  openBody b.openLine

/-- A body was built: opened in `t`, and closed from `u`. -/
structure Bodied (b : Syntax.Body) (s t u r : Builder) (e : BlockId) : Prop where
  begun : beginBody b s = .ok () t
  opened : BodyOpen s t e
  laid : LaidAll e true b.statements t u
  ran : Ran e t u
  finished : Finished u.program.view u.cursor e r.program.view

theorem body_meets (h : s.program.view.AtEntry s.cursor) (b : Syntax.Body) :
    Meets Expected (body b) s fun _ r => ∃ t u e, Bodied b s t u r e := by
  unfold body
  obtain ⟨ds, hrequire⟩ := (quiet_require (.punct .lbrace) b.opening).run s
  refine meets_bind_of_eq hrequire ?_
  have hquiet : View.AtEntry s.program.view s.cursor := h
  refine Meets.bind (openBody_meets (s := { s with diagnostics := ds }) hquiet b.openLine).run ?_
  rintro _ t ⟨hrun, e, hopen⟩
  refine Meets.bind (sequence_meets e true b.statements t hopen.inBody) ?_
  rintro _ u ⟨ran, laid⟩
  refine (quiet_require ..).bind fun ds' => ?_
  have hstrict : Strict t := by
    show t.program.view.Strict t.cursor.method
    rw [hopen.method, hopen.view]
    exact h.strict s.program.view_tables
  have hclose := closeBody_meets (E := Expected) (s := { u with diagnostics := ds' }) ran.finish
    (laid.strict hstrict) (sealed_advance hopen ran.advance) b.closeLine fun _ _ _ _ => trivial
  refine hclose.mono fun _ r hfinished => ?_
  exact ⟨t, u, e, (bind_run hrequire).trans hrun, ⟨hopen.inBody, hopen.cursor, hopen.view,
    hopen.outside, hopen.sealed, hopen.fresh⟩, laid, ran, hfinished⟩

section Bodied

variable {b : Syntax.Body} {t u r : Builder} {e : BlockId}

section

variable (h : Bodied b s t u r e)
include h

theorem Bodied.method : u.cursor.method = s.cursor.method :=
  h.ran.advance.method.trans h.opened.method

theorem Bodied.closed : r.program.view.Closed s.cursor.method e :=
  h.method ▸ h.finished.closed

theorem Bodied.sort (hs : s.program.view.AtEntry s.cursor) :
    r.program.view.sort = s.program.view.sort := by
  have kd := keeps_depart h.ran.finish.toOpen u.program.view_tables e
  rw [h.finished.settled.sort, kd.sort, h.ran.advance.sort, h.opened.view]
  exact (hs.started s.program.view_tables).keeps.sort

theorem Bodied.outside : Outside s.program.view r.program.view s.cursor.method := by
  have hadv := advance_outside h.opened.inBody h.ran.finish h.ran.advance
  rw [h.opened.method] at hadv
  exact (h.opened.outside.trans hadv).trans (h.method ▸ h.finished.outside)

end

end Bodied

theorem quiet_checkMethodName (x : String) (pos : Pos) : Quiet (checkMethodName x pos) := by
  refine ⟨fun s => ?_⟩
  unfold checkMethodName
  split
  · exact (quiet_report ..).run s
  · show ∃ ds, (if (s.program.methodNamed? x).isSome then report pos (.methodDeclared x)
      else pure ()) s = .ok () { s with diagnostics := ds }
    split
    · exact (quiet_report ..).run s
    · exact quiet_pure.run s

/-- A declaration of a method up to its body. -/
def openDecl (d : Syntax.MethodDecl) : BuildM Unit := do
  let (x, pos) ← name "method name" d.name
  checkMethodName x pos
  openMethod x (if d.isFunction then .function else .procedure)
  d.parameters.forM fun x => do
    let (x, pos) ← name "parameter name" x
    declareParameter x pos
  require (.punct .rparen) d.close
  require (.punct .semicolon) d.semicolon
  d.varDecls.forM varDecl

theorem methodDecl_eq (d : Syntax.MethodDecl) : methodDecl d = (do
    openDecl d
    body d.body
    require (.punct .semicolon) d.terminator) := by
  unfold methodDecl openDecl
  simp only [bind_assoc]

/-- A method was opened and waits at its entry; the others are left alone. -/
structure DeclOpen (s t : Builder) (kind : MethodKind) : Prop where
  entry : t.program.view.AtEntry t.cursor
  method : t.cursor.method = ⟨s.program.view.methods⟩
  sort : t.program.view.sort t.cursor.method = some kind
  outside : Outside s.program.view t.program.view t.cursor.method

theorem openDecl_meets (d : Syntax.MethodDecl) (h : s.program.view.Sound) :
    Meets Expected (openDecl d) s fun _ t =>
      DeclOpen s t (if d.isFunction then .function else .procedure) := by
  unfold openDecl
  refine Meets.bind (name_meets "method name" d.name) ?_
  rintro ⟨x, pos⟩ s rfl
  refine (quiet_checkMethodName x pos).bind fun ds => ?_
  have hkind : (if d.isFunction then MethodKind.function else .procedure) ≠ .main := by
    split <;> simp
  refine Meets.bind (openMethod_meets x _ (s := { s with diagnostics := ds }) h
    fun hm => absurd hm hkind) ?_
  rintro _ t1 ⟨hopen1, hm1, hsort1, hout1⟩
  have hnot1 : t1.program.view.sort t1.cursor.method ≠ some .main := by
    rw [hsort1]
    exact fun he => hkind (Option.some.inj he)
  refine Meets.bind (parameters_meets hopen1 hnot1 d.parameters) ?_
  intro _ t2 hd2
  refine (quiet_require ..).bind fun ds2 => (quiet_require ..).bind fun ds3 => ?_
  have hopen2 : Opening { t2 with diagnostics := ds3 } := hd2.opening
  refine (varDecls_meets hopen2 d.varDecls).mono ?_
  intro _ t3 hd3
  have hm2 : t2.cursor.method = ⟨s.program.view.methods⟩ := hd2.method.trans hm1
  have hm3 : t3.cursor.method = ⟨s.program.view.methods⟩ := hd3.method.trans hm2
  have hout2 := hd2.outside hnot1
  have hnot2 : t2.program.view.sort t2.cursor.method ≠ some .main := by
    rw [hd2.sort, hd2.method]
    exact hnot1
  have hout3 := hd3.outside hnot2
  dsimp only at hout3
  rw [hm1] at hout2
  rw [hm2] at hout3
  refine ⟨hd3.opening.toAtEntry, hm3, ?_, hm3 ▸ (hout1.trans hout2).trans hout3⟩
  rw [hd3.sort, hm3, ← hm1]
  dsimp only
  rw [hd2.sort]
  exact hsort1

/-- How the method `m` of a program came about: from its entry, which waited in `s`,
it got the body `b`, and after that it was left alone. -/
structure Made (z : View) (m : MethodId) (b : Syntax.Body) (s t u r : Builder) (e : BlockId) :
    Prop where
  entry : s.program.view.AtEntry s.cursor
  method : s.cursor.method = m
  bodied : Bodied b s t u r e
  untouched : Untouched r.program.view z m

/-- A method that is finished. -/
def IsMade (z : View) (m : MethodId) : Prop := ∃ b s t u r e, Made z m b s t u r e

theorem IsMade.outside {w z : View} {m n : MethodId} (h : IsMade w n) (k : Outside w z m)
    (hn : n ≠ m) : IsMade z n := by
  obtain ⟨b, s, t, u, r, e, hmade⟩ := h
  exact ⟨b, s, t, u, r, e, { hmade with untouched := hmade.untouched.trans (k.untouched hn) }⟩

theorem IsMade.closed {z : View} {m : MethodId} (h : IsMade z m) : ∃ e, z.Closed m e := by
  obtain ⟨b, s, t, u, r, e, -, rfl, hbody, huntouched⟩ := h
  exact ⟨e, hbody.closed.untouched hbody.finished.sound huntouched⟩

/-- A method that is declared is finished, and the others are left alone. -/
theorem methodDecl_meets (d : Syntax.MethodDecl) (h : s.program.view.Sound) :
    Meets Expected (methodDecl d) s fun _ t => t.program.view.Sound
      ∧ ∃ m, s.program.view.sort m = none ∧ IsMade t.program.view m
        ∧ t.program.view.sort m ≠ some .main ∧ Outside s.program.view t.program.view m := by
  rw [methodDecl_eq]
  refine Meets.bind (openDecl_meets d h) fun _ t hopen => ?_
  refine Meets.bind (body_meets hopen.entry d.body) ?_
  rintro _ r ⟨t', u, e, hbody⟩
  have hnone : s.program.view.sort t.cursor.method = none := by
    rw [hopen.method]
    exact s.program.view_tables.sort_none.2 (Nat.le_refl _)
  have hnot : r.program.view.sort t.cursor.method ≠ some .main := by
    rw [hbody.sort hopen.entry, hopen.sort]
    split <;> simp
  exact (quiet_require ..).meets fun ds => ⟨hbody.finished.sound, t.cursor.method, hnone,
    ⟨d.body, t, t', u, r, e, hopen.entry, rfl, hbody, .refl _ _⟩, hnot,
    hopen.outside.trans hbody.outside⟩

/-! ## A computation -/

/-- The computation waits at its entry `c`, and the methods declared so far are
finished. -/
structure Underway (s : Builder) (c : Cursor) : Prop where
  entry : s.program.view.AtEntry c
  sole : ∀ n, s.program.view.sort n = some .main → n = c.method
  done : ∀ n, n ≠ c.method → s.program.view.sort n ≠ none → IsMade s.program.view n

theorem methodDecls_meets {c : Cursor} : ∀ (ds : List Syntax.MethodDecl) {s : Builder},
    Underway s c → Meets Expected (ds.forM methodDecl) s fun _ t => Underway t c
      ∧ t.program.view.globals = s.program.view.globals
  | [], _, h => meets_pure ⟨h, rfl⟩
  | d :: ds, s, h => by
      refine Meets.bind (methodDecl_meets d h.entry.toSound) ?_
      rintro _ t ⟨hsound, m, hnone, hmade, hnot, hout⟩
      have hcm : c.method ≠ m := by
        rintro rfl
        exact h.entry.has_method hnone
      refine (methodDecls_meets ds ⟨h.entry.outside hout hsound hcm, fun n hn => ?_,
        fun n hn hsort => ?_⟩).mono fun _ u hu => ⟨hu.1, hu.2.trans hout.globals⟩
      · have hnm : n ≠ m := by
          rintro rfl
          exact hnot hn
        rw [hout.sort n hnm] at hn
        exact h.sole n hn
      · by_cases hnm : n = m
        · exact hnm ▸ hmade
        · rw [hout.sort n hnm] at hsort
          exact (h.done n hn hsort).outside hout hnm

/-- A program with nothing in it is sound. -/
theorem sound_empty : Program.empty.view.Sound := by
  have hop (v : ValueId) : Program.empty.view.op v = none := rfl
  have howner (v : ValueId) : Program.empty.view.owner v = none := rfl
  have hkind (b : BlockId) : Program.empty.view.kind b = none := rfl
  have hhome (b : BlockId) : Program.empty.view.home b = none := rfl
  have hafter (b : BlockId) : Program.empty.view.after b = none := rfl
  have hphis (b : BlockId) : Program.empty.view.phis b = [] := rfl
  have hbody (b : BlockId) : Program.empty.view.body b = [] := rfl
  have hpreds (b : BlockId) : Program.empty.view.preds b = [] := rfl
  have hsuccs (b : BlockId) : Program.empty.view.succs b = [] := rfl
  have hidom (b : BlockId) : Program.empty.view.idom b = none := rfl
  have hentry (m : MethodId) : Program.empty.view.entry m = none := rfl
  have howned (m : MethodId) : Program.empty.view.owned m = [] := rfl
  have huser (v u : ValueId) : ¬Program.empty.view.user v u :=
    Program.empty.view_tables.user_none (hop v)
  refine ⟨?_, ?_, ?_, ?_⟩
  · constructor <;>
      simp [hop, howner, hkind, hhome, hafter, hphis, hbody, hpreds, hsuccs, hentry, howned, huser,
        View.contents, IsEntry]
  · constructor <;> simp [hop, howner, hhome, hafter, hphis, hpreds, hidom]
  · intro b _ hb
    exact absurd (hafter b) hb
  · simp [hkind]

/-- A computation up to the declarations of its methods. -/
def openMain (t : Syntax.Computation) : BuildM Unit := do
  require (.keyword .main) t.main
  openMethod "main" .main
  t.varDecls.forM varDecl

/-- A computation up to the statements of its body. -/
def beginMain (t : Syntax.Computation) : BuildM Unit := do
  openMain t
  let home ← cursor
  t.methods.forM methodDecl
  moveTo home
  beginBody t.body

/-- The body of a computation, and what is behind it. -/
def closeMain (t : Syntax.Computation) (home : Cursor) : BuildM Unit := do
  moveTo home
  body t.body
  require (.punct .period) t.period
  match t.trailing with
  | some found => report found.pos .trailingInput
  | none => return

theorem computation_eq (t : Syntax.Computation) : computation t = (do
    openMain t
    let home ← cursor
    t.methods.forM methodDecl
    closeMain t home) := by
  unfold computation openMain closeMain
  cases t.trailing <;> simp only [bind_assoc]

theorem openMain_meets (t : Syntax.Computation) (ds : List Diagnostic) :
    Meets Expected (openMain t) (.init ds) fun _ s => Underway s s.cursor := by
  unfold openMain
  refine (quiet_require ..).bind fun ds' => ?_
  refine Meets.bind (openMethod_meets "main" .main (s := { Builder.init ds with diagnostics := ds' })
    sound_empty fun _ => ⟨rfl, fun n => by simp [Builder.init, Program.view, Program.empty,
      Program.method?]⟩) ?_
  rintro _ t1 ⟨hopen1, hm1, -, hout1⟩
  refine (varDecls_meets hopen1 t.varDecls).mono fun _ t2 hd2 => ?_
  have hnone (n : MethodId) (hn : n ≠ t2.cursor.method) : t2.program.view.sort n = none := by
    rw [hd2.method, hm1] at hn
    rw [hd2.sort, hout1.sort n hn]
    simp [Builder.init, Program.view, Program.empty, Program.method?]
  refine ⟨hd2.opening.toAtEntry, fun n hn => ?_, fun n hn hsort => absurd (hnone n hn) hsort⟩
  by_contra hne
  rw [hnone n hne] at hn
  cases hn

/-- How the computation itself came about, from diagnostics `ds`: its variables are the
globals, and its statements are built from the state that `beginMain` ends in. -/
structure IsMain (t : Syntax.Computation) (ds : List Diagnostic) (z : View) (m : MethodId) :
    Prop where
  sole : ∀ n, z.sort n = some .main → n = m
  declared : ∃ o, openMain t (.init ds) = .ok () o ∧ z.globals = o.program.view.globals
  made : ∃ s t' u r e, beginMain t (.init ds) = .ok () t' ∧ Made z m t.body s t' u r e

/-- A computation comes out with all of its methods finished. -/
theorem computation_meets (t : Syntax.Computation) (ds : List Diagnostic) :
    Meets Expected (computation t) (.init ds) fun _ s => s.program.view.Sound
      ∧ (∀ m, s.program.view.sort m ≠ none → IsMade s.program.view m)
      ∧ ∃ m, IsMain t ds s.program.view m := by
  rw [computation_eq]
  refine Meets.bind (openMain_meets t ds).run fun _ t2 ⟨hmain, hunder⟩ => meets_cursor ?_
  refine Meets.bind (methodDecls_meets t.methods hunder).run ?_
  intro _ t3 ⟨hmethods, hunder3, hglobals3⟩
  unfold closeMain
  refine meets_bind_of_eq rfl ?_
  refine Meets.bind (body_meets (s := { t3 with cursor := t2.cursor }) hunder3.entry t.body) ?_
  rintro _ t4 ⟨t', u, e, hbody⟩
  have hsound := hbody.finished.sound
  have hout4 : Outside t3.program.view t4.program.view t2.cursor.method := hbody.outside
  have hdone : ∀ m, t4.program.view.sort m ≠ none → IsMade t4.program.view m := by
    intro m hm
    by_cases hmc : m = t2.cursor.method
    · exact ⟨t.body, { t3 with cursor := t2.cursor }, t', u, t4, e, hunder3.entry, hmc.symm, hbody,
        .refl _ _⟩
    · rw [hout4.sort m hmc] at hm
      exact (hunder3.done m hmc hm).outside hout4 hmc
  have hbegun : beginMain t (.init ds) = .ok () t' := by
    unfold beginMain
    rw [bind_run hmain]
    show (t.methods.forM methodDecl >>= fun _ => do moveTo t2.cursor; beginBody t.body) t2 = _
    rw [bind_run hmethods]
    exact hbody.begun
  have hfirst : IsMain t ds t4.program.view t2.cursor.method := by
    refine ⟨fun n hn => ?_, ⟨t2, hmain, hout4.globals.trans hglobals3⟩,
      { t3 with cursor := t2.cursor }, t', u, t4, e, hbegun, hunder3.entry, rfl, hbody, .refl _ _⟩
    rw [hbody.sort hunder3.entry] at hn
    exact hunder3.sole n hn
  refine (quiet_require ..).bind fun ds4 => ?_
  split
  · exact (quiet_report ..).meets fun ds5 => ⟨hsound, hdone, _, hfirst⟩
  · exact meets_pure ⟨hsound, hdone, _, hfirst⟩

end Build

/-- What `build` returns is what the tokens of the text are built to. -/
theorem exists_tokens_of_build {source : String} {built : Built} (h : build source = .ok built) :
    ∃ tokens scanner built', (Scanner.ofText source).scan = (.ok tokens, scanner)
      ∧ buildTokens tokens scanner.diagnostics = .ok built' ∧ built'.program = built.program := by
  unfold build at h
  split at h
  · cases h
  · next tokens scanner hscan =>
      cases hbuilt : buildTokens tokens scanner.diagnostics with
      | error stop => simp [hbuilt, bind, Except.bind] at h
      | ok built' =>
          obtain rfl : _ = built := by
            simpa [hbuilt, bind, Except.bind, pure, Except.pure] using h
          exact ⟨tokens, scanner, built', hscan, hbuilt, rfl⟩

/-- Whatever the tokens, this is how each method of a program that is built came
about. -/
theorem buildTokens_made {tokens : List Token} {earlier : List Diagnostic} {built : Built}
    (h : buildTokens tokens earlier = .ok built) : built.program.view.Sound
      ∧ (∀ m, built.program.view.sort m ≠ none → Build.IsMade built.program.view m)
      ∧ ∃ m, Build.IsMain (Syntax.read tokens) earlier built.program.view m := by
  have hmeets := Build.computation_meets (Syntax.read tokens) earlier
  unfold buildTokens at h
  split at h
  · next hrun =>
      obtain rfl := Except.ok.inj h
      exact hmeets.of_ok hrun
  · cases h

/-- Whatever the tokens, a program that is built is sound and finished. -/
theorem buildTokens_sound {tokens : List Token} {earlier : List Diagnostic} {built : Built}
    (h : buildTokens tokens earlier = .ok built) : built.program.view.Sound
      ∧ ∀ m, built.program.view.sort m ≠ none → ∃ e, built.program.view.Closed m e := by
  obtain ⟨hsound, hmade, -⟩ := buildTokens_made h
  exact ⟨hsound, fun m hm => (hmade m hm).closed⟩

/-- Whatever the tokens, only errors of the source text keep a program from
being built. -/
theorem buildTokens_error {tokens : List Token} {earlier : List Diagnostic} {stop : Stop}
    (h : buildTokens tokens earlier = .error stop) :
    ∃ e ds, stop = .error (e.after ds) ∧ Build.Expected e := by
  have hmeets := Build.computation_meets (Syntax.read tokens) earlier
  unfold buildTokens at h
  unfold Build.Meets at hmeets
  split at h
  · cases h
  · next cause s hrun =>
      obtain rfl := Except.error.inj h
      rw [hrun] at hmeets
      cases cause with
      | error e => exact ⟨e, s.diagnostics, rfl, hmeets⟩
      | fault f => exact hmeets.elim

end StructuredSsa
