import StructuredSsa.Proofs.Ready

/-!
# Leaving a block and entering another

The operations that end the block at the cursor and those that make another
one ready for code, on views. Each says that the program stays sound, which
blocks it touches, and what is known of the blocks it touches.
-/

namespace StructuredSsa

namespace View

variable {w : View} {c : Cursor} {m : MethodId} {b : BlockId}

/-! ## New blocks -/

theorem Tables.newBlock (ht : w.Tables) (hm : w.sort m ≠ none) (kind : BlockKind) :
    (w.newBlock m kind).Tables where
  op_none := ht.op_none
  owner_none := ht.owner_none
  user_none := ht.user_none
  kind_none {b} := by
    show (if b = ⟨w.blocks⟩ then some kind else w.kind b) = none ↔ w.blocks + 1 ≤ b.index
    split
    · next h => simp [h]
    · next h =>
        rw [ht.kind_none]
        have : b.index ≠ w.blocks := fun hi => h (by cases b; simp_all)
        omega
  home_none {b} := by
    show (if b = ⟨w.blocks⟩ then some m else w.home b) = none ↔
      (if b = ⟨w.blocks⟩ then some kind else w.kind b) = none
    split
    · simp
    · exact ht.home_none
  absent {b} h := by
    change (if b = ⟨w.blocks⟩ then some kind else w.kind b) = none at h
    split at h
    · cases h
    · exact ht.absent h
  sort_none := ht.sort_none
  entry_none := ht.entry_none
  owned_none {n} h := by
    show (if n = m then w.owned m ++ [⟨w.blocks⟩] else w.owned n) = []
    rw [if_neg (by rintro rfl; exact hm h)]
    exact ht.owned_none h
  exit_none := ht.exit_none
  symbols_none := ht.symbols_none

/-- A block of a method with nothing behind its phis, and with code to come. -/
structure Blank (w : View) (m : MethodId) (b : BlockId) : Prop where
  kind : ∃ k, w.kind b = some k ∧ k ≠ .exit ∧ ∀ vs, k ≠ .entry vs
  home : w.home b = some m
  owned : b ∈ w.owned m
  body : w.body b = []
  after : w.after b = none

/-- A block with nothing in it that nothing leads to and no pointer is set for. -/
structure Fresh (w : View) (m : MethodId) (b : BlockId) : Prop extends Blank w m b where
  phis : w.phis b = []
  preds : w.preds b = []
  idom : w.idom b = none

theorem Blank.not_entry (h : w.Blank m b) : ¬w.IsEntry b := by
  obtain ⟨k, hk, -, hne⟩ := h.kind
  exact not_isEntry_of_kind hk hne

theorem Blank.present (h : w.Blank m b) : w.kind b ≠ none := by
  obtain ⟨k, hk, -⟩ := h.kind
  simp [hk]

theorem Blank.same {z : View} {S : BlockId → Prop} (h : w.Blank m b) (k : Keeps w z S) (hb : ¬S b) :
    z.Blank m b := by
  have hsame := k.same b h.present hb
  exact ⟨hsame.kind ▸ h.kind, hsame.home ▸ h.home, k.owned b m h.owned, hsame.body ▸ h.body,
    hsame.after ▸ h.after⟩

theorem Fresh.same {z : View} {S : BlockId → Prop} (h : w.Fresh m b) (k : Keeps w z S) (hb : ¬S b) :
    z.Fresh m b := by
  have hsame := k.same b h.present hb
  exact ⟨h.toBlank.same k hb, hsame.phis ▸ h.phis, hsame.preds ▸ h.preds, hsame.idom ▸ h.idom⟩

theorem Fresh.contents (h : w.Fresh m b) : w.contents b = [] := by
  rw [View.contents, h.phis, h.body]
  rfl

theorem fresh_newBlock (ht : w.Tables) (m : MethodId) (kind : BlockKind) (hexit : kind ≠ .exit)
    (hkind : ∀ vs, kind ≠ .entry vs) : (w.newBlock m kind).Fresh m ⟨w.blocks⟩ := by
  obtain ⟨hphis, hbody, hpreds, -, -, hafter, hidom⟩ := ht.absent ht.fresh_kind
  refine ⟨⟨⟨kind, if_pos rfl, hexit, hkind⟩, if_pos rfl, ?_, hbody, hafter⟩, hphis, hpreds, hidom⟩
  show _ ∈ if m = m then w.owned m ++ [⟨w.blocks⟩] else _
  simp

theorem Sound.newBlock (h : w.Sound) (ht : w.Tables) (hm : w.sort m ≠ none) (kind : BlockKind)
    (hkind : ∀ vs, kind ≠ .entry vs) (hnot : kind ≠ .exit) : (w.newBlock m kind).Sound where
  wired := h.wired.newBlock ht hm hkind
  scoping := h.scoping.newBlock ht hkind
  ended b hl hb := h.ended b ((live_newBlock ht hkind).1 hl) hb
  sole b n hb hn := by
    change (if b = ⟨w.blocks⟩ then some kind else w.kind b) = _ at hb
    change (if b = ⟨w.blocks⟩ then some m else w.home b) = _ at hn
    split at hb
    · exact absurd (Option.some.inj hb) hnot
    · next hne =>
        rw [if_neg hne] at hn
        exact h.sole b n hb hn

theorem Placed.newBlock (h : w.Placed c) (ht : w.Tables) (kind : BlockKind)
    (hkind : ∀ vs, kind ≠ .entry vs) (hnot : kind ≠ .exit) : (w.newBlock c.method kind).Placed c :=
  ⟨h.toSound.newBlock ht h.has_method kind hkind hnot, h.toOpen.keep (keeps_newBlock ht _ _) id⟩

/-! ## Entering a block -/

/-- Say what dominates a block and what is bound on entry to it. -/
def begin (w : View) (b d : BlockId) (st : Bindings) : View := (w.setIdom b d).setBefore b st

theorem Sound.setIdom (h : w.Sound) {d : BlockId} (hnone : w.idom b = none) (hentry : ¬w.IsEntry b)
    (hhome : w.home d = w.home b) (hpreds : ∀ q ∈ w.preds b, Above w.idom d q) :
    (w.setIdom b d).Sound :=
  ⟨h.wired.setIdom b d, h.scoping.setIdom hnone hentry hhome hpreds, h.ended, h.sole⟩

theorem Sound.setBefore (h : w.Sound) (b : BlockId) (st : Bindings) : (w.setBefore b st).Sound :=
  ⟨h.wired.setBefore b st, h.scoping.setBefore b st, h.ended, h.sole⟩

theorem keeps_begin (d : BlockId) (st : Bindings) (hnone : w.idom b = none) :
    Keeps w (w.begin b d st) (· = b) :=
  ((keeps_setIdom d hnone).trans (keeps_setBefore b st)).weaken fun _ _ h => h.elim id id

theorem idom_begin (w : View) (b d : BlockId) (st : Bindings) : (w.begin b d st).idom b = some d :=
  if_pos rfl

/-- A blank block below another is open for code. -/
theorem Blank.open {d : BlockId} (h : w.Blank c.method c.block) (hidom : w.idom c.block = some d)
    (hexit : ∀ b, w.exit c.method = some b → w.kind b ≠ none ∧ b ≠ c.block)
    (hroot : ∀ e, w.entry c.method = some e → Above w.idom e d)
    (hlive : c.reachable = true ↔ w.preds c.block ≠ [])
    (hbound : ∀ x ∈ w.tracked c.method, ∃ v, c.bindings.get? x = some v)
    (husable : ∀ x v, c.bindings.get? x = some v → w.Usable c v) : w.Open c where
  present := h.present
  home := h.home
  owned := h.owned
  opened := h.after
  straight u hu := by
    rw [h.body] at hu
    cases hu
  not_exit := by
    obtain ⟨k, hk, hne, -⟩ := h.kind
    rw [hk]
    exact fun he => hne (Option.some.inj he)
  exit_apart := hexit
  rooted e he := .up hidom (hroot e he)
  live := by
    rw [hlive, Live]
    exact ⟨Or.inr, fun hl => hl.resolve_left h.not_entry⟩
  bound := hbound
  usable := husable

/-- Beginning a blank block below `d` makes it ready for code. -/
theorem Blank.begin {d : BlockId} (h : w.Blank c.method c.block) (st : Bindings) (hs : w.Sound)
    (hnone : w.idom c.block = none) (hhome : w.home d = some c.method)
    (hpreds : ∀ q ∈ w.preds c.block, Above w.idom d q)
    (hexit : ∀ b, w.exit c.method = some b → w.kind b ≠ none ∧ b ≠ c.block)
    (hroot : ∀ e, w.entry c.method = some e → Above w.idom e d)
    (hlive : c.reachable = true ↔ w.preds c.block ≠ [])
    (hbound : ∀ x ∈ w.tracked c.method, ∃ v, c.bindings.get? x = some v)
    (husable : ∀ x v, c.bindings.get? x = some v → w.HasValue v
      ∧ (c.reachable = true → w.owner v = some c.block ∨ w.DefinedAbove v d))
    (hknown : c.reachable = true → ∀ x v, c.bindings.get? x = some v → x ∈ w.tracked c.method) :
    (w.begin c.block d st).Ready c := by
  have k := keeps_begin d st hnone
  have hidom := idom_begin w c.block d st
  refine ⟨⟨(hs.setIdom hnone h.not_entry (hhome.trans h.home.symm) hpreds).setBefore c.block st, ?_⟩,
    hknown⟩
  refine Blank.open ⟨h.kind, h.home, h.owned, h.body, h.after⟩ hidom hexit
    (fun e he => (hroot e he).mono k.idom) hlive hbound (fun x v hv => ?_)
  obtain ⟨hval, habove⟩ := husable x v hv
  refine ⟨hval, fun hl => ?_⟩
  rcases habove hl with hown | habove
  · exact ⟨c.block, hown, .refl _⟩
  · obtain ⟨a, ha, had⟩ := k.definedAbove hval habove
    exact ⟨a, ha, .up hidom had⟩

/-! ## Leaving a block -/

/-- A last instruction at the cursor, and the block is sealed. -/
theorem seal_ok (hr : w.Placed c) (ht : w.Tables) (op : Op) (hphi : op.isPhi = false)
    (hops : ∀ v ∈ op.operands, w.Usable c v) :
    ((w.emit c.block op).setAfter c.block c.bindings).Wired
      ∧ ((w.emit c.block op).setAfter c.block c.bindings).Scoped := by
  have hkeeps := keeps_emit ht c.block op
  refine ⟨?_, ?_⟩
  · refine (hr.wired.emit ht hr.listed hphi fun v hv => (hops v hv).1).setAfter fun x v hv => ?_
    exact hkeeps.hasValue (hr.usable x v hv).1
  · have hemit : (w.emit c.block op).Scoped :=
      hr.scoping.emit hr.wired ht fun hl v hv => (hops v hv).2 (hr.live.2 hl)
    refine hemit.setAfter hr.opened (fun m e hm he => ?_) (fun hl _ x v hv => ?_) fun m x hm hx => ?_
    · obtain rfl := Option.some.inj (hr.home.symm.trans hm)
      exact hr.rooted e he
    · obtain ⟨hval, habove⟩ := hr.usable x v hv
      exact hkeeps.definedAbove hval (habove (hr.live.2 hl))
    · obtain rfl := Option.some.inj (hr.home.symm.trans hm)
      exact hr.bound x hx

/-- End the block at the cursor with a jump. -/
def depart (w : View) (c : Cursor) (t : BlockId) : View :=
  let z := (w.emit c.block (.jump t)).setAfter c.block c.bindings
  if c.reachable then z.link c.block t else z

/-- A block that the block at the cursor can be left for. -/
structure Target (w : View) (c : Cursor) (t : BlockId) : Prop where
  present : w.kind t ≠ none
  home : w.home t = some c.method
  not_entry : ¬w.IsEntry t
  owned : c.reachable = true → t ∈ w.owned c.method
  apart : t ≠ c.block
  fit : c.reachable = true → w.Live t ∨ w.contents t = [] ∧ w.after t = none
  pointed : c.reachable = true → ∀ d, w.idom t = some d → Above w.idom d c.block

theorem Fresh.target {t : BlockId} (h : w.Fresh c.method t) (hne : t ≠ c.block) : Target w c t :=
  ⟨h.present, h.home, h.not_entry, fun _ => h.owned, hne, fun _ => Or.inr ⟨h.contents, h.after⟩,
    fun _ d hd => by rw [h.idom] at hd; cases hd⟩

section Depart

variable {t : BlockId}

theorem Placed.succs (hr : w.Placed c) : w.succs c.block = [] := by
  cases hs : w.succs c.block with
  | nil => rfl
  | cons b rest =>
      refine absurd hr.opened (hr.wired.edge_sealed c.block b ?_)
      rw [hs]
      exact List.mem_cons_self ..

theorem keeps_depart (hc : w.Open c) (ht : w.Tables) (t : BlockId) :
    Keeps w (w.depart c t) fun b => b = c.block ∨ c.reachable = true ∧ b = t := by
  have hz := (keeps_emit ht c.block (.jump t)).trans (keeps_setAfter (b := c.block) c.bindings hc.opened)
  unfold depart
  split
  · next hl =>
      refine (hz.trans (keeps_link c.block t)).weaken fun b _ hb => ?_
      rcases hb with (hb | hb) | hb | hb
      · exact Or.inl hb
      · exact Or.inl hb
      · exact Or.inl hb
      · exact Or.inr ⟨hl, hb⟩
  · exact hz.weaken fun b _ hb => Or.inl (hb.elim id id)

theorem after_depart : (w.depart c t).after c.block = some c.bindings := by
  unfold depart
  split <;> exact if_pos rfl

theorem body_depart : (w.depart c t).body c.block = w.body c.block ++ [⟨w.values⟩] := by
  unfold depart
  split <;> exact if_pos rfl

theorem op_depart : (w.depart c t).op ⟨w.values⟩ = some (.jump t) := by
  unfold depart
  split <;> exact if_pos rfl

theorem home_depart : (w.depart c t).home = w.home := by
  unfold depart
  split <;> rfl

theorem depart_kept : (w.depart c t).kind = w.kind ∧ (w.depart c t).blocks = w.blocks
    ∧ (w.depart c t).values = w.values + 1 := by
  unfold depart
  split <;> exact ⟨rfl, rfl, rfl⟩

theorem grown_depart (hne : t ≠ c.block) : Grown w (w.depart c t) c.block := by
  refine ⟨?_, body_depart ▸ List.prefix_append .., ?_, ?_, ?_⟩
  · unfold depart
    split <;> rfl
  · unfold depart
    split
    · exact if_neg (Ne.symm hne)
    · rfl
  · unfold depart
    split <;> rfl
  · unfold depart
    split <;> rfl

theorem preds_depart (hr : w.Placed c) : (w.depart c t).preds t =
    if c.reachable = true then w.preds t ++ [c.block] else w.preds t := by
  have hnot : c.block ∉ w.preds t := by
    rw [← hr.wired.edge, hr.succs]
    exact List.not_mem_nil
  unfold depart
  split
  · show (if t = t then if c.block ∈ w.preds t then w.preds t else w.preds t ++ [c.block] else _) = _
    rw [if_pos rfl, if_neg hnot]
  · rfl

theorem entered_depart (hr : w.Placed c) (hne : t ≠ c.block) : Entered w (w.depart c t) t := by
  refine ⟨?_, ?_, ?_, ?_, ?_, ?_, ?_⟩
  · unfold depart
    split <;> rfl
  · unfold depart
    split <;> exact if_neg hne
  · rw [preds_depart hr]
    split
    · exact List.prefix_append ..
    · exact List.prefix_rfl
  · unfold depart
    split
    · exact if_neg hne
    · rfl
  · unfold depart
    split <;> rfl
  · unfold depart
    split <;> exact if_neg hne
  · unfold depart
    split <;> rfl

/-- The edges out of the block that was left. -/
theorem succs_depart (hr : w.Placed c) (hl : c.reachable = true) :
    (w.depart c t).succs c.block = [t] := by
  have hs := hr.succs
  unfold depart
  rw [if_pos hl]
  show (if c.block = c.block then
    if t ∈ w.succs c.block then w.succs c.block else w.succs c.block ++ [t] else _) = [t]
  rw [if_pos rfl, hs]
  rfl

theorem Ended.depart (hr : w.Placed c) (ht : w.Tables) (hg : Target w c t) :
    (w.depart c t).Ended := by
  have hkeeps := keeps_depart hr.toOpen ht t
  refine hr.ended.of_kept (b := c.block) hkeeps.op (fun b hb hl hafter => ?_) fun hl _ => ?_
  · have hbody : (w.depart c t).body b = w.body b := by
      unfold View.depart
      split <;> exact if_neg hb
    have hafter' : (w.depart c t).after b = w.after b := by
      unfold View.depart
      split <;> exact if_neg hb
    have hsuccs : (w.depart c t).succs b = w.succs b := by
      unfold View.depart
      split
      · exact if_neg hb
      · rfl
    rw [hafter'] at hafter
    refine ⟨?_, hafter, hbody, hsuccs⟩
    unfold View.depart at hl
    split at hl
    · next hreach =>
        rcases live_link.1 hl with hl | rfl
        · exact hl
        · exact (hg.fit hreach).resolve_right fun h => hafter h.2
    · exact hl
  · have hreach : c.reachable = true := by
      refine hr.live.2 ?_
      unfold View.depart at hl
      split at hl
      · next hreach => exact hr.live.1 hreach
      · exact hl
    refine ⟨w.body c.block, ⟨w.values⟩, .jump t, body_depart, op_depart, rfl, fun u hu => ?_,
      fun b => ?_, List.nodup_singleton t⟩
    · obtain ⟨o, ho, hno⟩ := hr.straight u hu
      exact ⟨o, hkeeps.op u o ho, hno⟩
    · rw [succs_depart hr hreach]
      rfl

theorem Sound.depart (hr : w.Placed c) (ht : w.Tables) (hg : Target w c t) :
    (w.depart c t).Sound := by
  obtain ⟨hwired, hscoped⟩ := seal_ok hr ht (.jump t) rfl (by simp [Op.operands])
  have hempty (h : w.contents t = []) :
      ((w.emit c.block (.jump t)).setAfter c.block c.bindings).contents t = [] := by
    show w.phis t ++ (if t = c.block then _ else w.body t) = []
    rw [if_neg hg.apart]
    exact h
  refine ⟨?_, ?_, Ended.depart hr ht hg, (keeps_depart hr.toOpen ht t).sole ht depart_kept.1 hr.sole⟩
  · unfold View.depart
    split
    · next hreach =>
        refine hwired.link (m := c.method) (hr.live.1 hreach) ?_ hr.not_exit hr.home (Or.inl hr.succs)
          hg.home hg.not_entry (hg.owned hreach) ((hg.fit hreach).imp id fun h => hempty h.1)
        show (if c.block = c.block then some c.bindings else _) ≠ none
        simp
    · exact hwired
  · unfold View.depart
    split
    · next hreach =>
        refine hscoped.link hwired (hg.pointed hreach) ?_
        exact (hg.fit hreach).imp id fun h => ⟨hempty h.1, (if_neg hg.apart).trans h.2⟩
    · exact hscoped

end Depart

/-! ## Branching -/

/-- End the block at the cursor with a branch. -/
def split (w : View) (c : Cursor) (v : ValueId) (a b : BlockId) : View :=
  (w.emit c.block (.branch v a b)).setAfter c.block c.bindings

/-- Let the block at the cursor, which is sealed, lead to a new one. -/
def lead (w : View) (c : Cursor) (t : BlockId) : View :=
  (if c.reachable then w.link c.block t else w).begin t c.block c.bindings

section Lead

variable {t : BlockId}

theorem preds_lead (hf : w.Fresh c.method t) :
    (w.lead c t).preds t = if c.reachable = true then [c.block] else [] := by
  show (if c.reachable = true then w.link c.block t else w).preds t = _
  split
  · show (if t = t then if c.block ∈ w.preds t then w.preds t else w.preds t ++ [c.block] else _) = _
    rw [if_pos rfl, hf.preds]
    rfl
  · exact hf.preds

theorem keeps_lead (hf : w.Fresh c.method t) :
    Keeps w (w.lead c t) fun b => b = t ∨ c.reachable = true ∧ b = c.block := by
  unfold lead
  split
  · next hl =>
      refine ((keeps_link c.block t).trans (keeps_begin c.block c.bindings hf.idom)).weaken
        fun b _ hb => ?_
      rcases hb with (hb | hb) | hb
      · exact Or.inr ⟨hl, hb⟩
      · exact Or.inl hb
      · exact Or.inl hb
  · exact (keeps_begin c.block c.bindings hf.idom).weaken fun b _ hb => Or.inl hb

theorem lead_ok (hw : w.Wired) (hs : w.Scoped) (hl : c.reachable = true → w.Live c.block)
    (hafter : w.after c.block ≠ none) (hnot : w.kind c.block ≠ some .exit)
    (hhome : w.home c.block = some c.method)
    (honly : ∀ b ∈ w.succs c.block, w.kind b ≠ some .exit) (hf : w.Fresh c.method t) :
    (w.lead c t).Wired ∧ (w.lead c t).Scoped := by
  have hhomes : w.home c.block = w.home t := hhome.trans hf.home.symm
  have honly' : ∀ b ∈ t :: w.succs c.block, w.kind b ≠ some .exit := by
    intro b hb
    rcases List.mem_cons.1 hb with rfl | hb
    · obtain ⟨k, hk, hne, -⟩ := hf.kind
      simpa [hk] using hne
    · exact honly b hb
  unfold lead
  split
  · next hreach =>
      refine ⟨((hw.link (hl hreach) hafter hnot hhome (Or.inr honly') hf.home hf.not_entry
        hf.owned (Or.inr hf.contents)).setIdom t c.block).setBefore t c.bindings, ?_⟩
      have hlink : (w.link c.block t).Scoped := by
        refine hs.link hw (fun d hd => ?_) (Or.inr ⟨hf.contents, hf.after⟩)
        rw [hf.idom] at hd
        cases hd
      refine (hlink.setIdom hf.idom hf.not_entry hhomes fun q hq => ?_).setBefore t c.bindings
      rcases mem_preds_link.1 hq with hq | ⟨rfl, -⟩
      · rw [hf.preds] at hq
        cases hq
      · exact .refl _
  · refine ⟨(hw.setIdom t c.block).setBefore t c.bindings, ?_⟩
    refine (hs.setIdom hf.idom hf.not_entry hhomes fun q hq => ?_).setBefore t c.bindings
    rw [hf.preds] at hq
    cases hq

theorem lead_kept : (w.lead c t).op = w.op ∧ (w.lead c t).values = w.values
    ∧ (w.lead c t).body = w.body ∧ (w.lead c t).phis = w.phis ∧ (w.lead c t).after = w.after
    ∧ (w.lead c t).kind = w.kind ∧ (w.lead c t).owner = w.owner := by
  unfold lead
  split <;> exact ⟨rfl, rfl, rfl, rfl, rfl, rfl, rfl⟩

theorem succs_lead : (w.lead c t).succs b =
    if c.reachable = true ∧ b = c.block ∧ t ∉ w.succs b then w.succs b ++ [t] else w.succs b := by
  show (if c.reachable = true then w.link c.block t else w).succs b = _
  split
  · next hl =>
      show (if b = c.block then
        if t ∈ w.succs c.block then w.succs c.block else w.succs c.block ++ [t] else w.succs b) = _
      by_cases hb : b = c.block
      · subst hb
        by_cases hmem : t ∈ w.succs c.block <;> simp [hl, hmem]
      · simp [hb]
  · next hl => simp [hl]

theorem grown_lead (hne : t ≠ c.block) : Grown w (w.lead c t) c.block := by
  unfold lead
  split
  · exact ⟨rfl, List.prefix_rfl, if_neg (Ne.symm hne), if_neg (Ne.symm hne), if_neg (Ne.symm hne)⟩
  · exact ⟨rfl, List.prefix_rfl, rfl, if_neg (Ne.symm hne), if_neg (Ne.symm hne)⟩

theorem Grown.live {z : View} {S : BlockId → Prop} (h : Grown w z b) (k : Keeps w z S)
    (hb : w.kind b ≠ none) : z.Live b ↔ w.Live b := by
  obtain ⟨x, hx⟩ := Option.ne_none_iff_exists'.1 hb
  rw [Live, Live, IsEntry, IsEntry, k.kind b x hx, hx, h.preds]

end Lead

section Branch

variable {a : BlockId} {v : ValueId}

theorem keeps_split (hc : w.Open c) (ht : w.Tables) : Keeps w (w.split c v a b) (· = c.block) :=
  ((keeps_emit ht c.block (.branch v a b)).trans
    (keeps_setAfter (b := c.block) c.bindings hc.opened)).weaken fun _ _ h => h.elim id id

theorem split_ok (hr : w.Placed c) (ht : w.Tables) (hv : w.Usable c v) :
    (w.split c v a b).Wired ∧ (w.split c v a b).Scoped :=
  seal_ok hr ht (.branch v a b) rfl (by simpa [Op.operands] using hv)

theorem grown_split : Grown w (w.split c v a b) c.block :=
  { grown_emit w c.block (.branch v a b) with }

/-- A branch to two new blocks. -/
def fork (w : View) (c : Cursor) (v : ValueId) (a b : BlockId) : View :=
  ((w.split c v a b).lead c a).lead c b

theorem keeps_fork (hc : w.Open c) (ht : w.Tables) (ha : w.Fresh c.method a)
    (hb : w.Fresh c.method b) (hna : a ≠ c.block) (hnb : b ≠ c.block) (hab : a ≠ b) :
    Keeps w (w.fork c v a b) fun d => d = c.block ∨ d = a ∨ d = b := by
  have k1 := keeps_split (v := v) (a := a) (b := b) hc ht
  have ha1 := ha.same k1 hna
  have k2 := keeps_lead ha1
  have hb2 := (hb.same k1 hnb).same k2 fun h => h.elim (Ne.symm hab) fun h => hnb h.2
  refine ((k1.trans k2).trans (keeps_lead hb2)).weaken fun d _ hd => ?_
  rcases hd with (hd | hd | hd) | hd | hd
  · exact Or.inl hd
  · exact Or.inr (Or.inl hd)
  · exact Or.inl hd.2
  · exact Or.inr (Or.inr hd)
  · exact Or.inl hd.2

theorem grown_fork (hna : a ≠ c.block) (hnb : b ≠ c.block) : Grown w (w.fork c v a b) c.block :=
  (grown_split.trans (grown_lead hna)).trans (grown_lead hnb)

theorem fork_kept : (w.fork c v a b).op ⟨w.values⟩ = some (.branch v a b)
    ∧ (w.fork c v a b).values = w.values + 1
    ∧ (w.fork c v a b).body c.block = w.body c.block ++ [⟨w.values⟩]
    ∧ (∀ d, d ≠ c.block → (w.fork c v a b).body d = w.body d)
    ∧ (w.fork c v a b).phis = w.phis
    ∧ (w.fork c v a b).after c.block = some c.bindings
    ∧ (∀ d, d ≠ c.block → (w.fork c v a b).after d = w.after d)
    ∧ (w.fork c v a b).kind = w.kind := by
  obtain ⟨ho, hn, hb, hp, haf, hk, -⟩ := lead_kept (w := w.split c v a b) (c := c) (t := a)
  obtain ⟨ho', hn', hb', hp', haf', hk', -⟩ :=
    lead_kept (w := (w.split c v a b).lead c a) (c := c) (t := b)
  unfold fork
  rw [ho', ho, hn', hn, hb', hb, hp', hp, haf', haf, hk', hk]
  exact ⟨if_pos rfl, rfl, if_pos rfl, fun d hd => if_neg hd, rfl, if_pos rfl, fun d hd => if_neg hd,
    rfl⟩

theorem fork_ok (hr : w.Placed c) (ht : w.Tables) (hv : w.Usable c v) (ha : w.Fresh c.method a)
    (hb : w.Fresh c.method b) (hna : a ≠ c.block) (hnb : b ≠ c.block) (hab : a ≠ b) :
    (w.fork c v a b).Wired ∧ (w.fork c v a b).Scoped := by
  obtain ⟨hw1, hs1⟩ := split_ok (a := a) (b := b) hr ht hv
  have k1 := keeps_split (v := v) (a := a) (b := b) hr.toOpen ht
  have ha1 := ha.same k1 hna
  have hlive1 : c.reachable = true → (w.split c v a b).Live c.block := fun hl =>
    (grown_split.live k1 hr.present).2 (hr.live.1 hl)
  have hafter1 : (w.split c v a b).after c.block ≠ none := by
    show (if c.block = c.block then some c.bindings else _) ≠ none
    simp
  have hnot1 : (w.split c v a b).kind c.block ≠ some .exit := hr.not_exit
  have hhome1 := k1.home c.block c.method hr.home
  have hsuccs1 : (w.split c v a b).succs c.block = [] := hr.succs
  obtain ⟨hw2, hs2⟩ := lead_ok hw1 hs1 hlive1 hafter1 hnot1 hhome1 (by simp [hsuccs1]) ha1
  have k2 := keeps_lead ha1
  have hnot2 : ((w.split c v a b).lead c a).kind c.block ≠ some .exit := by
    rw [lead_kept.2.2.2.2.2.1]
    exact hnot1
  have hb2 := (hb.same k1 hnb).same k2 fun h => h.elim (Ne.symm hab) fun h => hnb h.2
  have hpresent1 := k1.exists_kind hr.present
  have honly2 : ∀ d ∈ ((w.split c v a b).lead c a).succs c.block,
      ((w.split c v a b).lead c a).kind d ≠ some .exit := by
    intro d hd
    rw [succs_lead, hsuccs1] at hd
    split at hd
    · obtain rfl := List.mem_singleton.1 hd
      rw [lead_kept.2.2.2.2.2.1]
      obtain ⟨k, hk, hne, -⟩ := ha1.kind
      simpa [hk] using hne
    · cases hd
  exact lead_ok hw2 hs2 (fun hl => ((grown_lead hna).live k2 hpresent1).2 (hlive1 hl))
    (k2.after_of_ne hafter1) hnot2 (k2.home c.block c.method hhome1) honly2 hb2

/-- The edges out of a block that was ended by a branch. -/
theorem succs_fork (hr : w.Placed c) (hab : a ≠ b) : (w.fork c v a b).succs c.block =
    if c.reachable = true then [a, b] else [] := by
  have hs : (w.split c v a b).succs c.block = [] := hr.succs
  unfold fork
  rw [succs_lead, succs_lead, hs]
  by_cases hl : c.reachable = true
  · simp [hl, Ne.symm hab]
  · simp [hl]

theorem succs_fork_of_ne {d : BlockId} (hd : d ≠ c.block) :
    (w.fork c v a b).succs d = w.succs d := by
  unfold fork
  rw [succs_lead, succs_lead, if_neg (by simp [hd]), if_neg (by simp [hd])]
  rfl

theorem Ended.fork (hr : w.Placed c) (ht : w.Tables) (ha : w.Fresh c.method a)
    (hb : w.Fresh c.method b) (hna : a ≠ c.block) (hnb : b ≠ c.block) (hab : a ≠ b) :
    (w.fork c v a b).Ended := by
  have k := keeps_fork (v := v) hr.toOpen ht ha hb hna hnb hab
  obtain ⟨hop, -, hbody, hbodies, -, -, hafters, hkind⟩ := fork_kept (w := w) (c := c) (v := v)
    (a := a) (b := b)
  refine hr.ended.of_kept (b := c.block) k.op (fun d hd hl hafter => ?_) fun hl _ => ?_
  · rw [hafters d hd] at hafter
    refine ⟨?_, hafter, hbodies d hd, succs_fork_of_ne hd⟩
    have hda : d ≠ a := by
      rintro rfl
      exact hafter ha.after
    have hdb : d ≠ b := by
      rintro rfl
      exact hafter hb.after
    have hpresent : w.kind d ≠ none := fun h => hafter (ht.absent h).2.2.2.2.2.1
    refine (k.same d hpresent ?_).live.1 hl
    simp [hd, hda, hdb]
  · have hreach : c.reachable = true :=
      hr.live.2 (((grown_fork hna hnb).live k hr.present).1 hl)
    refine ⟨w.body c.block, ⟨w.values⟩, .branch v a b, hbody, hop, rfl, fun u hu => ?_,
      fun d => ?_, ?_⟩
    · obtain ⟨o, ho, hno⟩ := hr.straight u hu
      exact ⟨o, k.op u o ho, hno⟩
    · rw [succs_fork hr hab, if_pos hreach]
      rfl
    · show [a, b].Nodup
      simp [hab]

/-- A block with nothing in it that the block at the cursor leads to. -/
structure Led (w : View) (c : Cursor) (t : BlockId) : Prop extends Blank w c.method t where
  phis : w.phis t = []
  idom : w.idom t = some c.block
  preds : w.preds t = if c.reachable = true then [c.block] else []
  plain : w.kind t = some .plain
  before : w.before t = some c.bindings

theorem Led.same {z : View} {S : BlockId → Prop} {t : BlockId} (h : w.Led c t) (k : Keeps w z S)
    (hb : ¬S t) : z.Led c t := by
  have hsame := k.same t h.present hb
  exact ⟨h.toBlank.same k hb, hsame.phis ▸ h.phis, hsame.idom ▸ h.idom, hsame.preds ▸ h.preds,
    hsame.kind ▸ h.plain, hsame.before ▸ h.before⟩

theorem led_lead {t : BlockId} (hf : w.Fresh c.method t) (hk : w.kind t = some .plain) :
    (w.lead c t).Led c t := by
  refine ⟨?_, ?_, ?_, preds_lead hf, (keeps_lead hf).kind _ _ hk, if_pos rfl⟩
  · unfold lead
    split <;> exact ⟨hf.kind, hf.home, hf.owned, hf.body, hf.after⟩
  · unfold lead
    split <;> exact hf.phis
  · exact idom_begin _ t c.block c.bindings

/-- What is known at the cursor is known in a block it leads to. -/
theorem Led.open {z : View} {S : BlockId → Prop} {t : BlockId} (h : z.Led c t) (hc : w.Open c)
    (k : Keeps w z S) (hnew : w.kind t = none) : z.Open (c.fork t) := by
  refine Blank.open (c := c.fork t) h.toBlank h.idom (fun e he => ?_) (fun e he => ?_) ?_ ?_
    (fun x u hu => ?_)
  · rw [k.exits] at he
    refine ⟨k.exists_kind (hc.exit_apart e he).1, ?_⟩
    rintro rfl
    exact (hc.exit_apart _ he).1 hnew
  · rw [k.entry] at he
    exact (hc.rooted e he).mono k.idom
  · show c.reachable = true ↔ z.preds t ≠ []
    rw [h.preds]
    split <;> simp_all
  · rw [k.tracked]
    exact hc.bound
  · obtain ⟨hval, habove⟩ := hc.usable x u hu
    refine ⟨k.hasValue hval, fun hl => ?_⟩
    obtain ⟨d, hd, hdc⟩ := k.definedAbove hval (habove hl)
    exact ⟨d, hd, .up h.idom hdc⟩

/-- Both blocks that a branch goes to are led to. -/
theorem led_fork (hc : w.Open c) (ht : w.Tables) (ha : w.Fresh c.method a)
    (hb : w.Fresh c.method b) (hka : w.kind a = some .plain) (hkb : w.kind b = some .plain)
    (hna : a ≠ c.block) (hnb : b ≠ c.block) (hab : a ≠ b) :
    (w.fork c v a b).Led c a ∧ (w.fork c v a b).Led c b := by
  have k1 := keeps_split (v := v) (a := a) (b := b) hc ht
  have ha1 := ha.same k1 hna
  have k2 := keeps_lead ha1
  have hb2 := (hb.same k1 hnb).same k2 fun h => h.elim (Ne.symm hab) fun h => hnb h.2
  exact ⟨(led_lead ha1 hka).same (keeps_lead hb2) fun h => h.elim hab fun h => hna h.2,
    led_lead hb2 (k2.kind _ _ hkb)⟩

end Branch

/-- What a branch leaves. -/
structure Forked (w : View) (c : Cursor) (v : ValueId) (z : View) (a b : BlockId) : Prop where
  sound : z.Sound
  keeps : Keeps w z (· = c.block)
  grown : Grown w z c.block
  after : z.after c.block = some c.bindings
  new_left : w.kind a = none
  new_right : w.kind b = none
  apart : a ≠ b
  left : z.Led c a
  right : z.Led c b
  only : ∀ d, w.kind d = none → z.kind d ≠ none → d = a ∨ d = b
  body : z.body c.block = w.body c.block ++ [⟨w.values⟩]
  op : z.op ⟨w.values⟩ = some (.branch v a b)
  values : z.values = w.values + 1

/-- Two new blocks, and a branch to them. -/
def branchOff (w : View) (c : Cursor) (v : ValueId) : View :=
  ((w.newBlock c.method .plain).newBlock c.method .plain).fork c v ⟨w.blocks⟩ ⟨w.blocks + 1⟩

theorem forked_branchOff {v : ValueId} (hr : w.Placed c) (ht : w.Tables) (hv : w.Usable c v) :
    Forked w c v (w.branchOff c v) ⟨w.blocks⟩ ⟨w.blocks + 1⟩ := by
  have hm : w.sort c.method ≠ none := hr.has_method
  have hfirst : w.kind ⟨w.blocks⟩ = none := ht.fresh_kind
  have hsecond : w.kind ⟨w.blocks + 1⟩ = none := ht.kind_none.2 (Nat.le_succ _)
  have ht1 := ht.newBlock hm .plain
  have k1 := keeps_newBlock ht c.method .plain
  have ht2 := ht1.newBlock hm .plain
  have k12 := keeps_newBlock ht1 c.method .plain
  have k2 := (k1.trans k12).weaken (T := fun _ => False) fun _ _ h => h.elim id id
  have ha := (fresh_newBlock ht c.method .plain (by simp) (by simp)).same k12 id
  have hb := fresh_newBlock ht1 c.method .plain (by simp) (by simp)
  have hsound := (hr.toSound.newBlock ht hm .plain (by simp) (by simp)).newBlock ht1 hm .plain
    (by simp) (by simp)
  have hr2 := Placed.mk hsound (hr.toOpen.keep k2 id)
  have hna : (⟨w.blocks⟩ : BlockId) ≠ c.block := fun h => hr.present (h ▸ hfirst)
  have hnb : (⟨w.blocks + 1⟩ : BlockId) ≠ c.block := fun h => hr.present (h ▸ hsecond)
  have hab : (⟨w.blocks⟩ : BlockId) ≠ ⟨w.blocks + 1⟩ := by simp
  obtain ⟨hwired, hscoped⟩ := fork_ok hr2 ht2 (k2.usable hv) ha hb hna hnb hab
  have k := keeps_fork (v := v) hr2.toOpen ht2 ha hb hna hnb hab
  obtain ⟨hleft, hright⟩ := led_fork (v := v) hr2.toOpen ht2 ha hb
    (k12.kind _ _ (if_pos rfl)) (if_pos rfl) hna hnb hab
  obtain ⟨hop, hvalues, hbody, -, -, hafter, -, hkind⟩ := fork_kept
    (w := (w.newBlock c.method .plain).newBlock c.method .plain) (c := c) (v := v)
    (a := ⟨w.blocks⟩) (b := ⟨w.blocks + 1⟩)
  have hsame := k2.same c.block hr.present id
  refine
    { sound := ⟨hwired, hscoped, Ended.fork hr2 ht2 ha hb hna hnb hab, k.sole ht2 hkind hsound.sole⟩
      keeps := (k2.trans k).weaken fun d hd h => ?_
      grown := hsame.grown.trans (grown_fork hna hnb)
      after := hafter
      new_left := hfirst
      new_right := hsecond
      apart := hab
      left := hleft
      right := hright
      only := fun d hd hz => ?_
      body := hbody
      op := hop
      values := hvalues }
  · rcases h with h | h | rfl | rfl
    · exact h.elim
    · exact h
    · exact absurd hfirst hd
    · exact absurd hsecond hd
  · have hz' : ((w.newBlock c.method .plain).newBlock c.method .plain).kind d ≠ none := by
      rw [← hkind]
      exact hz
    change (if d = ⟨w.blocks + 1⟩ then _ else if d = ⟨w.blocks⟩ then _ else w.kind d) ≠ none at hz'
    by_cases h2 : d = ⟨w.blocks + 1⟩
    · exact Or.inr h2
    · by_cases h1 : d = ⟨w.blocks⟩
      · exact Or.inl h1
      · rw [if_neg h2, if_neg h1] at hz'
        exact absurd hd hz'

end View

end StructuredSsa
