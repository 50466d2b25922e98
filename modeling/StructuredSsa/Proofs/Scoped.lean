import StructuredSsa.Proofs.Wired

/-!
# Dominance and blocks with an end

Two more invariants of a program under construction.

* `View.Scoped`: dominator pointers are above the edges into their block, and
  what an instruction or a recorded binding refers to is defined above it.
  With `mem_of_above`, this is dominance in terms of walks.
* `View.Ended`: a sealed block ends in its only terminator, which goes where
  the edges go.

Both leave out blocks that control cannot get to.
-/

namespace StructuredSsa

namespace View

variable {w : View} {b : BlockId} {v : ValueId}

/-! ## The invariants -/

/-- A value is defined in `b` or above it. -/
def DefinedAbove (w : View) (v : ValueId) (b : BlockId) : Prop :=
  ∃ d, w.owner v = some d ∧ Above w.idom d b

/-- The scope a method declares names in. -/
def scopeOf (w : View) (m : MethodId) : Scope :=
  match w.sort m with
  | some .main => w.globals
  | _ => w.symbols m

/-- The scalars whose values a method tracks. -/
def tracked (w : View) (m : MethodId) : List String := (w.scopeOf m).scalars

/-- Dominator pointers are above edges, and definitions above uses. -/
structure Scoped (w : View) : Prop where
  idom_above : ∀ b d q, w.idom b = some d → q ∈ w.preds b → Above w.idom d q
  idom_home : ∀ b d, w.idom b = some d → w.home d = w.home b
  entry_idom : ∀ b, w.IsEntry b → w.idom b = none
  /-- Sealed blocks hang below the entry of their method. -/
  rooted : ∀ b m e, w.after b ≠ none → w.home b = some m → w.entry m = some e → Above w.idom e b
  operand_above : ∀ u b v op, w.owner u = some b → w.Live b → w.op u = some op →
    op.isPhi = false → v ∈ op.operands → w.DefinedAbove v b
  after_above : ∀ b st x v, w.Live b → w.after b = some st → w.kind b ≠ some .exit →
    st.get? x = some v → w.DefinedAbove v b
  /-- A phi for `x` reads, along an edge, what `x` holds on leaving its source. -/
  phi_operand : ∀ v b x os q u, v ∈ w.phis b → w.op v = some (.phi x os) → (q, u) ∈ os →
    q ∈ w.preds b ∧ ∃ st, w.after q = some st ∧ st.get? x = some u
  phi_tracked : ∀ v b m x os, v ∈ w.phis b → w.op v = some (.phi x os) → w.home b = some m →
    w.kind b ≠ some .exit → x ∈ w.tracked m
  after_bound : ∀ b m st x, w.after b = some st → w.home b = some m → x ∈ w.tracked m →
    ∃ v, st.get? x = some v

/-- A block ends in its only terminator, which goes where the edges go, to
different blocks. -/
def Ends (w : View) (b : BlockId) : Prop :=
  ∃ init t op, w.body b = init ++ [t] ∧ w.op t = some op ∧ op.isTerminator = true
    ∧ (∀ u ∈ init, ∃ o, w.op u = some o ∧ o.isTerminator = false)
    ∧ (∀ s, s ∈ op.targets ↔ s ∈ w.succs b) ∧ op.targets.Nodup

/-- Sealed blocks that control can get to are ended. -/
def Ended (w : View) : Prop := ∀ b, w.Live b → w.after b ≠ none → w.Ends b

/-! ## What operations keep -/

/-- More pointers and more values, the old ones kept. -/
theorem DefinedAbove.mono {z : View} (howner : ∀ v d, w.owner v = some d → z.owner v = some d)
    (hidom : ∀ b d, w.idom b = some d → z.idom b = some d) (h : w.DefinedAbove v b) :
    z.DefinedAbove v b := by
  obtain ⟨d, hd, habove⟩ := h
  exact ⟨d, howner v d hd, habove.mono hidom⟩

/-- A new value does not change who owns the others. -/
theorem owner_add (ht : w.Tables) {op : Op} {o : Option BlockId} {d : BlockId}
    (h : w.owner v = some d) : (w.add op o).owner v = some d := by
  have hne : v ≠ ⟨w.values⟩ := by
    rintro rfl
    rw [ht.owner_none ht.fresh_op] at h
    cases h
  show (if v = ⟨w.values⟩ then o else w.owner v) = some d
  rw [if_neg hne, h]

theorem DefinedAbove.add (ht : w.Tables) (op : Op) {o : Option BlockId} (h : w.DefinedAbove v b) :
    (w.add op o).DefinedAbove v b :=
  h.mono (fun _ _ hd => owner_add ht hd) fun _ _ hd => hd

theorem Scoped.emit (h : w.Scoped) (hw : w.Wired) (ht : w.Tables) {op : Op}
    (hops : w.Live b → ∀ v ∈ op.operands, w.DefinedAbove v b) : (w.emit b op).Scoped := by
  have hphis {v : ValueId} {c : BlockId} (hv : v ∈ w.phis c) : (w.emit b op).op v = w.op v :=
    if_neg (ht.ne_fresh (hw.op_of_contents (List.mem_append_left _ hv)))
  refine { h with
    operand_above := fun u c v o hu hl ho hphi hv => ?_
    after_above := fun c st x v hl hst hk hx => (h.after_above c st x v hl hst hk hx).add ht op
    phi_operand := fun v c x os q u hv ho hq =>
      h.phi_operand v c x os q u hv ((hphis hv).symm.trans ho) hq
    phi_tracked := fun v c m x os hv ho =>
      h.phi_tracked v c m x os hv ((hphis hv).symm.trans ho) }
  · change (if u = ⟨w.values⟩ then some b else w.owner u) = some c at hu
    change (if u = ⟨w.values⟩ then some op else w.op u) = some o at ho
    show (w.add op (some b)).DefinedAbove v c
    split at hu
    · next hfresh =>
        rw [if_pos hfresh] at ho
        obtain rfl := Option.some.inj hu
        obtain rfl := Option.some.inj ho
        exact (hops hl v hv).add ht _
    · next hfresh =>
        rw [if_neg hfresh] at ho
        exact (h.operand_above u c v o hu hl ho hphi hv).add ht _

/-- The phis after another one: that one, and those there were. -/
theorem phis_addPhi (hw : w.Wired) (ht : w.Tables) {c : BlockId} {x y : String}
    {os os' : List (BlockId × ValueId)} (hv : v ∈ (w.addPhi b x os).phis c)
    (ho : (w.addPhi b x os).op v = some (.phi y os')) :
    (c = b ∧ y = x ∧ os' = os) ∨ (v ∈ w.phis c ∧ w.op v = some (.phi y os')) := by
  change (if v = ⟨w.values⟩ then some (.phi x os) else w.op v) = some (.phi y os') at ho
  change v ∈ (if c = b then w.phis b ++ [⟨w.values⟩] else w.phis c) at hv
  by_cases hfresh : v = ⟨w.values⟩
  · rw [if_pos hfresh] at ho
    obtain ⟨rfl, rfl⟩ := Op.phi.inj (Option.some.inj ho)
    by_cases hc : c = b
    · exact Or.inl ⟨hc, rfl, rfl⟩
    · rw [if_neg hc] at hv
      exact absurd hfresh (ht.ne_fresh (hw.op_of_contents (List.mem_append_left _ hv)))
  · rw [if_neg hfresh] at ho
    refine Or.inr ⟨?_, ho⟩
    split at hv
    · next hc =>
        rcases List.mem_append.1 hv with hv | hv
        · exact hc ▸ hv
        · exact absurd (List.mem_singleton.1 hv) hfresh
    · exact hv

section

variable (h : w.Scoped)
include h

theorem Scoped.addPhi (hw : w.Wired) (ht : w.Tables) {x : String} {os : List (BlockId × ValueId)}
    (hx : ∀ m, w.home b = some m → w.kind b ≠ some .exit → x ∈ w.tracked m)
    (hos : ∀ q u, (q, u) ∈ os → q ∈ w.preds b ∧ ∃ st, w.after q = some st ∧ st.get? x = some u) :
    (w.addPhi b x os).Scoped := by
  refine { h with
    operand_above := fun u c v o hu hl ho hphi hv => ?_
    after_above := fun c st y v hl hst hk hx =>
      (h.after_above c st y v hl hst hk hx).add ht (.phi x os)
    phi_operand := fun v c y os' q u hv ho hq => ?_
    phi_tracked := fun v c m y os' hv ho hm hk => ?_ }
  · change (if u = ⟨w.values⟩ then some b else w.owner u) = some c at hu
    change (if u = ⟨w.values⟩ then some (.phi x os) else w.op u) = some o at ho
    show (w.add (.phi x os) (some b)).DefinedAbove v c
    split at ho
    · obtain rfl := Option.some.inj ho
      cases hphi
    · next hfresh =>
        rw [if_neg hfresh] at hu
        exact (h.operand_above u c v o hu hl ho hphi hv).add ht _
  · rcases phis_addPhi hw ht hv ho with ⟨rfl, rfl, rfl⟩ | ⟨hv, ho⟩
    · exact hos q u hq
    · exact h.phi_operand v c y os' q u hv ho hq
  · rcases phis_addPhi hw ht hv ho with ⟨rfl, rfl, -⟩ | ⟨hv, ho⟩
    · exact hx m hm hk
    · exact h.phi_tracked v c m y os' hv ho hm hk

theorem Scoped.setAfter {st : Bindings} (hopen : w.after b = none)
    (hroot : ∀ m e, w.home b = some m → w.entry m = some e → Above w.idom e b)
    (hst : w.Live b → w.kind b ≠ some .exit → ∀ x v, st.get? x = some v → w.DefinedAbove v b)
    (hbound : ∀ m x, w.home b = some m → x ∈ w.tracked m → ∃ v, st.get? x = some v) :
    (w.setAfter b st).Scoped := by
  refine { h with
    rooted := fun c m e hc hm he => ?_
    after_above := fun c st' x v hl hc hk hx => ?_
    phi_operand := fun v c x os q u hv ho hq => ?_
    after_bound := fun c m st' x hc hm hx => ?_ }
  · by_cases hcb : c = b
    · exact hcb ▸ hroot m e (hcb ▸ hm) he
    · change (if c = b then some st else w.after c) ≠ none at hc
      rw [if_neg hcb] at hc
      exact h.rooted c m e hc hm he
  · change (if c = b then some st else w.after c) = some st' at hc
    split at hc
    · next hcb =>
        subst hcb
        obtain rfl := Option.some.inj hc
        exact hst hl hk x v hx
    · exact h.after_above c st' x v hl hc hk hx
  · obtain ⟨hq', st', hst', hx⟩ := h.phi_operand v c x os q u hv ho hq
    refine ⟨hq', st', ?_, hx⟩
    show (if q = b then some st else w.after q) = some st'
    rw [if_neg (by rintro rfl; rw [hopen] at hst'; cases hst'), hst']
  · change (if c = b then some st else w.after c) = some st' at hc
    split at hc
    · next hcb =>
        obtain rfl := Option.some.inj hc
        exact hbound m x (hcb ▸ hm) hx
    · exact h.after_bound c m st' x hc hm hx

theorem Scoped.setIdom {d : BlockId} (hnone : w.idom b = none) (hentry : ¬w.IsEntry b)
    (hhome : w.home d = w.home b) (hpreds : ∀ q ∈ w.preds b, Above w.idom d q) :
    (w.setIdom b d).Scoped := by
  have hmono (c e : BlockId) (hc : w.idom c = some e) : (w.setIdom b d).idom c = some e := by
    show (if c = b then some d else w.idom c) = some e
    rw [if_neg (by rintro rfl; rw [hnone] at hc; cases hc), hc]
  have hkeep {v : ValueId} {c : BlockId} (hv : w.DefinedAbove v c) :
      (w.setIdom b d).DefinedAbove v c :=
    DefinedAbove.mono (w := w) (z := w.setIdom b d) (fun _ _ h => h) hmono hv
  refine { h with
    idom_above := fun c e q hc hq => ?_
    idom_home := fun c e hc => ?_
    entry_idom := fun c hc => ?_
    rooted := fun c m e hc hm he => (h.rooted c m e hc hm he).mono hmono
    operand_above := fun u c v o hu hl ho hphi hv => hkeep (h.operand_above u c v o hu hl ho hphi hv)
    after_above := fun c st x v hl hst hk hx => hkeep (h.after_above c st x v hl hst hk hx) }
  · change (if c = b then some d else w.idom c) = some e at hc
    split at hc
    · next hcb =>
        obtain rfl := Option.some.inj hc
        exact (hpreds q (hcb ▸ hq)).mono hmono
    · exact (h.idom_above c e q hc hq).mono hmono
  · change (if c = b then some d else w.idom c) = some e at hc
    split at hc
    · next hcb =>
        obtain rfl := Option.some.inj hc
        exact hcb ▸ hhome
    · exact h.idom_home c e hc
  · have hcb : c ≠ b := by
      rintro rfl
      exact hentry hc
    show (if c = b then some d else w.idom c) = none
    rw [if_neg hcb]
    exact h.entry_idom c hc

theorem Scoped.link (hw : w.Wired) {s t : BlockId}
    (habove : ∀ d, w.idom t = some d → Above w.idom d s)
    (hempty : w.Live t ∨ (w.contents t = [] ∧ w.after t = none)) : (w.link s t).Scoped := by
  refine { h with
    idom_above := fun b d q hd hq => ?_
    operand_above := fun u b v op hu hl ho hphi hv => ?_
    after_above := fun b st x v hl hst hk hx => ?_
    phi_operand := fun v b x os q u hv ho hq => ?_ }
  · rcases mem_preds_link.1 hq with hq | ⟨rfl, rfl⟩
    · exact h.idom_above b d q hd hq
    · exact habove d hd
  · have hl' : w.Live b := by
      rcases live_link.1 hl with hl | rfl
      · exact hl
      · rcases hempty with hl | ⟨hempty, -⟩
        · exact hl
        · have := (hw.listed u b).2 hu
          rw [hempty] at this
          cases this
    exact h.operand_above u b v op hu hl' ho hphi hv
  · have hl' : w.Live b := by
      rcases live_link.1 hl with hl | rfl
      · exact hl
      · rcases hempty with hl | ⟨-, hnone⟩
        · exact hl
        · rw [show (w.link s b).after b = w.after b from rfl, hnone] at hst
          cases hst
    exact h.after_above b st x v hl' hst hk hx
  · obtain ⟨hq', hst⟩ := h.phi_operand v b x os q u hv ho hq
    exact ⟨mem_preds_link.2 (Or.inl hq'), hst⟩

theorem Scoped.setBefore (b : BlockId) (st : Bindings) : (w.setBefore b st).Scoped :=
  { h with }

theorem Scoped.setExit (m : MethodId) (b : Option BlockId) : (w.setExit m b).Scoped :=
  { h with }

end

theorem live_newBlock (ht : w.Tables) {m : MethodId} {kind : BlockKind}
    (hkind : ∀ vs, kind ≠ .entry vs) : (w.newBlock m kind).Live b ↔ w.Live b := by
  have hfresh := ht.fresh_kind
  have hentry : (w.newBlock m kind).IsEntry b ↔ w.IsEntry b := by
    simp only [IsEntry, View.newBlock]
    by_cases hb : b = ⟨w.blocks⟩
    · subst hb
      simp [hfresh, hkind]
    · simp [hb]
  rw [Live, hentry]
  rfl

theorem Scoped.newBlock (h : w.Scoped) (ht : w.Tables) {m : MethodId} {kind : BlockKind}
    (hkind : ∀ vs, kind ≠ .entry vs) : (w.newBlock m kind).Scoped := by
  have hfresh := ht.fresh_kind
  obtain ⟨hphis, -, -, -, -, hafter, hidom⟩ := ht.absent hfresh
  have hlive {b : BlockId} : (w.newBlock m kind).Live b ↔ w.Live b := live_newBlock ht hkind
  have hhome {b : BlockId} {n : MethodId} (hb : b ≠ ⟨w.blocks⟩)
      (hn : (w.newBlock m kind).home b = some n) : w.home b = some n := by
    change (if b = ⟨w.blocks⟩ then _ else w.home b) = some n at hn
    rwa [if_neg hb] at hn
  refine { h with
    idom_home := fun b d hd => ?_
    entry_idom := fun b hb => ?_
    rooted := fun b n e hb hn he => ?_
    operand_above := fun u b v op hu hl => h.operand_above u b v op hu (hlive.1 hl)
    after_above := fun b st x v hl hst hk hx => h.after_above b st x v (hlive.1 hl) hst ?_ hx
    phi_tracked := fun v b n x os hv ho hn hk => ?_
    after_bound := fun b n st x hst hn hx => ?_ }
  · have hb : b ≠ ⟨w.blocks⟩ := by
      rintro rfl
      rw [show (w.newBlock m kind).idom ⟨w.blocks⟩ = w.idom ⟨w.blocks⟩ from rfl, hidom] at hd
      cases hd
    have hhome := h.idom_home b d hd
    have hd' : d ≠ ⟨w.blocks⟩ := by
      rintro rfl
      rw [ht.home_none.2 hfresh] at hhome
      have := ht.home_none.1 hhome.symm
      rw [show (w.newBlock m kind).idom b = w.idom b from rfl, (ht.absent this).2.2.2.2.2.2] at hd
      cases hd
    show (if d = ⟨w.blocks⟩ then _ else w.home d) = if b = ⟨w.blocks⟩ then _ else w.home b
    rw [if_neg hd', if_neg hb, hhome]
  · obtain ⟨vs, hvs⟩ := hb
    change (if b = ⟨w.blocks⟩ then some kind else w.kind b) = _ at hvs
    split at hvs
    · exact absurd (Option.some.inj hvs) (hkind vs)
    · exact h.entry_idom b ⟨vs, hvs⟩
  · have hbe : b ≠ ⟨w.blocks⟩ := by
      rintro rfl
      exact absurd hafter hb
    exact h.rooted b n e hb (hhome hbe hn) he
  · change (if b = ⟨w.blocks⟩ then some kind else w.kind b) ≠ some .exit at hk
    split at hk
    · next hbe =>
        subst hbe
        rw [show (w.newBlock m kind).after ⟨w.blocks⟩ = w.after ⟨w.blocks⟩ from rfl, hafter] at hst
        cases hst
    · exact hk
  · have hbe : b ≠ ⟨w.blocks⟩ := by
      rintro rfl
      rw [show (w.newBlock m kind).phis ⟨w.blocks⟩ = w.phis ⟨w.blocks⟩ from rfl, hphis] at hv
      cases hv
    change (if b = ⟨w.blocks⟩ then some kind else w.kind b) ≠ some .exit at hk
    rw [if_neg hbe] at hk
    exact h.phi_tracked v b n x os hv ho (hhome hbe hn) hk
  · have hbe : b ≠ ⟨w.blocks⟩ := by
      rintro rfl
      rw [show (w.newBlock m kind).after ⟨w.blocks⟩ = w.after ⟨w.blocks⟩ from rfl, hafter] at hst
      cases hst
    exact h.after_bound b n st x hst (hhome hbe hn) hx

theorem Scoped.addMethod (h : w.Scoped) (hw : w.Wired) (ht : w.Tables) (kind : MethodKind) :
    (w.addMethod kind).Scoped := by
  have hfresh := ht.fresh_kind
  obtain ⟨hphis, hbody, hpreds, -, -, hafter, hidom⟩ := ht.absent hfresh
  have hlive {b : BlockId} (hb : b ≠ ⟨w.blocks⟩) : (w.addMethod kind).Live b ↔ w.Live b := by
    have hentry : (w.addMethod kind).IsEntry b ↔ w.IsEntry b := by
      simp [IsEntry, View.addMethod, hb]
    rw [Live, hentry]
    rfl
  have hold {b : BlockId} {n : MethodId} (hb : b ≠ ⟨w.blocks⟩)
      (hn : (w.addMethod kind).home b = some n) :
      w.home b = some n ∧ n ≠ ⟨w.methods⟩ ∧ (w.addMethod kind).tracked n = w.tracked n := by
    change (if b = ⟨w.blocks⟩ then _ else w.home b) = some n at hn
    rw [if_neg hb] at hn
    have hnm : n ≠ ⟨w.methods⟩ := by
      rintro rfl
      exact hw.home_sort b _ hn (ht.sort_none.2 (Nat.le_refl _))
    refine ⟨hn, hnm, ?_⟩
    simp only [tracked, scopeOf, View.addMethod, if_neg hnm]
  refine { h with
    idom_home := fun b d hd => ?_
    entry_idom := fun b hb => ?_
    rooted := fun b n e hb hn he => ?_
    operand_above := fun u b v op hu hl => h.operand_above u b v op hu ?_
    after_above := fun b st x v hl hst hk hx => ?_
    phi_tracked := fun v b n x os hv ho hn hk => ?_
    after_bound := fun b n st x hst hn hx => ?_ }
  · have hb : b ≠ ⟨w.blocks⟩ := by
      rintro rfl
      rw [show (w.addMethod kind).idom ⟨w.blocks⟩ = w.idom ⟨w.blocks⟩ from rfl, hidom] at hd
      cases hd
    have hhome := h.idom_home b d hd
    have hd' : d ≠ ⟨w.blocks⟩ := by
      rintro rfl
      rw [ht.home_none.2 hfresh] at hhome
      have := ht.home_none.1 hhome.symm
      rw [show (w.addMethod kind).idom b = w.idom b from rfl, (ht.absent this).2.2.2.2.2.2] at hd
      cases hd
    show (if d = ⟨w.blocks⟩ then _ else w.home d) = if b = ⟨w.blocks⟩ then _ else w.home b
    rw [if_neg hd', if_neg hb, hhome]
  · by_cases hbe : b = ⟨w.blocks⟩
    · exact hbe ▸ hidom
    · refine h.entry_idom b ?_
      simpa [IsEntry, View.addMethod, hbe] using hb
  · have hbe : b ≠ ⟨w.blocks⟩ := by
      rintro rfl
      exact hb hafter
    obtain ⟨hn, hnm, -⟩ := hold hbe hn
    change (if n = ⟨w.methods⟩ then _ else w.entry n) = some e at he
    rw [if_neg hnm] at he
    exact h.rooted b n e hb hn he
  · have hbe : b ≠ ⟨w.blocks⟩ := by
      rintro rfl
      have := (hw.listed u ⟨w.blocks⟩).2 hu
      simp [contents, hphis, hbody] at this
    exact (hlive hbe).1 hl
  · have hbe : b ≠ ⟨w.blocks⟩ := by
      rintro rfl
      rw [show (w.addMethod kind).after ⟨w.blocks⟩ = w.after ⟨w.blocks⟩ from rfl, hafter] at hst
      cases hst
    change (if b = ⟨w.blocks⟩ then _ else w.kind b) ≠ _ at hk
    rw [if_neg hbe] at hk
    exact h.after_above b st x v ((hlive hbe).1 hl) hst hk hx
  · have hbe : b ≠ ⟨w.blocks⟩ := by
      rintro rfl
      rw [show (w.addMethod kind).phis ⟨w.blocks⟩ = w.phis ⟨w.blocks⟩ from rfl, hphis] at hv
      cases hv
    obtain ⟨hn, -, htracked⟩ := hold hbe hn
    change (if b = ⟨w.blocks⟩ then _ else w.kind b) ≠ _ at hk
    rw [if_neg hbe] at hk
    rw [htracked]
    exact h.phi_tracked v b n x os hv ho hn hk
  · have hbe : b ≠ ⟨w.blocks⟩ := by
      rintro rfl
      rw [show (w.addMethod kind).after ⟨w.blocks⟩ = w.after ⟨w.blocks⟩ from rfl, hafter] at hst
      cases hst
    obtain ⟨hn, -, htracked⟩ := hold hbe hn
    exact h.after_bound b n st x hst hn (htracked ▸ hx)

theorem Scoped.setKind (h : w.Scoped) {vs vs' : List ValueId} (hb : w.kind b = some (.entry vs)) :
    (w.setKind b (.entry vs')).Scoped := by
  have hkind {c : BlockId} (hk : (w.setKind b (.entry vs')).kind c ≠ some .exit) :
      w.kind c ≠ some .exit := by
    change (if c = b then some _ else w.kind c) ≠ _ at hk
    by_cases hcb : c = b
    · subst hcb
      simp [hb]
    · rwa [if_neg hcb] at hk
  exact { h with
    entry_idom := fun c hc => h.entry_idom c ((isEntry_setKind hb).1 hc)
    operand_above := fun u c v op hu hl => h.operand_above u c v op hu ((live_setKind hb).1 hl)
    after_above := fun c st x v hl hst hk hx =>
      h.after_above c st x v ((live_setKind hb).1 hl) hst (hkind hk) hx
    phi_tracked := fun v c m x os hv ho hm hk => h.phi_tracked v c m x os hv ho hm (hkind hk) }

theorem Scoped.setPhi (h : w.Scoped) (hw : w.Wired) {phi : ValueId} {x : String}
    {old os : List (BlockId × ValueId)} (hb : phi ∈ w.phis b) (hphi : w.op phi = some (.phi x old))
    (hos : ∀ q u, (q, u) ∈ os → q ∈ w.preds b ∧ ∃ st, w.after q = some st ∧ st.get? x = some u) :
    (w.setPhi phi x os).Scoped := by
  refine { h with
    operand_above := fun u c v op hu hl ho hno hv => ?_
    phi_operand := fun v c y os' q u hv ho hq => ?_
    phi_tracked := fun v c m y os' hv ho => ?_ }
  · change (if u = phi then some _ else w.op u) = some op at ho
    split at ho
    · obtain rfl := Option.some.inj ho
      cases hno
    · exact h.operand_above u c v op hu hl ho hno hv
  · change (if v = phi then some (.phi x os) else w.op v) = some (.phi y os') at ho
    split at ho
    · next hvp =>
        subst hvp
        obtain ⟨rfl, rfl⟩ := Op.phi.inj (Option.some.inj ho)
        have hc := (hw.listed v c).1 (List.mem_append_left _ hv)
        have hb := (hw.listed v b).1 (List.mem_append_left _ hb)
        obtain rfl := Option.some.inj (hc.symm.trans hb)
        exact hos q u hq
    · exact h.phi_operand v c y os' q u hv ho hq
  · change (if v = phi then some (.phi x os) else w.op v) = some (.phi y os') at ho
    split at ho
    · next hvp =>
        obtain ⟨rfl, rfl⟩ := Op.phi.inj (Option.some.inj ho)
        exact h.phi_tracked v c m x old hv (hvp ▸ hphi)
    · exact h.phi_tracked v c m y os' hv ho

/-- Removing a block that nothing live reads from. -/
theorem Scoped.drop (h : w.Scoped) (hw : w.Wired)
    (hclear : ∀ v c, w.Live c → w.DefinedAbove v c → w.owner v ≠ some b) : (w.drop b).Scoped := by
  have hkeep {v : ValueId} {c : BlockId} (hl : w.Live c) (hv : w.DefinedAbove v c) :
      (w.drop b).DefinedAbove v c := by
    have hnot := hclear v c hl hv
    obtain ⟨d, hd, habove⟩ := hv
    refine ⟨d, ?_, habove⟩
    show (if v ∈ w.contents b then none else w.owner v) = some d
    rw [if_neg (by rwa [hw.listed]), hd]
  have hphis {v : ValueId} {c : BlockId} (hv : v ∈ (w.drop b).phis c) : v ∈ w.phis c := by
    change v ∈ (if c = b then [] else w.phis c) at hv
    split at hv
    · cases hv
    · exact hv
  refine { h with
    operand_above := fun u c v op hu hl ho hphi hv => ?_
    after_above := fun c st x v hl hst hk hx => hkeep hl (h.after_above c st x v hl hst hk hx)
    phi_operand := fun v c x os q u hv ho hq => h.phi_operand v c x os q u (hphis hv) ho hq
    phi_tracked := fun v c m x os hv => h.phi_tracked v c m x os (hphis hv) }
  · have hu' : w.owner u = some c := by
      change (if u ∈ w.contents b then none else w.owner u) = some c at hu
      split at hu
      · cases hu
      · exact hu
    exact hkeep hl (h.operand_above u c v op hu' hl ho hphi hv)

/-! ## Ends of blocks -/

theorem Ends.mono {z : View} (h : w.Ends b)
    (hop : ∀ v ∈ w.body b, ∀ op, w.op v = some op → z.op v = some op) (hbody : z.body b = w.body b)
    (hsuccs : z.succs b = w.succs b) : z.Ends b := by
  obtain ⟨init, t, op, h1, h2, h3, h4, h5, h6⟩ := h
  refine ⟨init, t, op, hbody.trans h1, hop t (by simp [h1]) op h2, h3, fun u hu => ?_, fun s => ?_,
    h6⟩
  · obtain ⟨o, ho, hno⟩ := h4 u hu
    exact ⟨o, hop u (by simp [h1, hu]) o ho, hno⟩
  · rw [hsuccs]
    exact h5 s

/-- Sealed blocks keep their ends where their contents and edges are kept; a
block that changed is looked at on its own. -/
theorem Ended.of_kept {z : View} (h : w.Ended) (hop : ∀ v op, w.op v = some op → z.op v = some op)
    (hkept : ∀ c, c ≠ b → z.Live c → z.after c ≠ none →
      w.Live c ∧ w.after c ≠ none ∧ z.body c = w.body c ∧ z.succs c = w.succs c)
    (hb : z.Live b → z.after b ≠ none → z.Ends b) : z.Ended := by
  intro c hl hc
  by_cases hcb : c = b
  · subst hcb
    exact hb hl hc
  · obtain ⟨hl', hc', hbody, hsuccs⟩ := hkept c hcb hl hc
    exact (h c hl' hc').mono (fun v _ => hop v) hbody hsuccs

end View

end StructuredSsa
