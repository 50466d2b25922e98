import StructuredSsa.Proofs.Resolve
import StructuredSsa.Proofs.Tight

/-!
# Finished methods

`Closed` says what a method is when its body is closed, `Outside` what is left
alone by work on one method: everything that belongs to another, which is then
`Untouched`. Together they keep finished methods finished while the rest of a
computation is built. `Settled` is what closing a body leaves alone in the method itself.
-/

namespace StructuredSsa

namespace View

/-! ## Work on one method -/

/-- Nothing that belongs to a method other than `m` changed. -/
structure Outside (w z : View) (m : MethodId) : Prop where
  block : ∀ b n, w.home b = some n → n ≠ m → Same w z b
  home : ∀ b n, z.home b = some n → n ≠ m → w.home b = some n
  instr : ∀ v b n, w.owner v = some b → w.home b = some n → n ≠ m →
    z.op v = w.op v ∧ z.owner v = w.owner v
  sort : ∀ n, n ≠ m → z.sort n = w.sort n
  entry : ∀ n, n ≠ m → z.entry n = w.entry n
  exit : ∀ n, n ≠ m → z.exit n = w.exit n
  symbols : ∀ n, n ≠ m → z.symbols n = w.symbols n
  owned : ∀ n, n ≠ m → ∀ b, b ∈ z.owned n ↔ b ∈ w.owned n
  globals : z.globals = w.globals

namespace Outside

variable {w z y : View} {m n : MethodId}

theorem refl (w : View) (m : MethodId) : Outside w w m :=
  ⟨fun b _ _ _ => .refl w b, fun _ _ h _ => h, fun _ _ _ _ _ _ => ⟨rfl, rfl⟩, fun _ _ => rfl, fun _ _ => rfl,
    fun _ _ => rfl, fun _ _ => rfl, fun _ _ _ => Iff.rfl, rfl⟩

theorem trans (h : Outside w z m) (k : Outside z y m) : Outside w y m where
  block b n hb hn := (h.block b n hb hn).trans
    (k.block b n ((h.block b n hb hn).home.trans hb) hn)
  home b n hb hn := h.home b n (k.home b n hb hn) hn
  instr v b n hv hb hn := by
    obtain ⟨h1, h2⟩ := h.instr v b n hv hb hn
    obtain ⟨k1, k2⟩ := k.instr v b n (h2.trans hv) ((h.block b n hb hn).home.trans hb) hn
    exact ⟨k1.trans h1, k2.trans h2⟩
  sort n hn := (k.sort n hn).trans (h.sort n hn)
  entry n hn := (k.entry n hn).trans (h.entry n hn)
  exit n hn := (k.exit n hn).trans (h.exit n hn)
  symbols n hn := (k.symbols n hn).trans (h.symbols n hn)
  owned n hn b := (k.owned n hn b).trans (h.owned n hn b)
  globals := k.globals.trans h.globals

theorem tracked (h : Outside w z m) (hn : n ≠ m) : z.tracked n = w.tracked n := by
  unfold View.tracked View.scopeOf
  rw [h.sort n hn, h.symbols n hn, h.globals]

end Outside

/-- Nothing that belongs to the method `n` changed. -/
structure Untouched (w z : View) (n : MethodId) : Prop where
  block : ∀ b, w.home b = some n → Same w z b
  home : ∀ b, z.home b = some n → w.home b = some n
  instr : ∀ v b, w.owner v = some b → w.home b = some n → z.op v = w.op v ∧ z.owner v = w.owner v
  sort : z.sort n = w.sort n
  entry : z.entry n = w.entry n
  exit : z.exit n = w.exit n
  symbols : z.symbols n = w.symbols n
  owned : ∀ b, b ∈ z.owned n ↔ b ∈ w.owned n
  globals : z.globals = w.globals

theorem Outside.untouched {w z : View} {m n : MethodId} (h : Outside w z m) (hn : n ≠ m) :
    Untouched w z n :=
  ⟨fun b hb => h.block b n hb hn, fun b hb => h.home b n hb hn,
    fun v b hv hb => h.instr v b n hv hb hn, h.sort n hn, h.entry n hn, h.exit n hn,
    h.symbols n hn, h.owned n hn, h.globals⟩

namespace Untouched

variable {w z y : View} {n : MethodId}

theorem refl (w : View) (n : MethodId) : Untouched w w n :=
  ⟨fun b _ => .refl w b, fun _ h => h, fun _ _ _ _ => ⟨rfl, rfl⟩, rfl, rfl, rfl, rfl,
    fun _ => Iff.rfl, rfl⟩

theorem trans (h : Untouched w z n) (k : Untouched z y n) : Untouched w y n where
  block b hb := (h.block b hb).trans (k.block b ((h.block b hb).home.trans hb))
  home b hb := h.home b (k.home b hb)
  instr v b hv hb := by
    obtain ⟨h1, h2⟩ := h.instr v b hv hb
    obtain ⟨k1, k2⟩ := k.instr v b (h2.trans hv) ((h.block b hb).home.trans hb)
    exact ⟨k1.trans h1, k2.trans h2⟩
  sort := k.sort.trans h.sort
  entry := k.entry.trans h.entry
  exit := k.exit.trans h.exit
  symbols := k.symbols.trans h.symbols
  owned b := (k.owned b).trans (h.owned b)
  globals := k.globals.trans h.globals

theorem tracked (h : Untouched w z n) : z.tracked n = w.tracked n := by
  unfold View.tracked View.scopeOf
  rw [h.sort, h.symbols, h.globals]

end Untouched

/-- Steps that change blocks of the method and add blocks to it. -/
theorem Keeps.outside {w z : View} {S : BlockId → Prop} {m : MethodId} (k : Keeps w z S)
    (ht : w.Tables) (htz : z.Tables) (hw : w.Wired) (hz : z.Wired)
    (hS : ∀ b n, S b → w.home b = some n → n = m)
    (hnew : ∀ b, w.kind b = none → z.kind b ≠ none → z.home b = some m) : Outside w z m where
  block b n hb hn := k.same b (ht.present_of_home hb) fun hs => hn (hS b n hs hb)
  home b n hb hn := by
    by_cases hnone : w.home b = none
    · have hhome := hnew b (ht.home_none.1 hnone) (htz.present_of_home hb)
      exact absurd (Option.some.inj (hb.symm.trans hhome)) hn
    · obtain ⟨n', hn'⟩ := Option.ne_none_iff_exists'.1 hnone
      rw [hn', ← hb, k.home b n' hn']
  instr v b n hv _ _ := by
    have hop := hw.op_of_contents ((hw.listed v b).2 hv)
    obtain ⟨o, ho⟩ := Option.ne_none_iff_exists'.1 hop
    exact ⟨(k.op v o ho).trans ho.symm, k.owner v hop⟩
  sort n _ := congrFun k.sort n
  entry n _ := congrFun k.entry n
  exit n _ := congrFun k.exits n
  symbols n _ := congrFun k.symbols n
  owned n hn b := by
    refine ⟨fun hb => k.owned_old b n hb fun hnone => hn ?_, k.owned b n⟩
    have hhome := hz.owned_home b n hb
    exact Option.some.inj (hhome.symm.trans (hnew b hnone (htz.present_of_home hhome)))
  globals := k.globals

theorem Pruned.outside {w z : View} {m : MethodId} {dead : List BlockId} (h : Pruned w z m dead)
    (hdead : ∀ b ∈ dead, w.home b = some m) : Outside w z m := by
  have hnot {b : BlockId} {n : MethodId} (hb : w.home b = some n) (hn : n ≠ m) : b ∉ dead :=
    fun hd => hn (Option.some.inj (hb.symm.trans (hdead b hd)))
  refine
    { block := fun b n hb hn => ?_
      home := fun b n hb _ => by rwa [h.rest] at hb
      instr := fun v b n hv hb hn => ⟨?_, ?_⟩
      sort := fun n _ => ?_
      entry := fun n _ => ?_
      exit := fun n _ => ?_
      symbols := fun n _ => ?_
      owned := fun n hn b => by rw [h.owned, if_neg hn]
      globals := ?_ }
  · obtain ⟨h1, h2⟩ := h.contents b (hnot hb hn)
    refine ⟨?_, ?_, h1, h2, ?_, ?_, ?_, ?_, ?_⟩ <;> rw [h.rest]
  · rw [h.rest]
  · rw [h.owner v b hv (hnot hb hn), hv]
  all_goals rw [h.rest]

theorem Rephied.outside {w z : View} {S : ValueId → Prop} {m : MethodId} (h : Rephied w z S)
    (hS : ∀ v, S v → ∃ b, w.owner v = some b ∧ w.home b = some m) : Outside w z m := by
  refine
    { block := fun b n hb hn => ?_
      home := fun b n hb _ => by rwa [h.rest] at hb
      instr := fun v b n hv hb hn => ⟨h.kept v fun hs => hn ?_, ?_⟩
      sort := fun n _ => ?_
      entry := fun n _ => ?_
      exit := fun n _ => ?_
      symbols := fun n _ => ?_
      owned := fun n hn b => ?_
      globals := ?_ }
  · refine ⟨?_, ?_, ?_, ?_, ?_, ?_, ?_, ?_, ?_⟩ <;> rw [h.rest]
  · obtain ⟨c, hc, hm⟩ := hS v hs
    obtain rfl := Option.some.inj (hv.symm.trans hc)
    exact Option.some.inj (hb.symm.trans hm)
  all_goals rw [h.rest]

/-! ## Finished methods -/

/-- A method that is built: every block of it is sealed and can be reached, every
phi has an operand for each edge into its block, and the pointers miss no
dominator. -/
structure Closed (w : View) (m : MethodId) (e : BlockId) : Prop where
  exit : w.exit m = some e
  kind : w.kind e = some .exit
  owned : e ∈ w.owned m
  alive : ∀ b ∈ w.owned m, w.Live b
  sealed : ∀ b ∈ w.owned m, w.after b ≠ none
  filled : ∀ b ∈ w.owned m, ∀ v ∈ w.phis b, w.Filled b v
  tight : ∀ a, w.entry m = some a → ∀ b ∈ w.owned m, w.Tight a b

/-- Chains of pointers in a method only depend on the method. -/
theorem Untouched.above {w z : View} {n : MethodId} {a b : BlockId} (k : Untouched w z n)
    (hs : w.Scoped) (hb : w.home b = some n) (h : Above w.idom a b) : Above z.idom a b := by
  induction h with
  | refl => exact .refl a
  | up hd _ ih =>
      exact .up ((k.block _ hb).idom.trans hd) (ih ((hs.idom_home _ _ hd).trans hb))

/-- Walks to a block of a method only depend on the method. -/
theorem Untouched.walk {w z : View} {n : MethodId} {a b : BlockId} {l : List BlockId}
    (k : Untouched w z n) (hw : w.Wired) (hb : w.home b = some n) (h : Walk w.succs a b l) :
    Walk z.succs a b l := by
  induction h with
  | here => exact .here
  | step _ hs ih =>
      have hhome := (hw.edge_home _ _ hs).symm.trans hb
      refine .step (ih hhome) ?_
      rw [(k.block _ hhome).succs]
      exact hs

theorem Tight.untouched {w z : View} {n : MethodId} {a b : BlockId} (h : w.Tight a b)
    (hw : w.Sound) (k : Untouched w z n) (hb : w.home b = some n) : z.Tight a b := by
  intro x
  rcases h x with habove | ⟨l, hl, hx⟩
  · exact Or.inl (k.above hw.scoping hb habove)
  · exact Or.inr ⟨l, k.walk hw.wired hb hl, hx⟩

/-- Work on other methods leaves a finished one as it is. -/
theorem Closed.untouched {w z : View} {n : MethodId} {e : BlockId} (h : w.Closed n e)
    (hs : w.Sound) (k : Untouched w z n) : z.Closed n e := by
  have hw := hs.wired
  have hsame {b : BlockId} (hb : b ∈ w.owned n) : Same w z b := k.block b (hw.owned_home b n hb)
  refine
    { exit := k.exit.trans h.exit
      kind := (hsame h.owned).kind.trans h.kind
      owned := (k.owned e).2 h.owned
      alive := fun b hb => ?_
      sealed := fun b hb => ?_
      filled := fun b hb v hv => ?_
      tight := fun a ha b hb => ?_ }
  · have hb' := (k.owned b).1 hb
    exact (hsame hb').live.2 (h.alive b hb')
  · have hb' := (k.owned b).1 hb
    rw [(hsame hb').after]
    exact h.sealed b hb'
  · have hb' := (k.owned b).1 hb
    rw [(hsame hb').phis] at hv
    obtain ⟨x, os, hop, hos⟩ := h.filled b hb' v hv
    have howner := (hw.listed v b).1 (List.mem_append_left _ hv)
    refine ⟨x, os, ?_, hos.trans (hsame hb').preds.symm⟩
    rw [(k.instr v b howner (hw.owned_home b n hb')).1, hop]
  · rw [k.entry] at ha
    have hb' := (k.owned b).1 hb
    exact (h.tight a ha b hb').untouched hs k (hw.owned_home b n hb')

/-! ## Closing a body -/

/-- What closing a body leaves alone: what is declared, the flow of control, and code
in blocks that control gets to. Phis get operands, and the exit `e` is finished. -/
structure Settled (w z : View) (e : BlockId) : Prop where
  sort : z.sort = w.sort
  symbols : z.symbols = w.symbols
  tracked : z.tracked = w.tracked
  kind : z.kind = w.kind
  home : z.home = w.home
  entry : z.entry = w.entry
  preds : z.preds = w.preds
  succs : z.succs = w.succs
  idom : ∀ b, b ≠ e → z.idom b = w.idom b
  after : ∀ b, b ≠ e → z.after b = w.after b
  before : ∀ b, b ≠ e → z.before b = w.before b
  contents : ∀ b, w.Live b → b ≠ e → z.phis b = w.phis b ∧ z.body b = w.body b
  op : ∀ v o, w.op v = some o → o.isPhi = false → z.op v = some o
  phi : ∀ v x os, w.op v = some (.phi x os) → ∃ os', z.op v = some (.phi x os')

namespace Settled

variable {w z y : View} {e : BlockId}

theorem live (h : Settled w z e) {b : BlockId} : z.Live b ↔ w.Live b := by
  rw [Live, Live, IsEntry, IsEntry, h.kind, h.preds]

theorem refl (w : View) (e : BlockId) : Settled w w e :=
  ⟨rfl, rfl, rfl, rfl, rfl, rfl, rfl, rfl, fun _ _ => rfl, fun _ _ => rfl, fun _ _ => rfl,
    fun _ _ _ => ⟨rfl, rfl⟩, fun _ _ h _ => h, fun _ _ os h => ⟨os, h⟩⟩

theorem trans (h : Settled w z e) (k : Settled z y e) : Settled w y e where
  sort := k.sort.trans h.sort
  symbols := k.symbols.trans h.symbols
  tracked := k.tracked.trans h.tracked
  kind := k.kind.trans h.kind
  home := k.home.trans h.home
  entry := k.entry.trans h.entry
  preds := k.preds.trans h.preds
  succs := k.succs.trans h.succs
  idom b hb := (k.idom b hb).trans (h.idom b hb)
  after b hb := (k.after b hb).trans (h.after b hb)
  before b hb := (k.before b hb).trans (h.before b hb)
  contents b hl hb := by
    obtain ⟨hphis, hbody⟩ := h.contents b hl hb
    obtain ⟨kphis, kbody⟩ := k.contents b (h.live.2 hl) hb
    exact ⟨kphis.trans hphis, kbody.trans hbody⟩
  op v o ho hno := k.op v o (h.op v o ho hno) hno
  phi v x os hv := by
    obtain ⟨os', hz⟩ := h.phi v x os hv
    exact k.phi v x os' hz

/-- Steps that add to the exit. -/
theorem of_keeps (k : Keeps w z (· = e)) (hkind : z.kind = w.kind) (hhome : z.home = w.home)
    (hpreds : z.preds = w.preds) (hsuccs : z.succs = w.succs)
    (hidom : ∀ b, b ≠ e → z.idom b = w.idom b) (hafter : ∀ b, b ≠ e → z.after b = w.after b)
    (hbefore : ∀ b, b ≠ e → z.before b = w.before b)
    (hphis : ∀ b, b ≠ e → z.phis b = w.phis b) (hbody : ∀ b, b ≠ e → z.body b = w.body b) :
    Settled w z e :=
  ⟨k.sort, k.symbols, funext k.tracked, hkind, hhome, k.entry, hpreds, hsuccs, hidom, hafter, hbefore,
    fun b _ hb => ⟨hphis b hb, hbody b hb⟩, fun v o ho _ => k.op v o ho,
    fun v _ os ho => ⟨os, k.op v _ ho⟩⟩

theorem of_pruned {m : MethodId} {dead : List BlockId} (h : Pruned w z m dead)
    (hdead : ∀ b ∈ dead, ¬w.Live b) (e : BlockId) : Settled w z e := by
  refine ⟨?_, ?_, ?_, ?_, ?_, ?_, ?_, ?_, fun b _ => ?_, fun b _ => ?_, fun b _ => ?_,
    fun b hl _ => ?_, fun v o ho _ => ?_, fun v x os ho => ⟨os, ?_⟩⟩
  case refine_3 => rw [h.rest]; rfl
  case refine_12 => exact h.contents b fun hb => hdead b hb hl
  case refine_13 => rw [h.rest]; exact ho
  case refine_14 => rw [h.rest]; exact ho
  all_goals rw [h.rest]

theorem of_rephied {S : ValueId → Prop} (h : Rephied w z S) (e : BlockId) : Settled w z e := by
  have hop {v : ValueId} {o : Op} (ho : w.op v = some o) (hno : o.isPhi = false) :
      z.op v = some o := by
    rw [h.kept v, ho]
    intro hS
    obtain ⟨x, os, -, hw, -⟩ := h.phi v hS
    obtain rfl := Option.some.inj (ho.symm.trans hw)
    cases hno
  refine ⟨?_, ?_, ?_, ?_, ?_, ?_, ?_, ?_, fun b _ => ?_, fun b _ => ?_, fun b _ => ?_,
    fun b _ _ => ⟨?_, ?_⟩, fun v o ho hno => hop ho hno, fun v x os ho => ?_⟩
  case refine_3 => rw [h.rest]; rfl
  case refine_14 =>
    by_cases hS : S v
    · obtain ⟨y, os₁, os₂, hw, hz⟩ := h.phi v hS
      obtain ⟨rfl, rfl⟩ := Op.phi.inj (Option.some.inj (ho.symm.trans hw))
      exact ⟨os₂, hz⟩
    · exact ⟨os, (h.kept v hS).trans ho⟩
  all_goals rw [h.rest]

end Settled

/-- As long as the exit has no pointer, closing a body does not touch any. -/
theorem Strict.settled {w z : View} {m : MethodId} {e : BlockId} (h : w.Strict m)
    (k : Settled w z e) (hw : w.idom e = none) (hz : z.idom e = none) : z.Strict m := by
  have hidom (b : BlockId) : z.idom b = w.idom b := by
    by_cases hb : b = e
    · rw [hb, hw, hz]
    · exact k.idom b hb
  refine h.grow ⟨k.entry, fun b d hd => (hidom b).trans hd, fun b => ?_⟩ fun a b _ hhome hlive hne =>
    Or.inl ⟨k.home ▸ hhome, k.live.1 hlive, hidom b ▸ hne⟩
  rw [k.succs]
  exact List.Subset.refl _

end View

end StructuredSsa
