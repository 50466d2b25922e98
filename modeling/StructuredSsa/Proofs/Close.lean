import StructuredSsa.Proofs.Chain
import StructuredSsa.Proofs.Stmts

/-!
# Closing a body

When the last statement is built, the method falls into its exit. Blocks that
control cannot get to are removed, the exit gets its dominator, and every phi
its operands. What comes out is a method that is `Closed`: its blocks are all
sealed and can be reached, and its phis read along every edge.
-/

namespace StructuredSsa

/-- From a block on a walk, the walk ends or goes on along an edge. -/
theorem Walk.from_mem {succs : BlockId → List BlockId} {start a b : BlockId} {l : List BlockId}
    (h : Walk succs start b l) (ha : a ∈ l) : a = b ∨ ∃ c ∈ succs a, Reaches succs c b := by
  induction h with
  | here => exact Or.inl (List.mem_singleton.1 ha)
  | step hw hs ih =>
      rcases List.mem_cons.1 ha with rfl | ha
      · exact Or.inl rfl
      · rcases ih ha with rfl | ⟨d, hd, hreach⟩
        · exact Or.inr ⟨_, hs, .refl _ _⟩
        · exact Or.inr ⟨d, hd, hreach.step hs⟩

namespace View

variable {w : View} {m : MethodId} {b : BlockId} {v : ValueId}

/-! ## What control can get to -/

theorem Wired.live_of_reaches (h : w.Wired) {e : BlockId} (he : w.entry m = some e)
    (hb : Reaches w.succs e b) : w.Live b ∧ w.home b = some m := by
  obtain ⟨l, hl⟩ := hb
  induction hl with
  | here =>
      obtain ⟨hentry, hhome⟩ := h.isEntry_entry e m he
      exact ⟨Or.inl hentry, hhome⟩
  | step _ hs ih =>
      exact ⟨Or.inr (List.ne_nil_of_mem ((h.edge _ _).1 hs)), (h.edge_home _ _ hs).trans ih.2⟩

section

variable (h : w.Sound)
include h

/-- The pointers are above the edges, in the form that walks need. -/
theorem Sound.mem_walk {e a : BlockId} (he : w.entry m = some e) {l : List BlockId}
    (hl : Walk w.succs e b l) (ha : Above w.idom a b) : a ∈ l :=
  mem_of_above (fun q b d hb hd => h.scoping.idom_above b d q hd ((h.wired.edge q b).1 hb))
    (h.scoping.entry_idom e (h.wired.isEntry_entry e m he).1) hl ha

/-- Of the blocks above another, the entry is the highest. -/
theorem Sound.entry_above {a d : BlockId} (ha : w.entry m = some a) (hab : Above w.idom a b)
    (hdb : Above w.idom d b) : Above w.idom a d := by
  rcases hab.total hdb with had | hda
  · exact had
  · cases hda with
    | refl => exact .refl _
    | up hd _ =>
        rw [h.scoping.entry_idom a (h.wired.isEntry_entry a m ha).1] at hd
        cases hd

/-- What stands above a block that control can get to is such a block of the
same method: every walk to the one visits the other. -/
theorem Sound.live_above {e a : BlockId} (he : w.entry m = some e) (hl : w.Live b)
    (hb : w.home b = some m) (ha : Above w.idom a b) : w.Live a ∧ w.home a = some m := by
  obtain ⟨l, hwalk⟩ := h.wired.live_reached b m e hl hb he
  exact h.wired.live_of_reaches he (hwalk.reaches_of_mem (h.mem_walk he hwalk ha))

/-- A block that control cannot get to defines nothing for one it can get to. -/
theorem Sound.owner_ne (ht : w.Tables) {c : BlockId} (hb : ¬w.Live b) (hc : w.Live c)
    (hv : w.DefinedAbove v c) : w.owner v ≠ some b := by
  obtain ⟨d, hd, habove⟩ := hv
  intro hvb
  obtain rfl := Option.some.inj (hd.symm.trans hvb)
  obtain ⟨m, hm⟩ := Option.ne_none_iff_exists'.1 fun hnone =>
    ht.present_of_live hc (ht.home_none.1 hnone)
  obtain ⟨e, he⟩ := Option.ne_none_iff_exists'.1 fun hnone =>
    h.wired.home_sort c m hm (ht.entry_none.1 hnone)
  exact hb (h.live_above he hc hm habove).1

/-- The source of an edge is not an exit, so what it binds is defined above it. -/
theorem Sound.phi_operand_above {u : ValueId} {q : BlockId} {x : String}
    {os : List (BlockId × ValueId)} (hu : u ∈ w.phis b) (hop : w.op u = some (.phi x os))
    (hq : (q, v) ∈ os) : w.Live q ∧ w.DefinedAbove v q := by
  obtain ⟨hpred, st, hst, hx⟩ := h.scoping.phi_operand u b x os q v hu hop hq
  have hedge := (h.wired.edge q b).2 hpred
  have hlive := h.wired.edge_live q b hedge
  refine ⟨hlive, h.scoping.after_above q st x v hlive hst ?_ hx⟩
  intro hexit
  rw [h.wired.exit_succs q hexit] at hedge
  cases hedge

/-- What instructions read where control gets to is defined where it gets to. -/
theorem Sound.operand_defined {u : ValueId} (hu : w.owner u = some b) (hb : w.Live b)
    (hv : v ∈ w.operands u) : ∃ c, w.Live c ∧ w.DefinedAbove v c := by
  have hmem := (h.wired.listed u b).2 hu
  obtain ⟨op, hop⟩ := Option.ne_none_iff_exists'.1 (h.wired.op_of_contents hmem)
  have hv' : v ∈ op.operands := by simpa [operands, hop] using hv
  rcases List.mem_append.1 hmem with hphi | hbody
  · obtain ⟨x, os, hphi'⟩ := h.wired.phi_of_phis u b hphi
    obtain rfl := Option.some.inj (hop.symm.trans hphi')
    obtain ⟨⟨q, v⟩, hos, rfl⟩ := List.mem_map.1 hv'
    exact ⟨q, h.phi_operand_above hphi hop hos⟩
  · obtain ⟨o, ho, hno⟩ := h.wired.not_phi_of_body u b hbody
    obtain rfl := Option.some.inj (hop.symm.trans ho)
    exact ⟨b, hb, h.scoping.operand_above u b v op hu hb hop hno hv'⟩

theorem Sound.operand_ne (ht : w.Tables) {c : BlockId} {u : ValueId} (hb : ¬w.Live b)
    (hu : w.owner u = some c) (hc : w.Live c) (hv : v ∈ w.operands u) : w.owner v ≠ some b := by
  obtain ⟨d, hd, hdef⟩ := h.operand_defined hu hc hv
  exact h.owner_ne ht hb hd hdef

end

/-! ## Removing blocks -/

theorem Sound.drop (h : w.Sound) (ht : w.Tables) (hb : ¬w.Live b) :
    (w.drop b).Sound where
  wired := h.wired.drop hb fun u c v hu hl hv => by
    rw [h.wired.listed]
    exact h.operand_ne ht hb hu hl hv
  scoping := h.scoping.drop h.wired fun v c hl hv => h.owner_ne ht hb hl hv
  ended c hl hc := by
    have hcb : c ≠ b := by
      rintro rfl
      exact hb hl
    exact (h.ended c hl hc).mono (fun _ _ _ h => h) (if_neg hcb) rfl
  sole := h.sole

/-- What the removal of dead blocks of a method leaves. -/
structure Pruned (w z : View) (m : MethodId) (dead : List BlockId) : Prop where
  sound : z.Sound
  rest : z = { w with
    owner := z.owner, user := z.user, phis := z.phis, body := z.body, owned := z.owned }
  contents : ∀ b, b ∉ dead → z.phis b = w.phis b ∧ z.body b = w.body b
  owner : ∀ v b, w.owner v = some b → b ∉ dead → z.owner v = some b
  owned : ∀ n, z.owned n = if n = m then (w.owned n).filter (· ∉ dead) else w.owned n

theorem Pruned.refl (h : w.Sound) (m : MethodId) : Pruned w w m [] where
  sound := h
  rest := rfl
  contents _ _ := ⟨rfl, rfl⟩
  owner _ _ h _ := h
  owned n := by simp

theorem Pruned.live {z : View} {dead : List BlockId} (h : Pruned w z m dead) :
    z.Live b ↔ w.Live b := by
  rw [h.rest]
  rfl

theorem Pruned.drop {z : View} {dead : List BlockId} (h : Pruned w z m dead) (ht : z.Tables)
    (hb : ¬w.Live b) (hhome : w.home b = some m) : Pruned w (z.drop b) m (b :: dead) := by
  have hhome' : z.home b = some m := by
    rw [h.rest]
    exact hhome
  have hrest (owner : ValueId → Option BlockId) (user : ValueId → ValueId → Prop)
      (phis body : BlockId → List ValueId) (owned : MethodId → List BlockId) :
      { z with owner := owner, user := user, phis := phis, body := body, owned := owned }
        = { w with owner := owner, user := user, phis := phis, body := body, owned := owned } := by
    rw [h.rest]
  refine
    { sound := h.sound.drop ht (h.live.not.2 hb)
      rest := hrest ..
      contents := fun c hc => ?_
      owner := fun v c hv hc => ?_
      owned := fun n => ?_ }
  · obtain ⟨hcb, hc⟩ := not_or.1 (mt List.mem_cons.2 hc)
    obtain ⟨h1, h2⟩ := h.contents c hc
    exact ⟨(if_neg hcb).trans h1, (if_neg hcb).trans h2⟩
  · obtain ⟨hcb, hc⟩ := not_or.1 (mt List.mem_cons.2 hc)
    have hvc := h.owner v c hv hc
    show (if v ∈ z.contents b then none else z.owner v) = some c
    rw [if_neg, hvc]
    rw [h.sound.wired.listed, hvc]
    exact fun heq => hcb (Option.some.inj heq)
  · show (if z.home b = some n then (z.owned n).filter (· ≠ b) else z.owned n) = _
    rw [hhome', h.owned]
    by_cases hn : n = m
    · subst hn
      simp [List.filter_filter]
    · simp [hn, Ne.symm hn]

end View

namespace Program

open View

/-- Removing dead blocks of a method one after the other. -/
theorem view_dropBlocks {m : MethodId} {w : View} (hw : w.Sound) (hm : w.sort m ≠ none) :
    ∀ (bs : List BlockId) {dead : List BlockId} {p : Program}, Pruned w p.view m dead →
      (∀ b ∈ bs, ¬w.Live b ∧ w.home b = some m) →
      ∃ dead', (∀ b, b ∈ dead' ↔ b ∈ dead ∨ b ∈ bs) ∧ Pruned w (bs.foldl dropBlock p).view m dead'
  | [], dead, p, h, _ => ⟨dead, by simp, h⟩
  | b :: bs, dead, p, h, hbs => by
      obtain ⟨hb, hhome⟩ := hbs b (List.mem_cons_self ..)
      have hsuccs : w.succs b = [] := List.eq_nil_iff_forall_not_mem.2 fun c hc =>
        hb (hw.wired.edge_live b c hc)
      have hpreds : w.preds b = [] := Classical.not_not.1 fun hne => hb (Or.inr hne)
      have hview : (p.dropBlock b).view = p.view.drop b := by
        refine view_dropBlock (m := m) ?_ ?_ ?_ ?_ <;> rw [h.rest] <;> assumption
      have hdrop : Pruned w (p.dropBlock b).view m (b :: dead) :=
        hview ▸ h.drop p.view_tables hb hhome
      obtain ⟨dead', hdead', hz⟩ := view_dropBlocks hw hm bs hdrop fun c hc =>
        hbs c (List.mem_cons_of_mem _ hc)
      refine ⟨dead', fun c => ?_, hz⟩
      rw [hdead', List.mem_cons, List.mem_cons]
      tauto

/-- The blocks that pruning removes are those that control cannot get to. -/
theorem mem_unreachable {p : Program} {m : MethodId} (h : p.view.Sound) {r : Method}
    (hr : p.method? m = some r) {b : BlockId} :
    b ∈ p.unreachable r ↔ b ∈ p.view.owned m ∧ ¬p.view.Live b := by
  obtain ⟨-, hentry, -, howned, -⟩ := view_of_method hr
  have hlive (hb : b ∈ r.blocks) : b ∈ p.reachableFrom r.entry ↔ p.view.Live b := by
    rw [mem_reachableFrom]
    refine ⟨fun hreach => (h.wired.live_of_reaches hentry hreach).1, fun hl => ?_⟩
    exact h.wired.live_reached b m _ hl (h.wired.owned_home b m (howned ▸ hb)) hentry
  rw [unreachable, List.mem_filter, howned]
  constructor
  · rintro ⟨hb, hnot⟩
    exact ⟨hb, fun hl => (of_decide_eq_true hnot) ((hlive hb).2 hl)⟩
  · rintro ⟨hb, hnot⟩
    exact ⟨hb, decide_eq_true fun hin => hnot ((hlive hb).1 hin)⟩

/-- Pruning removes the blocks that control cannot get to. -/
theorem prune_ok {p : Program} {m : MethodId} (h : p.view.Sound) (hm : p.view.sort m ≠ none) :
    ∃ n p' dead, p.prune m = .ok (n, p') ∧ Pruned p.view p'.view m dead
      ∧ (∀ b, b ∈ dead → ¬p.view.Live b ∧ p.view.home b = some m)
      ∧ ∀ b ∈ p'.view.owned m, p'.view.Live b := by
  obtain ⟨r, hr⟩ := method_of_sort hm
  have hmem {b : BlockId} := mem_unreachable (b := b) h hr
  obtain ⟨dead, hdead, hpruned⟩ := view_dropBlocks h hm (p.unreachable r) (.refl h m)
    fun b hb => ⟨(hmem.1 hb).2, h.wired.owned_home b m (hmem.1 hb).1⟩
  refine ⟨_, _, dead, by simp [prune, getMethod_ok hr, bind, Except.bind, pure, Except.pure]; rfl,
    hpruned, fun b hb => ?_, fun b hb => ?_⟩
  · have := hmem.1 ((hdead b).1 hb |>.resolve_left (List.not_mem_nil))
    exact ⟨this.2, h.wired.owned_home b m this.1⟩
  · rw [hpruned.owned, if_pos rfl, List.mem_filter] at hb
    refine hpruned.live.2 (Classical.not_not.1 fun hnot => ?_)
    exact (of_decide_eq_true hb.2) ((hdead b).2 (Or.inr (hmem.2 ⟨hb.1, hnot⟩)))

end Program

namespace View

/-! ## The exit -/

/-- A method whose body is built, with dead blocks removed: only its exit `e`
is not sealed yet. -/
structure Closing (w : View) (m : MethodId) (e : BlockId) : Prop extends Sound w where
  method : w.sort m ≠ none
  exit : w.exit m = some e
  kind : w.kind e = some .exit
  home : w.home e = some m
  preds : w.preds e ≠ []
  body : w.body e = []
  after : w.after e = none
  bypassed : ∀ b, w.entry m = some b → e ∉ w.succs b
  sealed : ∀ b, w.home b = some m → b ≠ e → w.after b ≠ none
  alive : ∀ b ∈ w.owned m, w.Live b

namespace Closing

variable {w : View} {m : MethodId} {e q : BlockId}

section

variable (h : w.Closing m e)
include h

theorem exists_entry (ht : w.Tables) : ∃ b, w.entry m = some b :=
  Option.ne_none_iff_exists'.1 fun hnone => h.method (ht.entry_none.1 hnone)

/-- A block that leads to the exit. -/
theorem way (hq : q ∈ w.preds e) :
    w.Live q ∧ w.home q = some m ∧ w.succs q = [e] ∧ ∃ st, w.after q = some st := by
  have hedge := (h.wired.edge q e).2 hq
  exact ⟨h.wired.edge_live q e hedge, (h.wired.edge_home q e hedge).symm.trans h.home,
    h.wired.exit_only q e hedge h.kind,
    Option.ne_none_iff_exists'.1 (h.wired.edge_sealed q e hedge)⟩

theorem way_not_exit (hq : q ∈ w.preds e) : w.kind q ≠ some .exit := by
  intro hk
  have := (h.way hq).2.2.1
  rw [h.wired.exit_succs q hk] at this
  cases this

/-- Nothing follows the exit. -/
theorem eq_of_reaches {b : BlockId} (hb : Reaches w.succs e b) : b = e := by
  obtain ⟨l, hl⟩ := hb
  induction hl with
  | here => rfl
  | step _ hs ih =>
      rw [ih, h.wired.exit_succs e h.kind] at hs
      cases hs

/-- Of two ways to the exit, none is above the other. -/
theorem not_above (ht : w.Tables) {r : BlockId} (hq : q ∈ w.preds e) (hr : r ∈ w.preds e)
    (hqr : q ≠ r) : ¬Above w.idom q r := by
  intro habove
  obtain ⟨b, hb⟩ := h.exists_entry ht
  obtain ⟨hl, hhome, hsuccs, -⟩ := h.way hr
  obtain ⟨l, hwalk⟩ := h.wired.live_reached r m b hl hhome hb
  rcases hwalk.from_mem (h.mem_walk hb hwalk habove) with heq | ⟨c, hc, hreach⟩
  · exact hqr heq
  · rw [(h.way hq).2.2.1, List.mem_singleton] at hc
    subst hc
    rw [h.eq_of_reaches hreach, h.wired.exit_succs c h.kind] at hsuccs
    cases hsuccs

/-- The ways to the exit start below the entry. -/
theorem way_below {b : BlockId} (hb : w.entry m = some b) (hq : q ∈ w.preds e) :
    ∃ d, w.idom q = some d ∧ Above w.idom b d := by
  obtain ⟨-, hhome, hsuccs, st, hst⟩ := h.way hq
  cases h.scoping.rooted q m b (by simp [hst]) hhome hb with
  | refl => exact absurd (by simp [hsuccs]) (h.bypassed q hb)
  | up hd habove => exact ⟨_, hd, habove⟩

theorem hung (ht : w.Tables) (hidom : w.idom e = none) : w.Hung m := by
  intro b hb
  have hhome := h.wired.owned_home b m hb
  refine ⟨hhome, ?_⟩
  obtain ⟨a, ha⟩ := h.exists_entry ht
  have hnone := h.scoping.entry_idom a (h.wired.isEntry_entry a m ha).1
  obtain ⟨l, hl⟩ : ∃ l, Chain w.idom b l := by
    by_cases hbe : b = e
    · exact ⟨[b], .root (hbe ▸ hidom)⟩
    · exact Chain.exists_of_above hnone (h.scoping.rooted b m a (h.sealed b hhome hbe) hhome ha)
  refine ⟨l, hl, fun c hc => ?_⟩
  obtain ⟨hlive, hhome'⟩ := h.live_above ha (h.alive b hb) hhome (hl.mem_iff.1 hc)
  exact h.wired.live_owned c m hlive hhome'

end

end Closing

/-- A dominator for the exit: of the blocks that are above all the ways there it
is the lowest. -/
structure ExitAbove (w : View) (m : MethodId) (e d : BlockId) : Prop where
  home : w.home d = some m
  above : ∀ q ∈ w.preds e, Above w.idom d q
  lowest : ∀ a, (∀ q ∈ w.preds e, Above w.idom a q) → Above w.idom a d

/-- What all the ways have at hand is at hand there. -/
theorem ExitAbove.shared {w : View} {m : MethodId} {e d : BlockId} (h : w.ExitAbove m e d)
    (hpreds : w.preds e ≠ []) {v : ValueId} (hv : ∀ q ∈ w.preds e, w.DefinedAbove v q) :
    w.DefinedAbove v d := by
  obtain ⟨q, hq⟩ := List.exists_mem_of_ne_nil _ hpreds
  obtain ⟨a, ha, -⟩ := hv q hq
  refine ⟨a, ha, h.lowest a fun r hr => ?_⟩
  obtain ⟨b, hb, habove⟩ := hv r hr
  exact Option.some.inj (hb.symm.trans ha) ▸ habove

end View

namespace Build

open View

variable {E : Error → Prop} {s : Builder} {m : MethodId} {e : BlockId}

theorem exitDominator_meets (h : s.program.view.Closing m e) (hidom : s.program.view.idom e = none) :
    Meets E (exitDominator m (s.program.view.preds e)) s fun d t =>
      t = s ∧ s.program.view.ExitAbove m e d := by
  have ht := s.program.view_tables
  obtain ⟨b, hb⟩ := h.exists_entry ht
  have howned {q : BlockId} (hq : q ∈ s.program.view.preds e) : q ∈ s.program.view.owned m :=
    h.wired.live_owned q m (h.way hq).1 (h.way hq).2.1
  have hentry {q : BlockId} (hq : q ∈ s.program.view.preds e) :
      Above s.program.view.idom b q := by
    obtain ⟨d, hd, habove⟩ := h.way_below hb hq
    exact .up hd habove
  unfold exitDominator
  match hpreds : s.program.view.preds e with
  | [] => exact absurd hpreds h.preds
  | [only] =>
      refine meets_pure ⟨rfl, (h.way (by simp [hpreds])).2.1, ?_, fun a ha => ?_⟩
      · rw [hpreds]
        simpa using .refl _
      · exact ha only (by simp [hpreds])
  | first :: second :: rest =>
      have hfirst : first ∈ s.program.view.preds e := by simp [hpreds]
      have hsecond : second ∈ s.program.view.preds e := by simp [hpreds]
      obtain ⟨c, hc, habove⟩ := h.way_below hb hfirst
      obtain ⟨d, hd, hall, hlow⟩ := Program.nearestDominator_ok (h.hung ht hidom) h.method
        (fun q hq => howned (hpreds ▸ hq)) hc habove fun q hq => hentry (hpreds ▸ hq)
      dsimp only
      refine meets_get ?_
      rw [hd]
      refine meets_pure ⟨rfl, ?_, fun q hq => hall q (hpreds ▸ hq), fun a ha => ?_⟩
      · exact (h.live_above hb (h.way hfirst).1 (h.way hfirst).2.1 (hall first (by simp))).2
      · refine hlow a ?_ fun q hq => ha q (hpreds ▸ hq)
        -- the search starts above the first way, which is not above the second
        cases ha first hfirst with
        | refl =>
            have hne : first ≠ second := by
              have := h.wired.preds_nodup e
              rw [hpreds] at this
              rintro rfl
              simp at this
            exact absurd (ha second hsecond) (h.not_above ht hfirst hsecond hne)
        | up hd' had =>
            obtain rfl := Option.some.inj (hc.symm.trans hd')
            exact had

end Build

end StructuredSsa
