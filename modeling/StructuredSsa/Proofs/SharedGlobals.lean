import StructuredSsa.Proofs.Locals
import StructuredSsa.Proofs.Spills

/-!
# Global variables between a computation and its methods

The body of the computation and the methods it calls share the global variables
through memory only. In the body each call has the writes of all globals right before
it and the reads right behind it, and there are no others. A method reads and writes
in memory just those globals that it does not declare itself, and never binds one.

The latter is about the states of blocks: only what is tracked is bound there
(`Confined`), and the value that a function returns.
-/

namespace StructuredSsa

namespace View

/-! ## Names that are bound -/

/-- Only what the method `m` tracks is bound, and the value that it returns. -/
def Tracks (w : View) (m : MethodId) (st : Bindings) : Prop :=
  ∀ x v, st.get? x = some v → x ∈ w.tracked m ∨ x = Bindings.returnName

/-- What is bound in a block. On entry to it nothing is, before it has a pointer. -/
structure ConfinedAt (w : View) (m : MethodId) (b : BlockId) : Prop where
  before : w.IsEntry b ∨ w.idom b ≠ none → ∀ st, w.before b = some st → w.Tracks m st
  after : ∀ st, w.after b = some st → w.Tracks m st

/-- What is bound in the blocks of a method that control gets to. -/
structure Confined (w : View) (m : MethodId) : Prop where
  distinct : (w.tracked m).Nodup
  bound : ∀ b, w.home b = some m → w.Live b → w.ConfinedAt m b

section Confined

variable {w z : View} {c : Cursor} {m : MethodId} {e b t : BlockId} {st : Bindings}

theorem Tracks.of_eq (h : w.Tracks m st) (htracked : z.tracked m = w.tracked m) : z.Tracks m st :=
  fun x v hv => htracked ▸ h x v hv

theorem Ready.knows (h : w.Ready c) (hlive : w.Live c.block) : w.Tracks c.method c.bindings :=
  fun x v hv => Or.inl (h.known (h.live.2 hlive) x v hv)

theorem ConfinedAt.of_same (h : w.ConfinedAt m b) (htracked : z.tracked m = w.tracked m)
    (hkind : z.kind b = w.kind b) (hidom : z.idom b = w.idom b)
    (hbefore : z.before b = w.before b) (hafter : z.after b = w.after b) : z.ConfinedAt m b where
  before hb st hst := by
    rw [IsEntry, hkind, hidom] at hb
    exact (h.before hb st (hbefore ▸ hst)).of_eq htracked
  after st hst := (h.after st (hafter ▸ hst)).of_eq htracked

theorem ConfinedAt.same (h : w.ConfinedAt m b) (htracked : z.tracked m = w.tracked m)
    (hsame : Same w z b) : z.ConfinedAt m b :=
  h.of_same htracked hsame.kind hsame.idom hsame.before hsame.after

/-- A block that waits to be entered. -/
theorem confinedAt_of_waiting (hentry : ¬w.IsEntry b) (hidom : w.idom b = none)
    (hafter : w.after b = none) : w.ConfinedAt m b where
  before hb := absurd (hb.resolve_left hentry) (not_not.2 hidom)
  after st hst := by
    rw [hafter] at hst
    cases hst

/-- A block that was entered with what is known. -/
theorem confinedAt_of_before (hbefore : w.before b = some st) (hst : w.Tracks m st)
    (hafter : w.after b = none) : w.ConfinedAt m b where
  before _ st' hst' := Option.some.inj (hbefore.symm.trans hst') ▸ hst
  after st' hst' := by
    rw [hafter] at hst'
    cases hst'

/-- The block at the cursor is sealed. -/
theorem ConfinedAt.seal (h : w.ConfinedAt m b) (htracked : z.tracked m = w.tracked m)
    (hkind : z.kind b = w.kind b) (hgrown : Grown w z b) (hafter : z.after b = some st)
    (hst : z.Tracks m st) : z.ConfinedAt m b where
  before hb st' hst' := by
    rw [IsEntry, hkind, hgrown.idom] at hb
    exact (h.before hb st' (hgrown.before ▸ hst')).of_eq htracked
  after st' hst' := Option.some.inj (hafter.symm.trans hst') ▸ hst

theorem Arrival.confinedAt (h : Arrival w c z b) (hb : w.InBody c e)
    (hdistinct : (w.tracked c.method).Nodup) (htracked : z.tracked c.method = w.tracked c.method)
    (hlive : z.Live b) : z.ConfinedAt c.method b := by
  have hknown (hreach : c.reachable = true) : z.Tracks c.method c.bindings := fun x v hv =>
    Or.inl (htracked ▸ hb.known hreach x v hv)
  cases h with
  | waiting kind after preds idom => exact absurd hlive (not_live_of_kind kind nofun preds)
  | dead kind after left preds idom => exact absurd hlive (not_live_of_kind kind nofun preds)
  | led left led =>
      refine confinedAt_of_before led.before (hknown ?_) led.after
      by_contra hnot
      exact hlive.resolve_left led.not_entry (led.preds.trans (if_neg hnot))
  | @head st kind after left preds idom before placement =>
      have hreach : c.reachable = true := by
        by_contra hnot
        exact not_live_of_kind kind nofun (preds.trans (if_neg hnot)) hlive
      refine confinedAt_of_before before (fun x v hv => ?_) after
      by_cases hx : x ∈ w.tracked c.method
      · exact Or.inl (htracked ▸ hx)
      · -- a name without a phi is bound as it was
        rw [((placement hreach hdistinct).kept x fun hx' => absurd hx' hx).2] at hv
        exact hknown hreach x v hv

theorem Confined.depart (h : w.Confined c.method) (hb : w.InBody c e) (ht : w.Tables)
    (hne : t ≠ c.block)
    (htarget : (w.depart c t).Live t → (w.depart c t).ConfinedAt c.method t) :
    (w.depart c t).Confined c.method := by
  have k := keeps_depart hb.toOpen ht t
  have htracked := k.tracked c.method
  refine ⟨htracked ▸ h.distinct, fun b hhome hlive => ?_⟩
  rw [home_depart] at hhome
  rcases k.or_same (ht.present_of_home hhome) with (rfl | ⟨-, rfl⟩) | hsame
  · have hgrown := grown_depart (w := w) (c := c) hne
    have hlive' := (hgrown.live k hb.present).1 hlive
    exact (h.bound _ hhome hlive').seal htracked (by rw [depart_kept.1]) hgrown after_depart
      ((hb.knows hlive').of_eq htracked)
  · exact htarget hlive
  · exact (h.bound b hhome (hsame.live.1 hlive)).same htracked hsame

theorem framed_confined (e : BlockId) : Framed e Confined where
  turned := by
    intro w z c hb ht htz _ k h
    have htracked := k.tracked c.method
    refine ⟨htracked ▸ h.distinct, fun b hhome hlive => ?_⟩
    by_cases hold : w.kind b = none
    · exact (k.arrivals b hold (htz.present_of_home hhome)).confinedAt hb h.distinct htracked hlive
    have hkind : z.kind b = w.kind b := by
      obtain ⟨kind, hkind⟩ := Option.ne_none_iff_exists'.1 hold
      rw [hkind, k.kind b kind hkind]
    rcases k.or_same hold with (rfl | hbe) | hsame
    · have hlive' := (k.start.live k.toKeeps hold).1 hlive
      obtain ⟨st, hafter, hst⟩ := k.sealed
      refine (h.bound _ hb.home hlive').seal htracked hkind k.start hafter fun x v hv => ?_
      rcases hst x v hv with hv | hx
      · exact (hb.knows hlive').of_eq htracked x v hv
      · exact Or.inr hx
    · obtain rfl := Option.some.inj (hb.waiting.exit.symm.trans hbe)
      have hentered := k.exit _ hbe
      exact confinedAt_of_waiting (not_isEntry_of_kind (hkind.trans hb.waiting.kind) nofun)
        (hentered.idom.trans hb.waiting.idom) (hentered.after.trans hb.waiting.after)
    · exact (h.bound b (hsame.home ▸ hhome) (hsame.live.1 hlive)).same htracked hsame
  passed := by
    intro w c j hb ht hj hkind hafter hidom h
    have hentered := entered_depart hb.toPlaced hj.apart
    have hkind' : (w.depart c j).kind j = some (.join false) := by rw [depart_kept.1, hkind]
    exact h.depart hb ht hj.apart fun _ => confinedAt_of_waiting (not_isEntry_of_kind hkind' nofun)
      (hentered.idom.trans hidom) (hentered.after.trans hafter)
  met := by
    intro w z m join branch left right d _ htz k _ hm h
    have htracked := hm.keeps.tracked m
    refine ⟨htracked ▸ h.distinct, fun b hhome hlive => ?_⟩
    rcases hm.keeps.or_same (hm.kinds ▸ htz.present_of_home hhome) with rfl | hsame
    · obtain ⟨rfl, hblock⟩ := And.intro hm.method hm.block
      have hknown := hm.ready.knows (hblock ▸ hlive)
      have hopened := hm.ready.opened
      rw [hblock] at hopened
      exact confinedAt_of_before hm.before hknown hopened
    · exact (h.bound b (hsame.home ▸ hhome) (hsame.live.1 hlive)).same htracked hsame
  back := by
    intro w c head q reach hb ht hj hkind hafter hidom hpreds hreach habove h
    have k := keeps_depart hb.toOpen ht head
    have hentered := entered_depart hb.toPlaced hj.apart
    refine h.depart hb ht hj.apart fun hlive => ?_
    have hold := live_of_back hb.toPlaced hkind hpreds hreach hlive
    exact (h.bound head hj.home hold).of_same (k.tracked c.method) (by rw [depart_kept.1])
      hentered.idom hentered.before hentered.after

/-! ## The ends of a body -/

theorem AtEntry.confined {s t : Builder} (h : s.program.view.AtEntry s.cursor)
    (ho : Build.BodyOpen s t e) : t.program.view.Confined t.cursor.method := by
  have ht := s.program.view_tables
  have hstart := ho.atStart h
  have htracked : t.program.view.tracked s.cursor.method
      = s.program.view.tracked s.cursor.method := by
    rw [ho.view]
    exact (h.started ht).keeps.tracked _
  have hknown : t.program.view.Tracks s.cursor.method s.cursor.bindings := fun x v hv =>
    Or.inl (htracked ▸ h.known h.reachable x v hv)
  have hne : s.cursor.block ≠ ⟨s.program.view.blocks⟩ := fun he => h.present (he ▸ ht.fresh_kind)
  have hbefore : t.program.view.before s.cursor.block = some .empty := by
    rw [ho.view]
    show (if s.cursor.block = ⟨s.program.view.blocks⟩ then _ else _) = _
    rw [if_neg hne]
    exact (grown_depart hne.symm).before.trans h.before
  rw [ho.method]
  refine ⟨htracked ▸ h.distinct, fun b hb _ => ?_⟩
  rcases hstart.blocks b hb with rfl | rfl | rfl
  · refine ⟨fun _ st hst x v hv => ?_, fun st hst => ?_⟩
    · rw [← Option.some.inj (hbefore.symm.trans hst)] at hv
      cases hv
    · rw [← Option.some.inj (hstart.sealed.symm.trans hst)]
      exact hknown
  · exact confinedAt_of_before hstart.led.before hknown hstart.led.after
  · exact confinedAt_of_waiting (not_isEntry_of_kind hstart.waiting.kind nofun) hstart.waiting.idom
      hstart.waiting.after

theorem Confined.extends {s t : Builder} (h : s.program.view.Confined s.cursor.method)
    (k : Build.Extends s t) : t.program.view.Confined t.cursor.method := by
  have htracked := k.keeps.tracked s.cursor.method
  rw [k.advance.method]
  refine ⟨htracked ▸ h.distinct, fun b hhome hlive => ?_⟩
  have hold : s.program.view.kind b ≠ none := k.kinds ▸ t.program.view_tables.present_of_home hhome
  rcases k.keeps.or_same hold with rfl | hsame
  · have hgrown := k.advance.start
    have hopened := k.ready.opened
    rw [k.block] at hopened
    exact (h.bound _ k.start.home ((hgrown.live k.keeps hold).1 hlive)).of_same htracked
      (congrFun k.kinds _) hgrown.idom hgrown.before (hopened.trans k.start.opened.symm)
  · exact (h.bound b (hsame.home ▸ hhome) (hsame.live.1 hlive)).same htracked hsame

/-- The exit knows what one of the ways there does. -/
theorem Confined.finished (h : w.Confined c.method) (hf : Build.Finished w c e z)
    (hb : w.InBody c e) (ht : w.Tables) (hhome : z.home b = some c.method) (hlive : z.Live b)
    (hbegun : z.IsEntry b ∨ z.idom b ≠ none) (hst : z.before b = some st ∨ z.after b = some st) :
    z.Tracks c.method st := by
  have htarget := hb.waiting.target hb.toOpen
  have hdepart : (w.depart c e).Sound := .depart hb.toPlaced ht htarget
  have hentered := entered_depart hb.toPlaced htarget.apart
  have hsettled := hf.settled
  have htracked : z.tracked c.method = (w.depart c e).tracked c.method := by rw [hsettled.tracked]
  have hkind : (w.depart c e).kind e = some .exit := by
    rw [depart_kept.1]
    exact hb.waiting.kind
  have hleft : (w.depart c e).Confined c.method := by
    exact h.depart hb ht htarget.apart fun _ => confinedAt_of_waiting
      (not_isEntry_of_kind hkind nofun) (hentered.idom.trans hb.waiting.idom)
      (hentered.after.trans hb.waiting.after)
  rw [hsettled.home] at hhome
  by_cases hbe : b = e
  · subst hbe
    obtain ⟨q, hq, known, st', hafter, hbefore', hafter', hnames⟩ := hf.states
    obtain rfl : st' = st := hst.elim (fun hst => Option.some.inj (hbefore'.symm.trans hst))
      fun hst => Option.some.inj (hafter'.symm.trans hst)
    have hedge := (hdepart.wired.edge q b).2 hq
    have hway := hleft.bound q ((hdepart.wired.edge_home q b hedge).symm.trans hhome)
      (hdepart.wired.edge_live q b hedge)
    intro x v hv
    rcases hnames x v hv with hv | hx
    · exact (hway.after known hafter).of_eq htracked x v hv
    · exact Or.inr hx
  · have hat := hleft.bound b hhome (hsettled.live.1 hlive)
    rw [IsEntry, hsettled.kind, hsettled.idom b hbe] at hbegun
    rw [hsettled.before b hbe, hsettled.after b hbe] at hst
    exact (hst.elim (hat.before hbegun st) (hat.after st)).of_eq htracked

end Confined

/-! ## Calls and what is around them -/

end View

/-- The variable in memory that an instruction reads or writes. -/
def Op.global? : Op → Option String
  | .loadGlobal x | .storeGlobal x _ => some x
  | _ => none

theorem mem_right_of_forall₂ {α β : Type} {R : α → β → Prop} {xs : List α} {ys : List β}
    (h : List.Forall₂ R xs ys) {y : β} (hy : y ∈ ys) : ∃ x, R x y := by
  induction h with
  | nil => cases hy
  | cons hxy _ ih =>
      rcases List.mem_cons.1 hy with rfl | hy
      · exact ⟨_, hxy⟩
      · exact ih hy

theorem append_eq_append_cons {α : Type} {xs ys front behind : List α} {a : α}
    (h : xs ++ ys = front ++ a :: behind) :
    (∃ mid, xs = front ++ a :: mid ∧ behind = mid ++ ys)
      ∨ ∃ mid, front = xs ++ mid ∧ ys = mid ++ a :: behind := by
  rcases List.append_eq_append_iff.1 h with ⟨mid, hfront, hys⟩ | ⟨mid, hxs, hmid⟩
  · exact Or.inr ⟨mid, hfront, hys⟩
  · cases mid with
    | nil => exact Or.inr ⟨[], by simpa using hxs.symm, by simpa using hmid.symm⟩
    | cons a' mid =>
        obtain ⟨rfl, hbehind⟩ := List.cons.inj hmid
        exact Or.inl ⟨mid, hxs, hbehind⟩

namespace View

open Build (CallSite)

/-- In the block `b` every call is one that `K` knows, with all globals written right
before it and read right behind it, and nothing else reads or writes memory. -/
structure CallsSpill (w : View) (K : CallSite → Prop) (b : BlockId) : Prop where
  calls : ∀ front v behind callee args, w.body b = front ++ v :: behind →
    w.op v = some (.call callee args) → ∃ κ before stores loads rest, K κ
      ∧ front = before ++ stores ∧ behind = loads ++ rest ∧ w.Surrounds κ b before stores v loads
  only : ∀ u ∈ w.body b, ∀ o x, w.op u = some o → o.global? = some x →
    ∃ κ before stores v loads rest, K κ ∧ w.body b = before ++ (stores ++ v :: loads) ++ rest
      ∧ w.Surrounds κ b before stores v loads ∧ (u ∈ stores ∨ u ∈ loads)

section Laden

variable {w : View} {K : CallSite → Prop} {m : MethodId} {b : BlockId} {l : List ValueId}

theorem Permits.inMemory {o : Op} {x : String} (h : w.Permits m o) (hx : o.global? = some x) :
    w.InMemory m x := by
  cases o with
  | loadGlobal y | storeGlobal y =>
      obtain rfl := Option.some.inj hx
      exact h
  | _ => cases hx

theorem Laden.calls (h : w.Laden K m b l) (hmain : w.sort m = some .main) :
    ∀ {front behind : List ValueId} {v : ValueId} {callee : String} {args : List ValueId},
      l = front ++ v :: behind → w.op v = some (.call callee args) →
      ∃ κ before stores loads rest, K κ ∧ front = before ++ stores ∧ behind = loads ++ rest
        ∧ w.Surrounds κ b before stores v loads := by
  induction h with
  | nil => simp
  | @single l u o _ op permits ih =>
      intro front behind v callee args hl hv
      rcases append_eq_append_cons hl with ⟨mid, hmid, rfl⟩ | ⟨mid, -, hu⟩
      · obtain ⟨κ, before, stores, loads, rest, hκ, hfront, rfl, haround⟩ := ih hmid hv
        exact ⟨κ, before, stores, loads, rest ++ [u], hκ, hfront, by simp, haround⟩
      · have hvu : v ∈ [u] := by simp [hu]
        obtain rfl := List.mem_singleton.1 hvu
        obtain rfl := Option.some.inj (op.symm.trans hv)
        exact absurd hmain permits
  | @call l stores loads u κ _ main known around ih =>
      intro front behind v callee args hl hv
      rcases append_eq_append_cons hl with ⟨mid, hmid, rfl⟩ | ⟨mid, rfl, hgroup⟩
      · obtain ⟨κ', before, stores', loads', rest, hκ, hfront, rfl, haround⟩ := ih hmid hv
        exact ⟨κ', before, stores', loads', rest ++ (stores ++ u :: loads), hκ, hfront, by simp,
          haround⟩
      -- of what stands around a call only one instruction is one
      rcases append_eq_append_cons hgroup with ⟨mid', rfl, -⟩ | ⟨mid', rfl, hrest⟩
      · obtain ⟨x, held, -, hstore⟩ := mem_right_of_forall₂ around.written (y := v) (by simp)
        rw [hv] at hstore
        cases hstore
      · cases mid' with
        | nil =>
            obtain ⟨rfl, rfl⟩ := List.cons.inj hrest
            exact ⟨κ, l, stores, loads, [], known, by simp, by simp, around⟩
        | cons a mid' =>
            obtain ⟨rfl, rfl⟩ := List.cons.inj hrest
            obtain ⟨x, hload⟩ := mem_right_of_forall₂ around.read (y := v) (by simp)
            rw [hv] at hload
            cases hload

theorem Laden.only (h : w.Laden K m b l) (hmain : w.sort m = some .main) {u : ValueId} {o : Op}
    {x : String} (hu : u ∈ l) (hop : w.op u = some o) (hx : o.global? = some x) :
    ∃ κ before stores v loads rest, K κ ∧ l = before ++ (stores ++ v :: loads) ++ rest
      ∧ w.Surrounds κ b before stores v loads ∧ (u ∈ stores ∨ u ∈ loads) := by
  induction h with
  | nil => cases hu
  | @single l v o' _ op permits ih =>
      rcases List.mem_append.1 hu with hu | hu
      · obtain ⟨κ, before, stores, v', loads, rest, hκ, rfl, haround, hmem⟩ := ih hu
        exact ⟨κ, before, stores, v', loads, rest ++ [v], hκ, by simp, haround, hmem⟩
      · rw [List.mem_singleton.1 hu, op] at hop
        obtain rfl := Option.some.inj hop
        exact absurd hmain (permits.inMemory hx).not_main
  | @call l stores loads v κ _ main known around ih =>
      rcases List.mem_append.1 hu with hu | hu
      · obtain ⟨κ', before, stores', v', loads', rest, hκ, rfl, haround, hmem⟩ := ih hu
        exact ⟨κ', before, stores', v', loads', rest ++ (stores ++ v :: loads), hκ, by simp, haround,
          hmem⟩
      · refine ⟨κ, l, stores, v, loads, [], known, by simp, around, ?_⟩
        rcases List.mem_append.1 hu with hu | hu
        · exact Or.inl hu
        rcases List.mem_cons.1 hu with rfl | hu
        · rw [around.call] at hop
          obtain rfl := Option.some.inj hop
          cases hx
        · exact Or.inr hu

theorem Laden.inMemory (h : w.Laden K m b l) (hmain : w.sort m ≠ some .main) {u : ValueId} {o : Op}
    {x : String} (hu : u ∈ l) (hop : w.op u = some o) (hx : o.global? = some x) :
    w.InMemory m x := by
  induction h with
  | nil => cases hu
  | single _ op permits ih =>
      rcases List.mem_append.1 hu with hu | hu
      · exact ih hu
      · rw [List.mem_singleton.1 hu, op] at hop
        obtain rfl := Option.some.inj hop
        exact permits.inMemory hx
  | call _ main => exact absurd main hmain

end Laden

end View

namespace Build

open View

/-- What is bound in the blocks of a method that is built. -/
theorem IsMade.known {z : View} {m : MethodId} (h : IsMade z m) (hz : z.Sound) {a b : BlockId}
    {st : Bindings} (ha : z.entry m = some a) (hb : b ∈ z.owned m)
    (hst : z.before b = some st ∨ z.after b = some st) : z.Tracks m st := by
  obtain ⟨x, hclosed⟩ := h.closed
  have hbegun : z.IsEntry b ∨ z.idom b ≠ none := by
    cases hz.scoping.rooted b m a (hclosed.sealed b hb) (hz.wired.owned_home b m hb) ha with
    | refl => exact Or.inl (hz.wired.isEntry_entry _ _ ha).1
    | up hd _ => exact Or.inr (by simp [hd])
  obtain ⟨body, s, t, u, r, e, hentry, rfl, hbody, huntouched⟩ := h
  have hend := hbody.laid.held (K := fun _ => True) (framed_confined e)
    (fun _ k _ hI => hI.extends k) (fun _ _ => trivial) (hentry.confined hbody.opened)
  have howned := (huntouched.owned b).1 hb
  have hhome := hbody.finished.sound.wired.owned_home _ _ howned
  have hsame := huntouched.block b hhome
  rw [IsEntry, hsame.kind, hsame.idom] at hbegun
  rw [hsame.before, hsame.after] at hst
  have hknown := hend.finished hbody.finished hbody.ran.finish u.program.view_tables
    (hbody.method ▸ hhome) (hbody.closed.alive b howned) hbegun hst
  rw [hbody.method] at hknown
  exact hknown.of_eq huntouched.tracked

/-- The calls that building the body of a computation comes to, from diagnostics `ds`. -/
def mainMakes (t : Syntax.Computation) (ds : List Diagnostic) (κ : CallSite) : Prop :=
  After (beginMain t) (.init ds) fun _ s => sequenceMakes true t.body.statements s κ

/-- No global is called what the value of a function is called. -/
theorem IsMain.no_return {source : String} {tokens : List Token} {scanner : Scanner} {z : View}
    {m : MethodId} (hscan : (Scanner.ofText source).scan = (.ok tokens, scanner))
    (h : IsMain (Syntax.read tokens) scanner.diagnostics z m) :
    Bindings.returnName ∉ z.globals.scalars := by
  obtain ⟨o, hrun, hglobals⟩ := h.declared
  have hnames := (openMain_globals (Syntax.read tokens)).of_ok rfl hrun
  intro hmem
  rw [hglobals, Scope.scalars] at hmem
  obtain ⟨d, hd, hname⟩ := List.mem_map.1 hmem
  exact no_global_return hscan (hname ▸ hnames d (List.mem_of_mem_filter hd))

end Build

/-- A block of a method that has its own variables: what it reads and writes in memory
are globals that the method does not declare, and none of these is bound there. -/
structure Program.InMemoryOnly (p : Program) (m : Method) (r : Block) : Prop where
  memory : ∀ v ∈ r.body, ∀ i x, p.instr? v = some i → i.op.global? = some x →
    x ∈ p.globals.scalars ∧ m.symbols.find? x = none
  unbound : ∀ x ∈ p.globals.scalars, m.symbols.find? x = none → ∀ st,
    r.before = some st ∨ r.after = some st → st.get? x = none

/-- Whatever the source text, the body of the computation and its methods share the
globals through memory only, which holds what the body has bound to them whenever it
calls a method. -/
theorem build_sharedGlobals {source : String} {tokens : List Token} {scanner : Scanner}
    {built : Built} (hscan : (Scanner.ofText source).scan = (.ok tokens, scanner))
    (h : build source = .ok built) {id : MethodId} {m : Method}
    (hm : built.program.method? id = some m) {b : BlockId} (hb : b ∈ m.blocks) :
    ∃ r, built.program.block? b = some r
      ∧ (m.kind = .main → built.program.view.CallsSpill
        (Build.mainMakes (Syntax.read tokens) scanner.diagnostics) b)
      ∧ (m.kind ≠ .main → built.program.InMemoryOnly m r) := by
  obtain ⟨tokens', scanner', built', hscan', hbuilt, hsame⟩ := exists_tokens_of_build h
  obtain ⟨rfl, rfl⟩ : tokens = tokens' ∧ scanner = scanner' := by simpa using hscan.symm.trans hscan'
  obtain ⟨hs, hmade, n, hmain⟩ := buildTokens_made hbuilt
  rw [hsame] at hs hmade hmain
  obtain ⟨hsort, hentry, -, howned, hsymbols⟩ := Program.view_of_method hm
  rw [← howned] at hb
  have hhome := hs.wired.owned_home _ _ hb
  obtain ⟨r, hr⟩ : ∃ r, built.program.block? b = some r := by
    exact Program.block_of_kind (built.program.view_tables.present_of_home hhome)
  obtain ⟨-, -, -, hbody, -, -, hbefore, hafter, -⟩ := Program.view_of_block hr
  refine ⟨r, hr, fun hkind => ?_, fun hkind => ?_⟩
  · rw [hkind] at hsort
    obtain rfl := hmain.sole id hsort
    obtain ⟨s, t, u, r', e, hbegun, hmade'⟩ := hmain.made
    have hladen := hmade'.laden (K := Build.mainMakes (Syntax.read tokens) scanner.diagnostics)
      (fun κ hκ => ⟨_, _, hbegun, hκ⟩) hb
    exact ⟨fun front v behind callee args => hladen.calls hsort, fun u hu o x => hladen.only hsort hu⟩
  · have hnot : built.program.view.sort id ≠ some .main := by
      rw [hsort]
      simpa using hkind
    have hid := hmade id (by simp [hsort])
    refine ⟨fun v hv i x hi hx => ?_, fun x hx hlocal st hst => ?_⟩
    · obtain ⟨body, s, t, u, r', e, hmade'⟩ := hid
      have hladen := hmade'.laden (K := fun _ => True) (fun _ _ => trivial) hb
      have hop : built.program.view.op v = some i.op := by
        show (built.program.instr? v).map _ = _
        rw [hi]
        rfl
      obtain ⟨-, hglobal, hnone⟩ := hladen.inMemory hnot (hbody ▸ hv) hop hx
      exact ⟨hglobal, hsymbols ▸ hnone⟩
    · cases hget : st.get? x with
      | none => rfl
      | some v =>
          rw [← hbefore, ← hafter] at hst
          rcases hid.known hs hentry hb hst x v hget with htracked | hreturn
          · rw [View.tracked, View.scopeOf_of_ne hnot, hsymbols] at htracked
            exact absurd htracked (Scope.not_mem_scalars (by simp [Scope.contains, hlocal]))
          · exact absurd (hreturn ▸ hx) (hmain.no_return hscan)

/-- A function with a global and with a variable that hides one, called twice. -/
def sharing : String :=
  "main var g, h; function f(a); var h; { let g <- a + h; return g }; "
    ++ "{ let g <- 1; let h <- call f(call f(g)) }."

theorem sharing_sharedGlobals : ∃ tokens scanner built m f,
    (Scanner.ofText sharing).scan = (.ok tokens, scanner) ∧ build sharing = .ok built
      ∧ built.program.method? ⟨0⟩ = some m ∧ m.kind = .main
      ∧ built.program.method? ⟨1⟩ = some f ∧ f.kind = .function
      ∧ (m.blocks ++ f.blocks).map (fun b => (built.program.view.body b).filterMap fun v =>
          (built.program.instr? v).bind (·.op.global?))
        = [[], ["g", "h", "g", "h", "g", "h", "g", "h"], [], [], ["g", "g"], []]
      ∧ (∀ b ∈ m.blocks, built.program.view.CallsSpill
        (Build.mainMakes (Syntax.read tokens) scanner.diagnostics) b)
      ∧ ∀ b ∈ f.blocks, ∃ r, built.program.block? b = some r ∧ built.program.InMemoryOnly f r := by
  have hrun : ((build sharing).toOption.bind fun built => (built.program.method? ⟨0⟩).bind fun m =>
      (built.program.method? ⟨1⟩).map fun f => (m.kind, f.kind, (m.blocks ++ f.blocks).map fun b =>
        (built.program.view.body b).filterMap fun v => (built.program.instr? v).bind (·.op.global?)))
      = some (.main, .function,
        [[], ["g", "h", "g", "h", "g", "h", "g", "h"], [], [], ["g", "g"], []]) := by
    decide +kernel
  cases h : build sharing with
  | error e => rw [h] at hrun; cases hrun
  | ok built =>
      rw [h] at hrun
      obtain ⟨_, ⟨⟩, hrun⟩ := Option.bind_eq_some_iff.1 hrun
      obtain ⟨m, hm, hrun⟩ := Option.bind_eq_some_iff.1 hrun
      obtain ⟨f, hf, hfacts⟩ := Option.map_eq_some_iff.1 hrun
      obtain ⟨hmain, hfacts⟩ := Prod.mk.inj hfacts
      obtain ⟨hfunction, htouched⟩ := Prod.mk.inj hfacts
      obtain ⟨tokens, scanner, -, hscan, -⟩ := exists_tokens_of_build h
      refine ⟨tokens, scanner, built, m, f, hscan, rfl, hm, hmain, hf, hfunction, htouched,
        fun b hb => ?_, fun b hb => ?_⟩
      · obtain ⟨r, -, hspills, -⟩ := build_sharedGlobals hscan h hm hb
        exact hspills hmain
      · obtain ⟨r, hr, -, hmemory⟩ := build_sharedGlobals hscan h hf hb
        exact ⟨r, hr, hmemory (by simp [hfunction])⟩

end StructuredSsa
