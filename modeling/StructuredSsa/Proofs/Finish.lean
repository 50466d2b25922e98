import StructuredSsa.Proofs.Outside

/-!
# Finishing a method

The last steps of a body: a value to return, a dominator for the exit, operands
for the phis, and the return. What comes out is `Closed`.
-/

namespace StructuredSsa

namespace View

/-! ## The last steps -/

/-- What `Closing` reads of a program. -/
theorem Closing.of_same {w z : View} {m : MethodId} {e : BlockId} (h : w.Closing m e)
    (hz : z.Sound) (hsort : z.sort = w.sort) (hexit : z.exit = w.exit) (hkind : z.kind = w.kind)
    (hhome : z.home = w.home) (hpreds : z.preds = w.preds) (hsuccs : z.succs = w.succs)
    (hafter : z.after = w.after) (hentry : z.entry = w.entry) (howned : z.owned = w.owned)
    (hbody : z.body = w.body) : z.Closing m e where
  toSound := hz
  method := by rw [hsort]; exact h.method
  exit := by rw [hexit]; exact h.exit
  kind := by rw [hkind]; exact h.kind
  home := by rw [hhome]; exact h.home
  preds := by rw [hpreds]; exact h.preds
  body := by rw [hbody]; exact h.body
  after := by rw [hafter]; exact h.after
  bypassed := by rw [hentry, hsuccs]; exact h.bypassed
  sealed := by rw [hhome, hafter]; exact h.sealed
  alive := by
    rw [howned]
    intro b hb
    rw [Live, IsEntry, hkind, hpreds]
    exact h.alive b hb

theorem Closing.rephied {w z : View} {m : MethodId} {e : BlockId} {S : ValueId → Prop}
    (h : w.Closing m e) (hz : z.Sound) (k : Rephied w z S) : z.Closing m e := by
  refine h.of_same hz ?_ ?_ ?_ ?_ ?_ ?_ ?_ ?_ ?_ ?_ <;> rw [k.rest]

/-- Variables of phis inside a body are bound wherever a block is left. -/
theorem Closing.bindable {w : View} {m : MethodId} {e b : BlockId} (h : w.Closing m e)
    (hb : b ∈ w.owned m) (hbe : b ≠ e) : w.Bindable b := by
  intro v hv x os hop q hq
  have hhome := h.wired.owned_home b m hb
  have hkind : w.kind b ≠ some .exit := fun hk =>
    hbe (Option.some.inj ((h.sole b m hk hhome).symm.trans h.exit))
  have htracked := h.scoping.phi_tracked v b m x os hv hop hhome hkind
  have hedge := (h.wired.edge q b).2 hq
  obtain ⟨st, hst⟩ := Option.ne_none_iff_exists'.1 (h.wired.edge_sealed q b hedge)
  have hhome' := (h.wired.edge_home q b hedge).symm.trans hhome
  obtain ⟨u, hu⟩ := h.scoping.after_bound q m st x hst hhome' htracked
  exact ⟨st, u, hst, hu⟩

end View

namespace Build

open View

variable {E : Error → Prop}

theorem resolveBlock_meets {s : Builder} {b : BlockId} (h : s.program.view.Sound)
    (hb : s.program.view.kind b ≠ none) (hbind : s.program.view.Bindable b) :
    Meets E (resolveBlock b) s fun _ t => t.cursor = s.cursor ∧ t.program.view.Sound
      ∧ Rephied s.program.view t.program.view (· ∈ s.program.view.phis b)
      ∧ ∀ v ∈ s.program.view.phis b, t.program.view.Filled b v := by
  obtain ⟨r, hr⟩ := Program.block_of_kind hb
  obtain ⟨-, -, hphis, -, hpreds, -⟩ := Program.view_of_block hr
  refine Meets.bind (P := fun a t => a = r ∧ t = s)
    (meets_look (Program.getBlock_ok hr) ⟨rfl, rfl⟩) ?_
  rintro _ s ⟨rfl, rfl⟩
  rw [← hphis, ← hpreds]
  refine resolvePhis_meets h ?_ (fun v hv => hv) hbind
  exact (h.wired.phis_sorted b).imp fun hlt heq => by simp [heq] at hlt

/-- All blocks of the method. -/
theorem resolveBlocks_meets {m : MethodId} {e : BlockId} :
    ∀ {bs : List BlockId} {s : Builder}, s.program.view.Closing m e → bs.Nodup →
      (∀ b ∈ bs, b ∈ s.program.view.owned m) → s.program.view.Bindable e →
      Meets E (bs.forM resolveBlock) s fun _ t => t.cursor = s.cursor
        ∧ t.program.view.Closing m e
        ∧ Rephied s.program.view t.program.view (fun v => ∃ b ∈ bs, v ∈ s.program.view.phis b)
        ∧ ∀ b ∈ bs, ∀ v ∈ t.program.view.phis b, t.program.view.Filled b v
  | [], s, h, _, _, _ => meets_pure ⟨rfl, h, by simpa using .refl _, by simp⟩
  | b :: bs, s, h, hnodup, hbs, he => by
      obtain ⟨hnot, hnodup⟩ := List.nodup_cons.1 hnodup
      have hb := hbs b (List.mem_cons_self ..)
      have hpresent := s.program.view_tables.present_of_home (h.wired.owned_home b m hb)
      have hbind : s.program.view.Bindable b := by
        by_cases hbe : b = e
        · exact hbe ▸ he
        · exact h.bindable hb hbe
      refine Meets.bind (resolveBlock_meets h.toSound hpresent hbind) ?_
      rintro _ t ⟨hc, ht, hre, hfilled⟩
      have hclosing := h.rephied ht hre
      have hphis : t.program.view.phis = s.program.view.phis := by rw [hre.rest]
      refine (resolveBlocks_meets hclosing hnodup (fun c hc => ?_) (hre.bindable he)).mono ?_
      · rw [hre.rest]
        exact hbs c (List.mem_cons_of_mem _ hc)
      · rintro _ u ⟨hc', hu, hre', hrest⟩
        rw [hphis] at hre'
        have hphis' : u.program.view.phis = s.program.view.phis := by rw [hre'.rest, hphis]
        refine ⟨hc'.trans hc, hu, ?_, fun c hc v hv => ?_⟩
        · simpa [List.mem_cons] using hre.trans hre'
        · rcases List.mem_cons.1 hc with rfl | hc
          · rw [hphis'] at hv
            obtain ⟨x, os, hop, hos⟩ := hfilled v hv
            refine ⟨x, os, ?_, ?_⟩
            · rw [hre'.kept v, hop]
              rintro ⟨d, hd, hvd⟩
              have h1 := (h.wired.listed v c).1 (List.mem_append_left _ hv)
              have h2 := (h.wired.listed v d).1 (List.mem_append_left _ hvd)
              exact hnot (Option.some.inj (h1.symm.trans h2) ▸ hd)
            · rw [hos, hre'.rest]
          · exact hrest c hc v hv

/-! ## The value a method returns -/

end Build

namespace View

/-- The value that a method is left with for the return name. -/
def returned (w : View) (q : BlockId) : Option ValueId :=
  (w.after q).bind (·.get? Bindings.returnName)

/-- A way to the exit is left without a value to return. -/
def Unreturned (w : View) (e : BlockId) : Prop := ∃ q ∈ w.preds e, w.returned q = none

/-- In `z` the value `v` stands for what the ways to the exit `e` are left with,
`vs`: it is the one they agree on, or a phi that tells them apart. -/
structure Returning (w z : View) (e : BlockId) (vs : List ValueId) (v : ValueId) : Prop where
  ways : (w.preds e).map w.returned = vs.map some
  value : (∀ u ∈ vs, u = v) ∧ z.phis e = []
    ∨ (¬∃ u, ∀ x ∈ vs, x = u) ∧ z.phis e = [v]
      ∧ z.op v = some (.phi Bindings.returnName ((w.preds e).zip vs))

end View

namespace Build

open View

/-- Where several look-ups all succeed, these are their results. -/
theorem of_mapM {α β γ : Type} {f : α → β} {g : β → Option γ} :
    ∀ {l : List α} {vs : List γ}, (l.map f).mapM g = some vs → l.map (fun a => g (f a)) = vs.map some
  | [], vs, h => by
      obtain rfl : [] = vs := by simpa using h
      rfl
  | a :: l, vs, h => by
      simp only [List.map_cons, List.mapM_cons, Option.bind_eq_bind, Option.bind_eq_some_iff,
        Option.pure_def, Option.some.injEq] at h
      obtain ⟨v, hv, ws, hws, rfl⟩ := h
      simp [hv, of_mapM hws]

/-- Where they do not, one of them fails. -/
theorem of_mapM_none {α β γ : Type} {f : α → β} {g : β → Option γ} :
    ∀ {l : List α}, (l.map f).mapM g = none → ∃ a ∈ l, g (f a) = none
  | [], h => by simp at h
  | a :: l, h => by
      cases ha : g (f a) with
      | none => exact ⟨a, List.mem_cons_self .., ha⟩
      | some v =>
          cases hl : (l.map f).mapM g with
          | some vs => simp [ha, hl] at h
          | none =>
              obtain ⟨b, hb, hnone⟩ := of_mapM_none hl
              exact ⟨b, List.mem_cons_of_mem _ hb, hnone⟩

theorem of_mem_zip {α γ : Type} {f : α → Option γ} : ∀ {l : List α} {vs : List γ},
    l.map f = vs.map some → ∀ a v, (a, v) ∈ l.zip vs → f a = some v
  | [], _, _, _, _, h => by simp at h
  | _ :: _, [], _, _, _, h => by simp at h
  | b :: l, u :: vs, heq, a, v, h => by
      obtain ⟨hb, heq⟩ := List.cons.inj heq
      rcases List.mem_cons.1 h with h | h
      · obtain ⟨rfl, rfl⟩ := Prod.mk.inj h
        exact hb
      · exact of_mem_zip heq a v h

/-- A value that the exit of a method may read, once its dominator is known. -/
def AtExit (w : View) (e : BlockId) (v : ValueId) : Prop :=
  w.HasValue v ∧ (w.owner v = some e ∨ ∀ q ∈ w.preds e, w.DefinedAbove v q)

end Build

namespace View

/-- From `w` to `z` the method got the value `v` to return. -/
structure Returnable (w z : View) (m : MethodId) (e : BlockId) (v : ValueId) : Prop where
  closing : z.Closing m e
  idom : z.idom = w.idom
  settled : Settled w z e
  outside : Outside w z m
  bindable : z.Bindable e
  atExit : Build.AtExit z e v
  returning : ∃ vs, Returning w z e vs v

section

variable {w : View} {m : MethodId} {e q : BlockId} {vs : List ValueId} {v : ValueId}

/-- Each way is left with its own value for the name. -/
theorem exists_returned (hways : (w.preds e).map w.returned = vs.map some) (hq : q ∈ w.preds e) :
    ∃ u ∈ vs, ∃ st, w.after q = some st ∧ st.get? Bindings.returnName = some u := by
  have hmem := List.mem_map_of_mem (f := w.returned) hq
  rw [hways] at hmem
  obtain ⟨u, hu, heq⟩ := List.mem_map.1 hmem
  exact ⟨u, hu, Option.bind_eq_some_iff.1 heq.symm⟩

/-- The ways to the exit agree on a value. -/
theorem Closing.agreed (h : w.Closing m e) (hphis : w.phis e = [])
    (hways : (w.preds e).map w.returned = vs.map some) (hsame : ∀ u ∈ vs, u = v) :
    Returnable w w m e v := by
  have hv {q : BlockId} (hq : q ∈ w.preds e) :
      ∃ st, w.after q = some st ∧ st.get? Bindings.returnName = some v := by
    obtain ⟨u, hu, hqu⟩ := exists_returned hways hq
    exact hsame u hu ▸ hqu
  refine ⟨h, rfl, .refl _ _, .refl _ _, ?_, ⟨?_, Or.inr fun q hq => ?_⟩, vs, hways,
    Or.inl ⟨hsame, hphis⟩⟩
  · intro u hu
    rw [hphis] at hu
    cases hu
  · obtain ⟨q, hq⟩ := List.exists_mem_of_ne_nil _ h.preds
    obtain ⟨st, hst, hx⟩ := hv hq
    exact h.wired.after_value q st _ v hst hx
  · obtain ⟨st, hst, hx⟩ := hv hq
    exact h.scoping.after_above q st _ v (h.way hq).1 hst (h.way_not_exit hq) hx

/-- What the phi that tells the ways apart reads. -/
theorem returned_of_mem_zip (hways : (w.preds e).map w.returned = vs.map some)
    (hqv : (q, v) ∈ (w.preds e).zip vs) :
    q ∈ w.preds e ∧ ∃ st, w.after q = some st ∧ st.get? Bindings.returnName = some v :=
  ⟨(List.of_mem_zip hqv).1, Option.bind_eq_some_iff.1 (Build.of_mem_zip hways q v hqv)⟩

/-- The ways to the exit do not agree, and a phi tells them apart. -/
theorem Closing.apart (h : w.Closing m e) (hphis : w.phis e = [])
    (hways : (w.preds e).map w.returned = vs.map some) (hsplit : ¬∃ u, ∀ x ∈ vs, x = u)
    (hvalues : ∀ u ∈ ((w.preds e).zip vs).map (·.2), w.HasValue u) (ht : w.Tables)
    (htz : (w.addPhi e Bindings.returnName ((w.preds e).zip vs)).Tables) :
    Returnable w (w.addPhi e Bindings.returnName ((w.preds e).zip vs)) m e ⟨w.values⟩ := by
  have k := keeps_addPhi ht e Bindings.returnName ((w.preds e).zip vs)
  have hsound := h.toSound.addPhi (x := Bindings.returnName) ht h.preds hvalues
    (fun n _ hk => absurd h.kind hk) fun q u hqu => returned_of_mem_zip hways hqu
  refine ⟨h.of_same hsound rfl rfl rfl rfl rfl rfl rfl rfl rfl rfl, rfl,
    .of_keeps k rfl rfl rfl rfl (fun _ _ => rfl) (fun _ _ => rfl) (fun _ _ => rfl)
      (fun _ hb => if_neg hb) fun _ _ => rfl, ?_, ?_, ⟨⟨_, if_pos rfl, rfl⟩, Or.inl (if_pos rfl)⟩,
    vs, hways, Or.inr ⟨hsplit, ?_, if_pos rfl⟩⟩
  · refine k.outside ht htz h.wired hsound.wired (fun b n hb hn => ?_) fun b hb hz => absurd hb hz
    rw [hb, h.home] at hn
    exact (Option.some.inj hn).symm
  · intro u hu x os hop q hq
    rcases phis_addPhi h.wired ht hu hop with ⟨-, rfl, -⟩ | ⟨hu, -⟩
    · obtain ⟨u, -, st, hst, hx⟩ := exists_returned hways hq
      exact ⟨st, u, hst, hx⟩
    · rw [hphis] at hu
      cases hu
  · show (if e = e then w.phis e ++ [_] else _) = _
    rw [if_pos rfl, hphis]
    rfl

end

end View

namespace Build

open View

/-- Either the ways to the exit agree on a value, or a phi tells them apart. It
fails only where one of them has none. -/
theorem returnValue_meets {E : Error → Prop} {s : Builder} {m : MethodId} {e : BlockId}
    (h : s.program.view.Closing m e) (hphis : s.program.view.phis e = []) (r : Method) (line : Nat)
    (hE : s.program.view.Unreturned e → E (.missingReturnValue r.name)) :
    Meets E (returnValue r e (s.program.view.preds e) ((s.program.view.preds e).map fun b =>
        (s.program.view.after b).getD .empty) line) s fun v t =>
      Returnable s.program.view t.program.view m e v := by
  have hget (q : BlockId) : ((s.program.view.after q).getD .empty).get? Bindings.returnName
      = s.program.view.returned q := by
    unfold View.returned
    cases s.program.view.after q <;> rfl
  unfold returnValue
  split
  · next hends =>
      obtain ⟨q, hq, hnone⟩ := of_mapM_none hends
      exact meets_fail (hE ⟨q, hq, (hget q).symm.trans hnone⟩)
  · next hends =>
      have hnil := of_mapM hends
      exact absurd (by simpa using hnil) h.preds
  · next v vs hends =>
      have hways := of_mapM hends
      simp only [hget] at hways
      split
      · next hsame => exact meets_pure (h.agreed hphis hways (by simpa using hsame))
      · next hsplit =>
        have hvalues : ∀ u ∈ ((s.program.view.preds e).zip (v :: vs)).map (·.2),
            s.program.view.HasValue u := by
          intro u hu
          obtain ⟨⟨q, u⟩, hqu, rfl⟩ := List.mem_map.1 hu
          obtain ⟨-, st, hst, hx⟩ := returned_of_mem_zip hways hqu
          exact h.wired.after_value q st _ u hst hx
        refine (addPhi_view Bindings.returnName _ line h.kind rfl hvalues).mono ?_
        rintro _ t ⟨rfl, -, hview⟩
        have htz : t.program.view.Tables := t.program.view_tables
        rw [hview] at htz ⊢
        refine h.apart hphis hways ?_ hvalues s.program.view_tables htz
        rintro ⟨u, hu⟩
        refine hsplit (List.all_eq_true.2 fun w hw => ?_)
        rw [hu w (List.mem_cons_of_mem _ hw), hu v (List.mem_cons_self ..)]
        exact beq_self_eq_true u

end Build

namespace View

/-! ## Closing -/

/-- The last jump of a body and the removal of dead blocks. -/
theorem InBody.closing {w z : View} {c : Cursor} {e : BlockId} {dead : List BlockId}
    (h : w.InBody c e) (ht : w.Tables)
    (hsealed : ∀ b, w.home b = some c.method → b ≠ e → b ≠ c.block → w.after b ≠ none)
    (hz : Pruned (w.depart c e) z c.method dead)
    (hdead : ∀ b, b ∈ dead → ¬(w.depart c e).Live b)
    (halive : ∀ b ∈ z.owned c.method, z.Live b) :
    z.Closing c.method e ∧ z.phis e = [] ∧ z.idom e = none := by
  have k := keeps_depart h.toOpen ht e
  have hx := h.waiting
  have hne : e ≠ c.block := (h.exit_apart e hx.exit).2
  have hentered := entered_depart h.toPlaced hne
  have hpreds : (w.depart c e).preds e ≠ [] := by
    rw [preds_depart h.toPlaced]
    rcases h.returns with hl | hp
    · simp [hl]
    · split <;> simp [hp]
  have hnot : e ∉ dead := fun hd => hdead e hd (Or.inr hpreds)
  obtain ⟨hphis, hbody⟩ := hz.contents e hnot
  obtain ⟨hnophis, hnobody⟩ := List.append_eq_nil_iff.1 hx.contents
  refine ⟨
    { toSound := hz.sound
      method := ?_
      exit := ?_
      kind := ?_
      home := ?_
      preds := ?_
      body := by rw [hbody, hentered.body, hnobody]
      after := ?_
      bypassed := fun b hb => ?_
      sealed := fun b hb hbe => ?_
      alive := halive }, by rw [hphis, hentered.phis, hnophis], ?_⟩
  · rw [hz.rest]
    exact k.sort ▸ h.has_method
  · rw [hz.rest]
    exact k.exits ▸ hx.exit
  · rw [hz.rest]
    exact k.kind _ _ hx.kind
  · rw [hz.rest]
    exact k.home _ _ hx.home
  · rw [hz.rest]
    exact hpreds
  · rw [hz.rest]
    exact hentered.after.trans hx.after
  · rw [hz.rest] at hb ⊢
    change (w.depart c e).entry c.method = some b at hb
    rw [k.entry] at hb
    obtain ⟨hpresent, hkind⟩ := h.wired.entry_kind hb
    show e ∉ (w.depart c e).succs b
    rw [(k.same b hpresent ?_).succs]
    · exact hx.bypassed b hb
    · rintro (rfl | ⟨-, rfl⟩)
      · exact h.inside hb
      · exact hkind hx.kind
  · rw [hz.rest] at hb ⊢
    change (w.depart c e).home b = some c.method at hb
    show (w.depart c e).after b ≠ none
    by_cases hbc : b = c.block
    · rw [hbc, after_depart]
      simp
    · exact k.after_of_ne (hsealed b (home_depart ▸ hb) hbe hbc)
  · rw [hz.rest]
    exact hentered.idom.trans hx.idom

/-- A method was finished: the exit has its return, and everything else is as
`Settled` says. -/
structure ExitDone (w z : View) (m : MethodId) (e : BlockId) (value : Option ValueId) : Prop where
  sound : z.Sound
  closed : z.Closed m e
  outside : Outside w z m
  settled : Settled w z e
  phis : z.phis e = w.phis e
  body : ∃ v, z.body e = [v] ∧ z.op v = some (.ret value)

/-- The exit is above no way to it, so that a pointer for it is on no chain from
there. -/
theorem Closing.above_of_begin {w : View} {m : MethodId} {a d e q x : BlockId} {st : Bindings}
    (h : w.Closing m e) (hidom : w.idom e = none) (ha : w.entry m = some a) (hq : q ∈ w.preds e)
    (hx : Above (w.begin e d st).idom x q) : Above w.idom x q := by
  obtain ⟨c, hc, hac⟩ := h.way_below ha hq
  have haq : Above w.idom a q := .up hc hac
  obtain ⟨hentry, -⟩ := h.wired.isEntry_entry a m ha
  obtain ⟨l, hl⟩ := Chain.exists_of_above (h.scoping.entry_idom a hentry) haq
  have hnot : e ∉ l := by
    rw [hl.mem_iff]
    intro heq
    cases h.entry_above ha haq heq with
    | refl => exact not_isEntry_of_kind h.kind nofun hentry
    | up hd _ =>
        rw [hidom] at hd
        cases hd
  have hl' : Chain (w.begin e d st).idom q l := by
    refine hl.congr fun c hc => if_neg ?_
    rintro rfl
    exact hnot hc
  exact hl.mem_iff.1 (hl'.mem_iff.2 hx)

/-- With the lowest block above all the ways to it for its dominator, the exit is
tight, and the other blocks are as tight as they were. -/
theorem Closing.tight {w : View} {m : MethodId} {a b d e : BlockId} (h : w.Closing m e)
    (hs : w.Strict m) (hidom : w.idom e = none) (hd : w.ExitAbove m e d) (st : Bindings)
    (ha : w.entry m = some a) (hb : b ∈ w.owned m) : (w.begin e d st).Tight a b := by
  have k := keeps_begin (w := w) d st hidom
  have hother {b : BlockId} (hl : w.Live b) (hhome : w.home b = some m) (hbe : b ≠ e) :
      (w.begin e d st).Tight a b := by
    have habove := h.scoping.rooted b m a (h.sealed b hhome hbe) hhome ha
    exact (hs.tight ha hhome hl habove).mono k.idom fun _ => List.Subset.refl _
  by_cases hbe : b = e
  · subst hbe
    refine .meet (w.preds b) (idom_begin w b d st) (fun x hx => ?_) fun q hq => ?_
    · exact (hd.lowest x fun q hq => h.above_of_begin hidom ha hq (hx q hq)).mono k.idom
    · obtain ⟨hl, hhome, -⟩ := h.way hq
      refine ⟨(h.wired.edge q b).2 hq, hother hl hhome ?_⟩
      rintro rfl
      exact h.way_not_exit hq h.kind
  · exact hother (h.alive b hb) (h.wired.owned_home b m hb) hbe

/-- The return, and the exit is sealed. -/
theorem Closing.finish {w : View} {m : MethodId} {e : BlockId} {value : Option ValueId}
    {st : Bindings} (h : w.Closing m e) (ht : w.Tables)
    (htz : ((w.emit e (.ret value)).setAfter e st).Tables)
    (hroot : ∀ a, w.entry m = some a → Above w.idom a e)
    (hvalue : ∀ v ∈ value, w.HasValue v ∧ w.DefinedAbove v e)
    (hst : ∀ x v, st.get? x = some v → w.HasValue v)
    (hbound : ∀ x ∈ w.tracked m, ∃ v, st.get? x = some v)
    (hfilled : ∀ b ∈ w.owned m, ∀ v ∈ w.phis b, w.Filled b v)
    (htight : ∀ a, w.entry m = some a → ∀ b ∈ w.owned m, w.Tight a b) :
    ExitDone w ((w.emit e (.ret value)).setAfter e st) m e value := by
  have hops : ∀ v ∈ (Op.ret value).operands, w.HasValue v ∧ w.DefinedAbove v e := by
    intro v hv
    exact hvalue v (by simpa [Op.operands] using hv)
  have k1 := keeps_emit ht e (.ret value)
  have k2 := keeps_setAfter (w := w.emit e (.ret value)) st h.after
  have hscoped : (w.emit e (.ret value)).Scoped :=
    h.scoping.emit h.wired ht fun _ v hv => (hops v hv).2
  have hwired : ((w.emit e (.ret value)).setAfter e st).Wired :=
    (h.wired.emit ht (fun n => h.wired.live_owned e n (Or.inr h.preds)) rfl fun v hv =>
      (hops v hv).1).setAfter fun x v hv => k1.hasValue (hst x v hv)
  refine ⟨⟨hwired, ?_, ?_, h.sole⟩, ?_, ?_, ?_, rfl, ⟨w.values⟩, ?_, if_pos rfl⟩
  · refine hscoped.setAfter h.after (fun n a hn ha => ?_) (fun _ hk => absurd h.kind hk)
      fun n x hn hx => ?_
    · obtain rfl := Option.some.inj (h.home.symm.trans hn)
      exact hroot a ha
    · obtain rfl := Option.some.inj (h.home.symm.trans hn)
      exact hbound x hx
  · refine h.ended.of_kept (b := e) (k1.trans k2).op (fun c hc hl hafter => ?_) fun _ _ => ?_
    · change (if c = e then some st else w.after c) ≠ none at hafter
      rw [if_neg hc] at hafter
      exact ⟨hl, hafter, if_neg hc, rfl⟩
    · refine ⟨[], ⟨w.values⟩, .ret value, ?_, if_pos rfl, rfl, by simp, ?_, by simp [Op.targets]⟩
      · show (w.emit e (.ret value)).body e = _
        rw [body_emit, h.body]
      · show ∀ s, s ∈ (Op.ret value).targets ↔ s ∈ w.succs e
        simp [Op.targets, h.wired.exit_succs e h.kind]
  · refine
      { exit := h.exit
        kind := h.kind
        owned := h.wired.live_owned e m (Or.inr h.preds) h.home
        alive := h.alive
        sealed := fun b hb => ?_
        filled := fun b hb v hv => ?_
        tight := htight }
    · show (if b = e then some st else w.after b) ≠ none
      split
      · simp
      · next hbe => exact h.sealed b (h.wired.owned_home b m hb) hbe
    · obtain ⟨x, os, hop, hos⟩ := hfilled b hb v hv
      exact ⟨x, os, k1.op v _ hop, hos⟩
  · refine (k1.trans k2).outside ht htz h.wired hwired (fun b n hb hn => ?_)
      fun b hb hz => absurd hb hz
    rw [hb.elim id id, h.home] at hn
    exact (Option.some.inj hn).symm
  · exact .of_keeps ((k1.trans k2).weaken fun _ _ hb => hb.elim id id) rfl rfl rfl rfl
      (fun _ _ => rfl) (fun _ hb => if_neg hb) (fun _ _ => rfl) (fun _ _ => rfl)
      fun _ hb => if_neg hb
  · show (w.emit e (.ret value)).body e = _
    rw [body_emit, h.body]
    rfl

/-- The exit has the block `d` for its dominator and the bindings `st`, and the phis of
the method have their operands. -/
structure Concluding (w : View) (m : MethodId) (d e : BlockId) (st : Bindings) (z : View) : Prop where
  closing : z.Closing m e
  rephied : Rephied (w.begin e d st) z fun v => ∃ b ∈ w.owned m, v ∈ w.phis b
  filled : ∀ b ∈ z.owned m, ∀ v ∈ z.phis b, z.Filled b v

section

variable {w z : View} {m : MethodId} {d e : BlockId} {st : Bindings}

theorem Closing.begin (h : w.Closing m e) (hidom : w.idom e = none) (hd : w.ExitAbove m e d) :
    (w.begin e d st).Closing m e := by
  have hentry : ¬w.IsEntry e := not_isEntry_of_kind h.kind nofun
  have hsound : (w.begin e d st).Sound :=
    (h.toSound.setIdom hidom hentry (hd.home.trans h.home.symm) hd.above).setBefore e st
  exact h.of_same hsound rfl rfl rfl rfl rfl rfl rfl rfl rfl rfl

section

variable (h : Concluding w m d e st z)
include h

theorem Concluding.hasValue (hidom : w.idom e = none) {v : ValueId} (hv : w.HasValue v) :
    z.HasValue v := by
  obtain ⟨o, ho, hhas⟩ := (keeps_begin d st hidom).hasValue hv
  by_cases hS : ∃ b ∈ w.owned m, v ∈ w.phis b
  · obtain ⟨x, os, os', -, hz⟩ := h.rephied.phi v hS
    exact ⟨_, hz, rfl⟩
  · exact ⟨o, (h.rephied.kept v hS).trans ho, hhas⟩

theorem Concluding.settled (hidom : w.idom e = none) : Settled w z e := by
  refine .trans (.of_keeps (keeps_begin d st hidom) rfl rfl rfl rfl ?_ ?_ ?_ ?_ ?_)
    (.of_rephied h.rephied e)
  · exact fun _ hb => if_neg hb
  · exact fun _ _ => rfl
  · exact fun _ hb => if_neg hb
  · exact fun _ _ => rfl
  · exact fun _ _ => rfl

theorem Concluding.outside (hw : w.Closing m e) (ht : w.Tables) (htb : (w.begin e d st).Tables)
    (hidom : w.idom e = none) (hd : w.ExitAbove m e d) : Outside w z m := by
  refine .trans ((keeps_begin d st hidom).outside ht htb hw.wired (hw.begin hidom hd).wired
    (fun b n hb hn => ?_) fun b hb hz => absurd hb hz) (h.rephied.outside ?_)
  · rw [hb, hw.home] at hn
    exact (Option.some.inj hn).symm
  · rintro v ⟨b, hb, hv⟩
    exact ⟨b, (hw.wired.listed v b).1 (List.mem_append_left _ hv), hw.wired.owned_home b m hb⟩

/-- The return can be added then. -/
theorem Concluding.finish (hw : w.Closing m e) (hs : w.Strict m) (hidom : w.idom e = none)
    (hd : w.ExitAbove m e d) {value : Option ValueId} (ht : z.Tables)
    (htz : ((z.emit e (.ret value)).setAfter e st).Tables)
    (hvalue : ∀ v ∈ value, Build.AtExit w e v) (hst : ∀ x v, st.get? x = some v → w.HasValue v)
    (hbound : ∀ x ∈ w.tracked m, ∃ v, st.get? x = some v) :
    ExitDone z ((z.emit e (.ret value)).setAfter e st) m e value := by
  have k := keeps_begin (w := w) d st hidom
  have hsettled := h.settled hidom
  have hz : z.idom = (w.begin e d st).idom := by rw [h.rephied.rest]
  have hup {a : BlockId} (ha : Above w.idom a d) : Above z.idom a e := by
    rw [hz]
    exact .up (idom_begin w e d st) (ha.mono k.idom)
  refine h.closing.finish ht htz (fun a ha => ?_) (fun v hv => ⟨?_, ?_⟩)
    (fun x v hv => h.hasValue hidom (hst x v hv)) (fun x hx => ?_) h.filled fun a ha b hb => ?_
  · rw [hsettled.entry] at ha
    obtain ⟨q, hq⟩ := List.exists_mem_of_ne_nil _ hw.preds
    obtain ⟨c, hc, hac⟩ := hw.way_below ha hq
    exact hup (hw.toSound.entry_above ha (.up hc hac) (hd.above q hq))
  · exact h.hasValue hidom (hvalue v hv).1
  · have howner : z.owner = w.owner := by
      rw [h.rephied.rest]
      rfl
    rcases (hvalue v hv).2 with hown | hall
    · exact ⟨e, by rw [howner, hown], .refl e⟩
    · obtain ⟨a, ha, haa⟩ := hd.shared hw.preds hall
      exact ⟨a, by rw [howner, ha], hup haa⟩
  · rw [hsettled.tracked] at hx
    exact hbound x hx
  · rw [hsettled.entry] at ha
    rw [h.rephied.rest] at hb
    refine (hw.tight hs hidom hd st ha hb).mono (fun c d hd => by rw [hz]; exact hd) fun c => ?_
    rw [hsettled.succs]
    exact List.Subset.refl _

end

end

end View

namespace Build

open View

/-- From the value a method returns to its end. -/
theorem finish_meets {E : Error → Prop} {s : Builder} {m : MethodId} {e : BlockId}
    (value : Option ValueId) {st : Bindings} (h : s.program.view.Closing m e)
    (hstrict : s.program.view.Strict m) (hidom : s.program.view.idom e = none)
    (hbind : s.program.view.Bindable e)
    (hvalue : ∀ v ∈ value, AtExit s.program.view e v)
    (hst : ∀ x v, st.get? x = some v → s.program.view.HasValue v)
    (hbound : ∀ x ∈ s.program.view.tracked m, ∃ v, st.get? x = some v) (line : Nat) :
    Meets E (do
        let dominator ← exitDominator m (s.program.view.preds e)
        beginBlock e dominator st
        ((← get).program.blocksOf m).forM resolveBlock
        let _ ← editWith fun p => p.emit e (.ret value) line
        edit fun p => p.sealBlock e st) s fun _ t =>
      ExitDone s.program.view t.program.view m e value
        ∧ t.program.view.before e = some st ∧ t.program.view.after e = some st := by
  refine Meets.bind (exitDominator_meets h hidom) ?_
  rintro d s ⟨rfl, habove⟩
  refine Meets.bind (beginBlock_meets d st (by simp [h.kind])) ?_
  rintro _ t1 ⟨-, hview1⟩
  have ht1 := t1.program.view_tables
  have hclosing1 : t1.program.view.Closing m e := hview1 ▸ h.begin hidom habove
  refine meets_get ?_
  have hbind1 : t1.program.view.Bindable e := hview1 ▸ hbind
  refine Meets.bind (resolveBlocks_meets hclosing1 (hclosing1.wired.owned_nodup m)
    (fun b hb => hb) hbind1) ?_
  rintro _ t ⟨-, hclosing, hre, hfilled⟩
  have hblocks : t1.program.blocksOf m = s.program.view.owned m :=
    congrFun (congrArg View.owned hview1) m
  have howned : t.program.view.owned m = t1.program.blocksOf m := by
    rw [hre.rest]
    rfl
  rw [hblocks, hview1] at hre
  rw [hview1] at ht1
  have hend : Concluding s.program.view m d e st t.program.view := ⟨hclosing, hre, howned ▸ hfilled⟩
  have hops : ∀ v ∈ (Op.ret value).operands, t.program.view.op v ≠ none := fun v hv =>
    (hend.hasValue hidom (hvalue v (by simpa [Op.operands] using hv)).1).exists_op
  obtain ⟨p, hp, hview⟩ := Program.emit_ok line (by simp [hclosing.kind]) hclosing.after hops
  refine Meets.bind (P := fun _ u => u = { t with program := p }) (meets_editWith hp rfl) ?_
  rintro _ _ rfl
  obtain ⟨q, hq, hview'⟩ := Program.sealBlock_ok (p := p) st
    (b := e) (by rw [hview]; exact hclosing.kind ▸ Option.some_ne_none _)
    (by rw [hview]; exact hclosing.after)
  refine meets_edit hq ?_
  have htz := q.view_tables
  rw [hview', hview] at htz
  have hdone := hend.finish h hstrict hidom habove t.program.view_tables htz hvalue hst hbound
  dsimp only
  rw [hview', hview]
  refine ⟨{ hdone with
    outside := (hend.outside h s.program.view_tables ht1 hidom habove).trans hdone.outside
    settled := (hend.settled hidom).trans hdone.settled
    phis := ?_ }, ?_, if_pos rfl⟩
  · rw [hdone.phis, hre.rest]
    rfl
  · show t.program.view.before e = some st
    rw [hre.rest]
    exact if_pos rfl

end Build

namespace View

/-- The value stands for the same when the phis have their operands. -/
theorem Returning.settle {w z y : View} {e : BlockId} {vs : List ValueId} {v : ValueId}
    (h : Returning w z e vs v) (k : Settled z y e) (hs : y.Sound) (hphis : y.phis e = z.phis e)
    (hfilled : ∀ u ∈ y.phis e, y.Filled e u) (hpreds : y.preds e = w.preds e)
    (hafter : ∀ q ∈ w.preds e, y.after q = w.after q) : Returning w y e vs v := by
  refine ⟨h.ways, h.value.imp (fun hone => ⟨hone.1, hphis.trans hone.2⟩) ?_⟩
  rintro ⟨hsplit, hphi, hop⟩
  refine ⟨hsplit, hphis.trans hphi, ?_⟩
  have hv : v ∈ y.phis e := by
    rw [hphis, hphi]
    exact List.mem_singleton.2 rfl
  obtain ⟨x, os, hy, hos⟩ := hfilled v hv
  obtain ⟨os', hy'⟩ := k.phi v _ _ hop
  obtain ⟨rfl, rfl⟩ := Op.phi.inj (Option.some.inj (hy.symm.trans hy'))
  rw [hpreds] at hos
  -- each operand is what its way is left with
  have hreturned : ∀ o ∈ os, some o.2 = w.returned o.1 := by
    rintro ⟨q, u⟩ hqu
    obtain ⟨hq, st, hst, hu⟩ := hs.scoping.phi_operand v e _ os q u hv hy hqu
    rw [hafter q (hpreds ▸ hq)] at hst
    show some u = (w.after q).bind _
    rw [hst, Option.bind_some, hu]
  have hvalues : (os.map (·.2)).map some = vs.map some := by
    rw [← h.ways, ← hos, List.map_map, List.map_map]
    exact List.map_congr_left hreturned
  have hvs : os.map (·.2) = vs := (List.map_injective_iff.2 fun _ _ => Option.some.inj) hvalues
  have hzip : (os.map (·.1)).zip (os.map (·.2)) = os := by
    rw [← List.unzip_fst, ← List.unzip_snd, List.zip_unzip]
  rw [hy, ← hos, ← hvs, hzip]

end View

namespace Build

open View

/-- The body at whose end the cursor `c` stood was closed. -/
structure Finished (w : View) (c : Cursor) (e : BlockId) (z : View) : Prop where
  sound : z.Sound
  closed : z.Closed c.method e
  outside : Outside w z c.method
  settled : Settled (w.depart c e) z e
  /-- Only a function has a value to return. -/
  plain : w.sort c.method ≠ some .function →
    z.phis e = [] ∧ ∃ v, z.body e = [v] ∧ z.op v = some (.ret none)
  returns : w.sort c.method = some .function → ∃ vs v, Returning (w.depart c e) z e vs v
    ∧ ∃ u, z.body e = [u] ∧ z.op u = some (.ret (some v))
  /-- The exit knows what one of the ways there does, and what is returned. -/
  states : ∃ q ∈ (w.depart c e).preds e, ∃ st st', (w.depart c e).after q = some st
    ∧ z.before e = some st' ∧ z.after e = some st'
    ∧ ∀ x v, st'.get? x = some v → st.get? x = some v ∨ x = Bindings.returnName

/-- The body at whose end the cursor `c` stood fell into its exit, and its dead blocks
are removed. -/
structure Fallen (w : View) (c : Cursor) (e : BlockId) (z : View) : Prop where
  closing : z.Closing c.method e
  phis : z.phis e = []
  idom : z.idom e = none
  strict : z.Strict c.method
  outside : Outside w z c.method
  settled : Settled (w.depart c e) z e

theorem fall_meets {E : Error → Prop} {s : Builder} {e : BlockId} (h : InBody s e) (hs : Strict s)
    (hsealed : ∀ b, s.program.view.home b = some s.cursor.method → b ≠ e →
      b ≠ s.cursor.block → s.program.view.after b ≠ none) (line : Nat) :
    Meets E (do
        let _ ← departTo e line
        editWith fun p => p.prune s.cursor.method) s fun _ t =>
      Fallen s.program.view s.cursor e t.program.view := by
  have ht := s.program.view_tables
  have hx := h.waiting
  refine Meets.bind (departTo_view h.toPlaced (hx.target h.toOpen) line) ?_
  rintro _ t ⟨-, -, hview⟩
  have hsound : t.program.view.Sound := hview ▸ Sound.depart h.toPlaced ht (hx.target h.toOpen)
  have k := keeps_depart h.toOpen ht e
  have hm : t.program.view.sort s.cursor.method ≠ none := by
    rw [hview, k.sort]
    exact h.has_method
  obtain ⟨n, p, dead, hprune, hpruned, hdead, halive⟩ := Program.prune_ok hsound hm
  have htz := t.program.view_tables
  rw [hview] at hpruned hdead hsound htz
  have hlost : ∀ b ∈ dead, ¬(s.program.view.depart s.cursor e).Live b := fun b hb => (hdead b hb).1
  obtain ⟨hclosing, hphis, hidom⟩ := h.closing ht hsealed hpruned hlost halive
  have hsettled := Settled.of_pruned hpruned hlost e
  refine meets_editWith hprune ⟨hclosing, hphis, hidom, ?_, ?_, hsettled⟩
  · have := hs.depart h.toPlaced ht (hx.target h.toOpen) fun _ hne => absurd hx.idom hne
    refine this.settled hsettled ?_ hidom
    exact (entered_depart h.toPlaced (h.exit_apart e hx.exit).2).idom.trans hx.idom
  · refine (k.outside ht htz h.wired hsound.wired (fun b n hb hn => ?_) fun b hb hz => ?_).trans
      (hpruned.outside fun b hb => (hdead b hb).2)
    · rcases hb with rfl | ⟨-, rfl⟩
      · exact Option.some.inj (hn.symm.trans h.home)
      · exact Option.some.inj (hn.symm.trans hx.home)
    · exact absurd hb (depart_kept.1 ▸ hz)

section

variable {w z y : View} {c : Cursor} {e : BlockId}

/-- The ways to the exit are left as they were. -/
theorem Fallen.way (h : Fallen w c e z) {q : BlockId} (hq : q ∈ z.preds e) :
    q ≠ e ∧ z.after q = (w.depart c e).after q := by
  have hne : q ≠ e := by
    rintro rfl
    exact h.closing.way_not_exit hq h.closing.kind
  exact ⟨hne, h.settled.after q hne⟩

theorem Fallen.returned (h : Fallen w c e z) {q : BlockId} (hq : q ∈ z.preds e) :
    z.returned q = (w.depart c e).returned q := by
  rw [View.returned, (h.way hq).2]
  rfl

theorem Fallen.unreturned (h : Fallen w c e z) (hz : z.Unreturned e) :
    (w.depart c e).Unreturned e := by
  obtain ⟨q, hq, hnone⟩ := hz
  exact ⟨q, h.settled.preds ▸ hq, (h.returned hq).symm.trans hnone⟩

theorem Fallen.returning (h : Fallen w c e z) {vs : List ValueId} {v : ValueId}
    (hv : Returning z y e vs v) : Returning (w.depart c e) y e vs v := by
  have hpreds : z.preds e = (w.depart c e).preds e := congrFun h.settled.preds e
  refine ⟨?_, hpreds ▸ hv.value⟩
  rw [← hv.ways, ← hpreds]
  exact List.map_congr_left fun q hq => (h.returned hq).symm

end

/-- Closing a body all of whose other blocks are sealed. It fails only for a
function that does not return a value on every way. -/
theorem closeBody_meets {E : Error → Prop} {s : Builder} {e : BlockId} (h : InBody s e)
    (hs : Strict s)
    (hsealed : ∀ b, s.program.view.home b = some s.cursor.method → b ≠ e →
      b ≠ s.cursor.block → s.program.view.after b ≠ none) (line : Nat)
    (hE : ∀ r, s.program.method? s.cursor.method = some r → r.kind = .function →
      (s.program.view.depart s.cursor e).Unreturned e → E (.missingReturnValue r.name)) :
    Meets E (closeBody line) s fun _ t =>
      Finished s.program.view s.cursor e t.program.view := by
  unfold closeBody
  refine meets_cursor (method_meets h.has_method fun r hr => ?_)
  have hexit : r.exit = some e := by
    rw [← (Program.view_of_method hr).2.2.1]
    exact h.waiting.exit
  rw [hexit]
  dsimp only
  rw [← bind_assoc]
  refine Meets.bind (fall_meets h hs hsealed line) fun _ t hfall => meets_get ?_
  have hclosing := hfall.closing
  have hsettled := hfall.settled
  -- The exit is left with what the first way there knows.
  obtain ⟨q, rest, hpreds⟩ := List.exists_cons_of_ne_nil hclosing.preds
  have hpreds' : t.program.preds e = q :: rest := hpreds
  have hq : q ∈ t.program.view.preds e := by simp [hpreds]
  obtain ⟨-, hhome, -, st, hst⟩ := hclosing.way hq
  have hst' : t.program.leaving? q = some st := hst
  have hway : q ∈ (s.program.view.depart s.cursor e).preds e
      ∧ (s.program.view.depart s.cursor e).after q = some st :=
    ⟨hsettled.preds ▸ hq, (hfall.way hq).2.symm.trans hst⟩
  rw [hpreds', List.map_cons, hst', Option.getD_some]
  dsimp only
  split
  · next hkind =>
    have hreturn := returnValue_meets (E := E) hclosing hfall.phis r line fun hun =>
      hE r hr hkind (hfall.unreturned hun)
    simp only [hpreds, List.map_cons, hst, Option.getD_some] at hreturn
    refine Meets.bind hreturn ?_
    rintro v u ⟨hclosing', hidom', hsettled', hout, hbind, hv, vs, hvs⟩
    rw [pure_bind]
    have hq' : q ∈ u.program.view.preds e := hsettled'.preds ▸ hq
    have hst'' : u.program.view.after q = some st :=
      (hsettled'.after q (hfall.way hq).1).trans hst
    have hstep : ∀ x y, (st.bind Bindings.returnName v).get? x = some y →
        u.program.view.HasValue y := by
      intro x y hy
      rw [Bindings.get?_bind] at hy
      split at hy
      · exact Option.some.inj hy ▸ hv.1
      · exact hclosing'.wired.after_value q st x y hst'' hy
    have hnames : ∀ x ∈ u.program.view.tracked s.cursor.method,
        ∃ y, (st.bind Bindings.returnName v).get? x = some y := by
      intro x hx
      rw [Bindings.get?_bind]
      split
      · exact ⟨v, rfl⟩
      · exact hclosing'.scoping.after_bound q _ st x hst'' (hclosing'.way hq').2.1 hx
    have hnone : u.program.view.idom e = none := by rw [hidom']; exact hfall.idom
    have hfinish := finish_meets (E := E) (some v) hclosing'
      (hfall.strict.settled hsettled' hfall.idom hnone) hnone hbind (by simpa using hv) hstep hnames
      line
    rw [hsettled'.preds, hpreds] at hfinish
    refine hfinish.mono fun _ t' ⟨hdone, hbefore, hafter⟩ => ?_
    have hall := (hsettled.trans hsettled').trans hdone.settled
    refine ⟨hdone.sound, hdone.closed, (hfall.outside.trans hout).trans hdone.outside, hall,
      fun hnot => absurd ?_ hnot, fun _ => ⟨vs, v, ?_, hdone.body⟩,
      q, hway.1, st, _, hway.2, hbefore, hafter, fun x y hy => ?_⟩
    · rw [(Program.view_of_method hr).1, hkind]
    · refine (hfall.returning hvs).settle hdone.settled hdone.sound hdone.phis
        (hdone.closed.filled e hdone.closed.owned) (congrFun hall.preds e) fun q hq => ?_
      exact hall.after q (hfall.way (hsettled.preds ▸ hq)).1
    · rw [Bindings.get?_bind] at hy
      split at hy
      · next hx => exact Or.inr hx
      · exact Or.inl hy
  · next hkind =>
    rw [pure_bind]
    have hbind : t.program.view.Bindable e := by
      intro u hu
      rw [hfall.phis] at hu
      cases hu
    have hfinish := finish_meets (E := E) none hclosing hfall.strict hfall.idom hbind (by simp)
      (fun x v hv => hclosing.wired.after_value q st x v hst hv)
      (fun x hx => hclosing.scoping.after_bound q _ st x hst hhome hx) line
    rw [hpreds] at hfinish
    refine hfinish.mono fun _ t' ⟨hdone, hbefore, hafter⟩ => ?_
    refine ⟨hdone.sound, hdone.closed, hfall.outside.trans hdone.outside,
      hsettled.trans hdone.settled, fun _ => ⟨hdone.phis.trans hfall.phis, hdone.body⟩,
      fun hfun => absurd ?_ hkind, q, hway.1, st, st, hway.2, hbefore, hafter,
      fun _ _ hu => Or.inl hu⟩
    rw [(Program.view_of_method hr).1] at hfun
    exact Option.some.inj hfun

end Build

end StructuredSsa
