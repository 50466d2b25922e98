import StructuredSsa.Proofs.Exprs
import StructuredSsa.Proofs.Flow

/-!
# Phis where paths meet

A block that was left remembers what was bound there (`Departed`). Where the
ways into a block disagree on a variable, a phi is placed for it; at the head
of a loop, one is placed for every variable. Placing phis touches nothing but
the list of phis (`PhisOnly`), and what is bound afterwards is defined in the
block itself or above both ways into it.
-/

namespace StructuredSsa

namespace View

/-! ## Placing phis -/

/-- Nothing changed but the phis of one block. -/
structure PhisOnly (w z : View) (b : BlockId) : Prop where
  keeps : Keeps w z (· = b)
  kinds : z.kind = w.kind
  body : z.body b = w.body b
  preds : z.preds b = w.preds b
  succs : z.succs b = w.succs b
  before : z.before b = w.before b
  after : z.after b = w.after b
  idom : z.idom b = w.idom b

namespace PhisOnly

variable {w z y : View} {b : BlockId}

theorem refl (w : View) (b : BlockId) : PhisOnly w w b :=
  ⟨(Keeps.refl w).weaken fun _ _ => False.elim, rfl, rfl, rfl, rfl, rfl, rfl, rfl⟩

theorem trans (h : PhisOnly w z b) (k : PhisOnly z y b) : PhisOnly w y b :=
  ⟨(h.keeps.trans k.keeps).weaken fun _ _ h => h.elim id id, k.kinds.trans h.kinds,
    k.body.trans h.body, k.preds.trans h.preds, k.succs.trans h.succs, k.before.trans h.before,
    k.after.trans h.after, k.idom.trans h.idom⟩

end PhisOnly

section AddPhi

variable {w : View} {b : BlockId} {x : String} {os : List (BlockId × ValueId)}

theorem phisOnly_addPhi (ht : w.Tables) : PhisOnly w (w.addPhi b x os) b :=
  ⟨keeps_addPhi ht b x os, rfl, rfl, rfl, rfl, rfl, rfl, rfl⟩

theorem Sound.addPhi (h : w.Sound) (ht : w.Tables) (hpreds : w.preds b ≠ [])
    (hvalues : ∀ v ∈ os.map (·.2), w.HasValue v)
    (hx : ∀ m, w.home b = some m → w.kind b ≠ some .exit → x ∈ w.tracked m)
    (hos : ∀ q u, (q, u) ∈ os → q ∈ w.preds b ∧ ∃ st, w.after q = some st ∧ st.get? x = some u) :
    (w.addPhi b x os).Sound where
  wired := h.wired.addPhi ht hvalues hpreds
  scoping := h.scoping.addPhi h.wired ht hx hos
  ended c hl hc := (h.ended c hl hc).mono (fun v _ => (keeps_addPhi ht b x os).op v) rfl rfl
  sole := h.sole

end AddPhi

/-- The value `v` is a phi of the block `b` for `x`. -/
def PhiFor (w : View) (b : BlockId) (x : String) (v : ValueId) : Prop :=
  w.owner v = some b ∧ ∃ os, w.op v = some (.phi x os)

theorem PhiFor.hasValue {w : View} {b : BlockId} {x : String} {v : ValueId}
    (h : w.PhiFor b x v) : w.HasValue v := by
  obtain ⟨-, os, hop⟩ := h
  exact ⟨.phi x os, hop, rfl⟩

theorem PhiFor.keep {w z : View} {S : BlockId → Prop} {b : BlockId} {x : String} {v : ValueId}
    (h : w.PhiFor b x v) (k : Keeps w z S) : z.PhiFor b x v := by
  obtain ⟨howner, os, hop⟩ := h
  exact ⟨by rw [k.owner v (by simp [hop]), howner], os, k.op v _ hop⟩

theorem phiFor_addPhi (w : View) (b : BlockId) (x : String) (os : List (BlockId × ValueId)) :
    (w.addPhi b x os).PhiFor b x ⟨w.values⟩ :=
  ⟨if_pos rfl, os, if_pos rfl⟩

/-! ## Which variables have a phi -/

/-- The value `v` is a phi for `x`. -/
def Labels (w : View) (v : ValueId) (x : String) : Prop := ∃ os, w.op v = some (.phi x os)

/-- No phi of the block `b` is for `x`. -/
def NoPhi (w : View) (b : BlockId) (x : String) : Prop := ∀ u ∈ w.phis b, ¬w.Labels u x

/-- The block `b` has one phi for `x`, which is `v`. -/
structure SolePhi (w : View) (b : BlockId) (x : String) (v : ValueId) : Prop where
  mem : v ∈ w.phis b
  label : w.Labels v x
  sole : ∀ u ∈ w.phis b, w.Labels u x → u = v

/-- Phis are being placed in a block for the variables that `differs` picks, with
those in `names` still to come: each of the others that it picks is bound to the
one phi for it, and what it does not pick is bound as in `old` and has none. -/
structure Placement (w : View) (b : BlockId) (old : Bindings) (differs : String → Prop)
    (names : List String) (merged : Bindings) : Prop where
  placed : ∀ x, differs x → x ∉ names → ∃ v, w.SolePhi b x v ∧ merged.get? x = some v
  kept : ∀ x, (differs x → x ∈ names) → w.NoPhi b x ∧ merged.get? x = old.get? x

section Placement

variable {w z : View} {b : BlockId} {x : String} {v : ValueId} {old merged : Bindings}
  {differs : String → Prop} {names : List String}

theorem NoPhi.of_same (h : w.NoPhi b x) (hphis : z.phis b = w.phis b)
    (hlabels : ∀ u ∈ w.phis b, ∀ x, z.Labels u x ↔ w.Labels u x) : z.NoPhi b x := by
  intro u hu hx
  rw [hphis] at hu
  exact h u hu ((hlabels u hu x).1 hx)

theorem SolePhi.of_same (h : w.SolePhi b x v) (hphis : z.phis b = w.phis b)
    (hlabels : ∀ u ∈ w.phis b, ∀ x, z.Labels u x ↔ w.Labels u x) : z.SolePhi b x v where
  mem := hphis ▸ h.mem
  label := (hlabels v h.mem x).2 h.label
  sole u hu hx := by
    rw [hphis] at hu
    exact h.sole u hu ((hlabels u hu x).1 hx)

theorem Placement.of_same (h : Placement w b old differs names merged)
    (hphis : z.phis b = w.phis b)
    (hlabels : ∀ u ∈ w.phis b, ∀ x, z.Labels u x ↔ w.Labels u x) :
    Placement z b old differs names merged where
  placed x hx hnot := by
    obtain ⟨v, hv, hbound⟩ := h.placed x hx hnot
    exact ⟨v, hv.of_same hphis hlabels, hbound⟩
  kept x hx := ⟨(h.kept x hx).1.of_same hphis hlabels, (h.kept x hx).2⟩

/-- Before any phi is placed. -/
theorem Placement.start (hphis : w.phis b = []) (hnames : ∀ x, differs x → x ∈ names) :
    Placement w b old differs names old where
  placed x hx hnot := absurd (hnames x hx) hnot
  kept x _ := by
    refine ⟨fun u hu => ?_, rfl⟩
    rw [hphis] at hu
    cases hu

/-- A variable that is not picked. -/
theorem Placement.skip (h : Placement w b old differs (x :: names) merged) (hx : ¬differs x) :
    Placement w b old differs names merged where
  placed y hy hnot := by
    refine h.placed y hy fun hmem => ?_
    rcases List.mem_cons.1 hmem with rfl | hmem
    · exact hx hy
    · exact hnot hmem
  kept y hy := h.kept y fun hd => List.mem_cons_of_mem _ (hy hd)

/-- A phi for a variable that is picked, and that does not come again. -/
theorem Placement.add (h : Placement w b old differs (x :: names) merged) (hx : differs x)
    (hnot : x ∉ names) (hphis : z.phis b = w.phis b ++ [v]) (hv : z.Labels v x)
    (hlabels : ∀ u ∈ w.phis b, ∀ x, z.Labels u x ↔ w.Labels u x) :
    Placement z b old differs names (merged.bind x v) := by
  have hother {y : String} (hy : y ≠ x) : ¬z.Labels v y := by
    rintro ⟨os, hos⟩
    obtain ⟨os', hos'⟩ := hv
    rw [hos'] at hos
    exact hy (Op.phi.inj (Option.some.inj hos)).1.symm
  refine ⟨fun y hy hynot => ?_, fun y hy => ?_⟩
  · by_cases hyx : y = x
    · subst hyx
      have hnone := (h.kept y fun _ => List.mem_cons_self ..).1
      refine ⟨v, ⟨by simp [hphis], hv, fun u hu hlabel => ?_⟩, by simp⟩
      rw [hphis, List.mem_append, List.mem_singleton] at hu
      rcases hu with hu | hu
      · exact absurd ((hlabels u hu y).1 hlabel) (hnone u hu)
      · exact hu
    · obtain ⟨u, hu, hbound⟩ := h.placed y hy fun hmem =>
        (List.mem_cons.1 hmem).elim hyx hynot
      refine ⟨u, ⟨by simp [hphis, hu.mem], (hlabels u hu.mem y).2 hu.label, fun r hr hlabel => ?_⟩,
        by simp [hyx, hbound]⟩
      rw [hphis, List.mem_append, List.mem_singleton] at hr
      rcases hr with hr | rfl
      · exact hu.sole r hr ((hlabels r hr y).1 hlabel)
      · exact absurd hlabel (hother hyx)
  · have hyx : y ≠ x := by
      rintro rfl
      exact hnot (hy hx)
    obtain ⟨hnone, hbound⟩ := h.kept y fun hd => List.mem_cons_of_mem _ (hy hd)
    refine ⟨fun u hu hlabel => ?_, by simp [hyx, hbound]⟩
    rw [hphis, List.mem_append, List.mem_singleton] at hu
    rcases hu with hu | rfl
    · exact hnone u hu ((hlabels u hu y).1 hlabel)
    · exact hother hyx hlabel

/-- Phis keep their variables. -/
theorem Keeps.labels {S : BlockId → Prop} (k : Keeps w z S) (hw : w.Wired) {u : ValueId}
    (hu : u ∈ w.phis b) (x : String) : z.Labels u x ↔ w.Labels u x := by
  obtain ⟨o, ho⟩ := Option.ne_none_iff_exists'.1 (hw.op_of_contents (List.mem_append_left _ hu))
  rw [Labels, Labels, k.op u o ho, ho]

end Placement

/-! ## Ways out of blocks -/

/-- A block of a method was left with what the departure says. -/
structure Departed (w : View) (m : MethodId) (d : Departure) : Prop where
  after : w.after d.block = some d.bindings
  home : w.home d.block = some m
  rooted : ∀ e, w.entry m = some e → Above w.idom e d.block
  bound : ∀ x ∈ w.tracked m, ∃ v, d.bindings.get? x = some v
  value : ∀ x v, d.bindings.get? x = some v → w.HasValue v
  above : d.reachable = true → ∀ x v, d.bindings.get? x = some v → w.DefinedAbove v d.block
  known : d.reachable = true → ∀ x v, d.bindings.get? x = some v → x ∈ w.tracked m

theorem Departed.keep {w z : View} {S : BlockId → Prop} {m : MethodId} {d : Departure}
    (h : w.Departed m d) (k : Keeps w z S) : z.Departed m d where
  after := k.after _ _ h.after
  home := k.home _ _ h.home
  rooted e he := by
    rw [k.entry] at he
    exact (h.rooted e he).mono k.idom
  bound := k.tracked m ▸ h.bound
  value x v hv := k.hasValue (h.value x v hv)
  above hd x v hv := k.definedAbove (h.value x v hv) (h.above hd x v hv)
  known := k.tracked m ▸ h.known

theorem departed_depart {w : View} {c : Cursor} (hc : w.Ready c) (ht : w.Tables) (t : BlockId) :
    (w.depart c t).Departed c.method ⟨c.block, c.bindings, c.reachable⟩ := by
  have k := keeps_depart hc.toOpen ht t
  exact
    { after := after_depart
      home := k.home _ _ hc.home
      rooted := fun e he => (hc.rooted e (k.entry ▸ he)).mono k.idom
      bound := k.tracked c.method ▸ hc.bound
      value := fun x v hv => k.hasValue (hc.usable x v hv).1
      above := fun hl x v hv => k.definedAbove (hc.usable x v hv).1 ((hc.usable x v hv).2 hl)
      known := k.tracked c.method ▸ hc.known }

/-! ## What is bound where ways meet -/

/-- Phis are being placed in a block: what is bound is a phi there, or it was
bound before and is agreed on or still to come. -/
structure Merged (w : View) (b : BlockId) (old : Bindings) (agreed : String → ValueId → Prop)
    (names : List String) (merged : Bindings) : Prop where
  source : ∀ x v, merged.get? x = some v → w.PhiFor b x v
    ∨ old.get? x = some v ∧ (agreed x v ∨ x ∈ names)
  bound : ∀ x v, old.get? x = some v → ∃ u, merged.get? x = some u
  known : ∀ x v, merged.get? x = some v → ∃ u, old.get? x = some u

theorem Merged.phi {w z : View} {S : BlockId → Prop} {b : BlockId} {old : Bindings}
    {agreed : String → ValueId → Prop} {x : String} {names : List String} {merged : Bindings}
    {v : ValueId} (h : Merged w b old agreed (x :: names) merged) (k : Keeps w z S)
    (hv : z.PhiFor b x v) (hx : ∃ u, old.get? x = some u) :
    Merged z b old agreed names (merged.bind x v) := by
  refine ⟨fun y u hu => ?_, fun y u hu => ?_, fun y u hu => ?_⟩
  · rw [Bindings.get?_bind] at hu
    split at hu
    · next hy =>
        obtain rfl := Option.some.inj hu
        exact Or.inl (hy ▸ hv)
    · next hy =>
        refine (h.source y u hu).imp (fun hphi => hphi.keep k) fun ⟨hl, hr⟩ => ⟨hl, hr.imp id ?_⟩
        exact fun hmem => (List.mem_cons.1 hmem).resolve_left hy
  · rw [Bindings.get?_bind]
    split
    · exact ⟨v, rfl⟩
    · exact h.bound y u hu
  · rw [Bindings.get?_bind] at hu
    split at hu
    · next hy => exact hy ▸ hx
    · exact h.known y u hu

/-- What is bound behind a new phi was bound before it, or is new. -/
theorem fresh_bind {merged : Bindings} {x y : String} {u v : ValueId} {n : Nat}
    (h : (merged.bind x u).get? y = some v) (hu : n ≤ u.index) :
    merged.get? y = some v ∨ n ≤ v.index := by
  rw [Bindings.get?_bind] at h
  split at h
  · obtain rfl := Option.some.inj h
    exact Or.inr hu
  · exact Or.inl h

/-- Two ways from `branch` lead to a block that is about to be entered. -/
structure Meeting (w : View) (m : MethodId) (join branch : BlockId) (left right : Departure) :
    Prop where
  sound : w.Sound
  blank : w.Blank m join
  kind : w.kind join = some (.join false)
  phis : w.phis join = []
  idom : w.idom join = none
  departed_left : w.Departed m left
  departed_right : w.Departed m right
  apart : left.block ≠ right.block
  preds : w.preds join = (if left.reachable = true then [left.block] else [])
    ++ if right.reachable = true then [right.block] else []
  home : w.home branch = some m
  rooted : ∀ e, w.entry m = some e → Above w.idom e branch
  above_left : Above w.idom branch left.block
  above_right : Above w.idom branch right.block
  agreed : left.reachable = true → ∀ x v, left.bindings.get? x = some v →
    right.bindings.get? x = some v → w.DefinedAbove v branch
  exit_apart : ∀ b, w.exit m = some b → w.kind b ≠ none ∧ b ≠ join

/-- The block behind a conditional was entered. -/
structure Met (w : View) (m : MethodId) (join branch : BlockId) (left right : Departure)
    (z : View) (d : Cursor) : Prop where
  ready : z.Ready d
  method : d.method = m
  block : d.block = join
  keeps : Keeps w z (· = join)
  kinds : z.kind = w.kind
  reachable : d.reachable = (left.reachable || right.reachable)
  above : Above z.idom branch join
  /-- The pointer goes to the only way that leads here, if there is one, and else to
  the branch. -/
  idom_none : left.reachable = false → right.reachable = false → z.idom join = some branch
  idom_both : left.reachable = true → right.reachable = true → z.idom join = some branch
  idom_left : left.reachable = true → right.reachable = false → z.idom join = some left.block
  idom_right : left.reachable = false → right.reachable = true → z.idom join = some right.block
  preds : z.preds join = w.preds join
  body : z.body join = []
  fresh : ∀ x v, d.bindings.get? x = some v → (∃ y, left.bindings.get? y = some v)
    ∨ (∃ y, right.bindings.get? y = some v) ∨ w.values ≤ v.index
  both : left.reachable = true → right.reachable = true →
    Merged z join left.bindings (fun x v => right.bindings.get? x = some v) [] d.bindings
  /-- Just the variables on which the two ways disagree have a phi. -/
  placement : left.reachable = true → right.reachable = true → (w.tracked m).Nodup →
    Placement z join left.bindings (fun x => x ∈ w.tracked m
      ∧ left.bindings.get? x ≠ right.bindings.get? x) [] d.bindings
  before : z.before join = some d.bindings
  one : left.reachable = false ∨ right.reachable = false → z.phis join = []
    ∧ d.bindings = if right.reachable = true then right.bindings else left.bindings

section

variable {w : View} {m : MethodId} {join branch d : BlockId} {left right way : Departure}
  (h : Meeting w m join branch left right) (hway : w.Departed m way)
  (hpreds : w.preds join = if way.reachable = true then [way.block] else [])
include h hway hpreds

/-- Entering a block that at most one way leads to. -/
theorem Meeting.ready_one (hd : d = if way.reachable = true then way.block else branch) :
    (w.begin join d way.bindings).Ready ⟨m, join, way.bindings, way.reachable⟩ := by
  refine Blank.begin (c := ⟨m, join, way.bindings, way.reachable⟩) h.blank way.bindings h.sound
    h.idom ?_ (fun q hq => ?_) h.exit_apart
    (fun e he => ?_) ?_ hway.bound (fun x v hv => ⟨hway.value x v hv, fun hl => ?_⟩) hway.known
  · rw [hd]
    split
    · exact hway.home
    · exact h.home
  · change q ∈ w.preds join at hq
    rw [hpreds] at hq
    split at hq
    · next hl =>
        rw [hd, if_pos hl, List.mem_singleton.1 hq]
        exact .refl _
    · cases hq
  · rw [hd]
    split
    · exact hway.rooted e he
    · exact h.rooted e he
  · show way.reachable = true ↔ w.preds join ≠ []
    rw [hpreds]
    split <;> simp_all
  · change way.reachable = true at hl
    rw [hd, if_pos hl]
    exact Or.inr (hway.above hl x v hv)

theorem Meeting.met_one (hd : d = if way.reachable = true then way.block else branch)
    (hchoice : way = left ∨ way = right) (hnot : left.reachable = false ∨ right.reachable = false)
    (hreach : way.reachable = (left.reachable || right.reachable))
    (hbindings : way.bindings = if right.reachable = true then right.bindings else left.bindings) :
    Met w m join branch left right (w.begin join d way.bindings)
      ⟨m, join, way.bindings, way.reachable⟩ where
  ready := h.ready_one hway hpreds hd
  method := rfl
  block := rfl
  keeps := keeps_begin d way.bindings h.idom
  kinds := rfl
  reachable := hreach
  above := by
    refine .up (idom_begin ..) (Above.mono (keeps_begin d way.bindings h.idom).idom ?_)
    rw [hd]
    split
    · rcases hchoice with rfl | rfl
      · exact h.above_left
      · exact h.above_right
    · exact .refl _
  idom_none hl hr := by
    rw [idom_begin, hd, if_neg (by simp [hreach, hl, hr])]
  idom_both hl hr := by
    rcases hnot with h | h
    · simp [h] at hl
    · simp [h] at hr
  idom_left hl hr := by
    rw [idom_begin, hd, if_pos (by simp [hreach, hl])]
    rcases hchoice with rfl | rfl
    · rfl
    · simp [hr, hl] at hreach
  idom_right hl hr := by
    rw [idom_begin, hd, if_pos (by simp [hreach, hr])]
    rcases hchoice with rfl | rfl
    · simp [hr, hl] at hreach
    · rfl
  preds := rfl
  body := h.blank.body
  fresh x v hv := by
    rcases hchoice with rfl | rfl
    · exact Or.inl ⟨x, hv⟩
    · exact Or.inr (Or.inl ⟨x, hv⟩)
  both hl hr := by
    rcases hnot with h | h
    · rw [h] at hl
      cases hl
    · rw [h] at hr
      cases hr
  placement hl hr := by
    rcases hnot with h | h
    · simp [h] at hl
    · simp [h] at hr
  before := if_pos rfl
  one _ := ⟨h.phis, hbindings⟩

end

/-- Entering a block that both ways lead to, once its phis are placed. -/
theorem Meeting.met_both {w z : View} {m : MethodId} {join branch : BlockId}
    {left right : Departure} {merged : Bindings} (h : Meeting w m join branch left right)
    (hl : left.reachable = true) (hr : right.reachable = true) (hsound : z.Sound)
    (honly : PhisOnly w z join)
    (hmerged : Merged z join left.bindings (fun x v => right.bindings.get? x = some v) [] merged)
    (hplacement : (w.tracked m).Nodup → Placement z join left.bindings (fun x =>
      x ∈ w.tracked m ∧ left.bindings.get? x ≠ right.bindings.get? x) [] merged)
    (hfresh : ∀ x v, merged.get? x = some v → left.bindings.get? x = some v ∨ w.values ≤ v.index) :
    Met w m join branch left right (z.begin join branch merged) ⟨m, join, merged, true⟩ := by
  have hkeeps := honly.keeps
  have hidom : z.idom join = none := honly.idom.trans h.idom
  have hbegin := keeps_begin (w := z) branch merged hidom
  have hpreds : z.preds join = [left.block, right.block] := by
    rw [honly.preds, h.preds, hl, hr]
    rfl
  have hblank : z.Blank m join :=
    ⟨⟨.join false, hkeeps.kind _ _ h.kind, by simp, by simp⟩, hkeeps.home _ _ h.blank.home,
      hkeeps.owned _ _ h.blank.owned, honly.body.trans h.blank.body, honly.after.trans h.blank.after⟩
  refine
    { ready := Blank.begin (c := ⟨m, join, merged, true⟩) hblank merged hsound hidom
        (hkeeps.home _ _ h.home) (fun q hq => ?_)
        (fun b hb => ?_) (fun e he => ?_) ?_ (fun x hx => ?_) (fun x v hv => ?_)
        (fun _ x v hv => ?_)
      method := rfl
      block := rfl
      keeps := (hkeeps.trans hbegin).weaken fun _ _ hb => hb.elim id id
      kinds := honly.kinds
      reachable := by simp [hl]
      above := .single (idom_begin ..)
      idom_none := fun h _ => by simp [hl] at h
      idom_both := fun _ _ => idom_begin ..
      idom_left := fun _ h => by simp [hr] at h
      idom_right := fun h _ => by simp [hl] at h
      preds := honly.preds
      body := hblank.body
      fresh := fun x v hv => (hfresh x v hv).imp (fun h => ⟨x, h⟩) Or.inr
      both := fun _ _ => ?_
      placement := fun _ _ hnodup => (hplacement hnodup).of_same rfl fun _ _ _ => Iff.rfl
      before := if_pos rfl
      one := fun hno => ?_ }
  · change q ∈ z.preds join at hq
    rw [hpreds] at hq
    simp only [List.mem_cons, List.not_mem_nil, or_false] at hq
    rcases hq with rfl | rfl
    · exact h.above_left.mono hkeeps.idom
    · exact h.above_right.mono hkeeps.idom
  · rw [hkeeps.exits] at hb
    exact ⟨hkeeps.exists_kind (h.exit_apart b hb).1, (h.exit_apart b hb).2⟩
  · rw [hkeeps.entry] at he
    exact (h.rooted e he).mono hkeeps.idom
  · show true = true ↔ z.preds join ≠ []
    simp [hpreds]
  · change x ∈ z.tracked m at hx
    rw [hkeeps.tracked] at hx
    obtain ⟨v, hv⟩ := h.departed_left.bound x hx
    exact hmerged.bound x v hv
  · rcases hmerged.source x v hv with hphi | ⟨hvl, hvr⟩
    · exact ⟨hphi.hasValue, fun _ => Or.inl hphi.1⟩
    · have hval := h.departed_left.value x v hvl
      have hvr := hvr.resolve_right (List.not_mem_nil)
      exact ⟨hkeeps.hasValue hval, fun _ =>
        Or.inr (hkeeps.definedAbove hval (h.agreed hl x v hvl hvr))⟩
  · obtain ⟨u, hu⟩ := hmerged.known x v hv
    show x ∈ z.tracked m
    rw [hkeeps.tracked]
    exact h.departed_left.known hl x u hu
  · exact { hmerged with source := hmerged.source }
  · rcases hno with h | h
    · rw [h] at hl
      cases hl
    · rw [h] at hr
      cases hr

end View

namespace Build

open View

section

variable {E : Error → Prop} {s : Builder} {b : BlockId} {k : BlockKind} (x : String)
  (os : List (BlockId × ValueId)) (line : Nat)

theorem addPhi_view (hb : s.program.view.kind b = some k) (hk : k.merges = true)
    (hvalues : ∀ v ∈ os.map (·.2), s.program.view.HasValue v) :
    Meets E (editWith fun p => p.addPhi b x os line) s fun v t => v = ⟨s.program.view.values⟩
      ∧ t.cursor = s.cursor ∧ t.program.view = s.program.view.addPhi b x os := by
  obtain ⟨p, hp, hview⟩ := Program.addPhi_ok x line hb hk fun v hv => (hvalues v hv).exists_op
  exact meets_editWith hp ⟨rfl, rfl, hview⟩

theorem addPhi_meets (hs : s.program.view.Sound) (hb : s.program.view.kind b = some k)
    (hk : k.merges = true) (hpreds : s.program.view.preds b ≠ [])
    (hx : ∀ m, s.program.view.home b = some m → s.program.view.kind b ≠ some .exit →
      x ∈ s.program.view.tracked m)
    (hos : ∀ q u, (q, u) ∈ os → s.program.view.HasValue u ∧ q ∈ s.program.view.preds b
      ∧ ∃ st, s.program.view.after q = some st ∧ st.get? x = some u) :
    Meets E (editWith fun p => p.addPhi b x os line) s fun v t => t.cursor = s.cursor
      ∧ t.program.view.Sound ∧ PhisOnly s.program.view t.program.view b
      ∧ t.program.view.PhiFor b x v ∧ s.program.view.values ≤ v.index
      ∧ t.program.view.phis b = s.program.view.phis b ++ [v] := by
  have ht := s.program.view_tables
  have hvalues : ∀ v ∈ os.map (·.2), s.program.view.HasValue v := by
    intro v hv
    obtain ⟨⟨q, u⟩, hmem, rfl⟩ := List.mem_map.1 hv
    exact (hos q u hmem).1
  refine (addPhi_view x os line hb hk hvalues).mono ?_
  rintro _ t ⟨rfl, hc, hview⟩
  rw [hview]
  exact ⟨hc, hs.addPhi ht hpreds hvalues hx fun q u h => (hos q u h).2, phisOnly_addPhi ht,
    phiFor_addPhi .., Nat.le_refl _, if_pos rfl⟩

end

/-- Placing the phis for some of the variables that two ways into `join` track. -/
theorem mergeNames_meets {E : Error → Prop} {m : MethodId} {join : BlockId} {k : BlockKind}
    {left right : Departure} (line : Nat) (hk : k.merges = true) :
    ∀ (names : List String) {s : Builder} {merged : Bindings}, s.program.view.Sound →
      s.program.view.kind join = some k → s.program.view.home join = some m →
      s.program.view.preds join = [left.block, right.block] → s.program.view.Departed m left →
      s.program.view.Departed m right → (∀ x ∈ names, x ∈ s.program.view.tracked m) →
      Merged s.program.view join left.bindings (fun x v => right.bindings.get? x = some v) names
        merged →
      Meets E (mergeNames join left right line names merged) s fun r t =>
        t.cursor = s.cursor ∧ t.program.view.Sound
          ∧ PhisOnly s.program.view t.program.view join
          ∧ Merged t.program.view join left.bindings (fun x v => right.bindings.get? x = some v) [] r
          ∧ (∀ x v, r.get? x = some v → merged.get? x = some v ∨ s.program.view.values ≤ v.index)
          ∧ ∀ differs : String → Prop,
            (∀ x ∈ names, differs x ↔ left.bindings.get? x ≠ right.bindings.get? x) →
            names.Nodup → Placement s.program.view join left.bindings differs names merged →
            Placement t.program.view join left.bindings differs [] r
  | [], s, merged, hs, _, _, _, _, _, _, hmerged =>
      meets_pure ⟨rfl, hs, .refl _ _, hmerged, fun _ _ h => Or.inl h, fun _ _ _ h => h⟩
  | x :: rest, s, merged, hs, hjoin, hhome, hpreds, hl, hr, hnames, hmerged => by
      unfold mergeNames
      obtain ⟨a, ha⟩ := hl.bound x (hnames x (List.mem_cons_self ..))
      obtain ⟨b, hb⟩ := hr.bound x (hnames x (List.mem_cons_self ..))
      have hrest : ∀ y ∈ rest, y ∈ s.program.view.tracked m := fun y hy =>
        hnames y (List.mem_cons_of_mem _ hy)
      rw [ha, hb]
      dsimp only
      split
      · next hab =>
          subst hab
          refine (mergeNames_meets line hk rest hs hjoin hhome hpreds hl hr hrest
            { hmerged with source := fun y v hv => ?_ }).mono ?_
          · refine (hmerged.source y v hv).imp id fun ⟨hyl, hyr⟩ => ⟨hyl, ?_⟩
            rcases hyr with hyr | hyr
            · exact Or.inl hyr
            · rcases List.mem_cons.1 hyr with rfl | hyr
              · exact Or.inl (hb.trans (ha.symm.trans hyl))
              · exact Or.inr hyr
          · rintro r u ⟨hc, hu, honly, hr', hsource, hplace⟩
            refine ⟨hc, hu, honly, hr', hsource, fun differs hd hnodup hp => ?_⟩
            refine hplace differs (fun y hy => hd y (List.mem_cons_of_mem _ hy))
              (List.nodup_cons.1 hnodup).2 (hp.skip fun hx => ?_)
            exact (hd x (List.mem_cons_self ..)).1 hx (ha.trans hb.symm)
      · next hab =>
        refine Meets.bind (addPhi_meets x _ line hs hjoin hk (by simp [hpreds]) ?_ ?_) ?_
        · intro n hn _
          obtain rfl := Option.some.inj (hhome.symm.trans hn)
          exact hnames x (List.mem_cons_self ..)
        · rintro q u hqu
          rw [hpreds]
          simp only [List.mem_cons, Prod.mk.injEq, List.not_mem_nil, or_false] at hqu
          rcases hqu with ⟨rfl, rfl⟩ | ⟨rfl, rfl⟩
          · exact ⟨hl.value x _ ha, by simp, _, hl.after, ha⟩
          · exact ⟨hr.value x _ hb, by simp, _, hr.after, hb⟩
        · rintro phi t ⟨hc, ht, honly, hphi, hnew, hphis⟩
          have hkeeps := honly.keeps
          refine (mergeNames_meets line hk rest ht (hkeeps.kind _ _ hjoin) (hkeeps.home _ _ hhome)
            (honly.preds.trans hpreds) (hl.keep hkeeps) (hr.keep hkeeps) (hkeeps.tracked m ▸ hrest)
            (hmerged.phi hkeeps hphi ⟨a, ha⟩)).mono ?_
          rintro r u ⟨hc', hu, honly', hr', hsource, hplace⟩
          refine ⟨hc'.trans hc, hu, honly.trans honly', hr', fun y v hv => ?_,
            fun differs hd hnodup hp => ?_⟩
          · rcases hsource y v hv with h | h
            · exact fresh_bind h hnew
            · exact Or.inr (hkeeps.values.trans h)
          · obtain ⟨hx, hnodup⟩ := List.nodup_cons.1 hnodup
            refine hplace differs (fun y hy => hd y (List.mem_cons_of_mem _ hy)) hnodup
              (hp.add ((hd x (List.mem_cons_self ..)).2 ?_) hx hphis hphi.2
                fun _ hu => hkeeps.labels hs.wired hu)
            rw [ha, hb]
            exact fun he => hab (Option.some.inj he)

/-- Placing the phis for some of the variables at the head of a loop. -/
theorem headerNames_meets {E : Error → Prop} {m : MethodId} {header : BlockId} {k : BlockKind}
    {before : Departure} (line : Nat) (hk : k.merges = true) :
    ∀ (names : List String) {s : Builder} {bound : Bindings}, s.program.view.Sound →
      s.program.view.kind header = some k → s.program.view.home header = some m →
      s.program.view.preds header = [before.block] →
      s.program.view.Departed m before → (∀ x ∈ names, x ∈ s.program.view.tracked m) →
      Merged s.program.view header before.bindings (fun _ _ => False) names bound →
      Meets E (headerNames header before line names bound) s fun r t =>
        t.cursor = s.cursor ∧ t.program.view.Sound
          ∧ PhisOnly s.program.view t.program.view header
          ∧ Merged t.program.view header before.bindings (fun _ _ => False) [] r
          ∧ (∀ x v, r.get? x = some v → bound.get? x = some v ∨ s.program.view.values ≤ v.index)
          ∧ ∀ differs : String → Prop, (∀ x ∈ names, differs x) → names.Nodup →
            Placement s.program.view header before.bindings differs names bound →
            Placement t.program.view header before.bindings differs [] r
  | [], s, bound, hs, _, _, _, _, _, hmerged =>
      meets_pure ⟨rfl, hs, .refl _ _, hmerged, fun _ _ h => Or.inl h, fun _ _ _ h => h⟩
  | x :: rest, s, bound, hs, hheader, hhome, hpreds, hbefore, hnames, hmerged => by
      unfold headerNames
      obtain ⟨v, hv⟩ := hbefore.bound x (hnames x (List.mem_cons_self ..))
      have hrest : ∀ y ∈ rest, y ∈ s.program.view.tracked m := fun y hy =>
        hnames y (List.mem_cons_of_mem _ hy)
      rw [hv]
      dsimp only
      refine Meets.bind (addPhi_meets x _ line hs hheader hk (by simp [hpreds]) ?_ ?_) ?_
      · intro n hn _
        obtain rfl := Option.some.inj (hhome.symm.trans hn)
        exact hnames x (List.mem_cons_self ..)
      · rintro q u hqu
        rw [hpreds]
        simp only [List.mem_cons, Prod.mk.injEq, List.not_mem_nil, or_false] at hqu
        obtain ⟨rfl, rfl⟩ := hqu
        exact ⟨hbefore.value x _ hv, by simp, _, hbefore.after, hv⟩
      · rintro phi t ⟨hc, ht, honly, hphi, hnew, hphis⟩
        have hkeeps := honly.keeps
        refine (headerNames_meets line hk rest ht (hkeeps.kind _ _ hheader) (hkeeps.home _ _ hhome)
          (honly.preds.trans hpreds) (hbefore.keep hkeeps) (hkeeps.tracked m ▸ hrest)
          (hmerged.phi hkeeps hphi ⟨v, hv⟩)).mono ?_
        rintro r u ⟨hc', hu, honly', hr', hsource, hplace⟩
        refine ⟨hc'.trans hc, hu, honly.trans honly', hr', fun y w hw => ?_,
          fun differs hd hnodup hp => ?_⟩
        · rcases hsource y w hw with h | h
          · exact fresh_bind h hnew
          · exact Or.inr (hkeeps.values.trans h)
        · obtain ⟨hx, hnodup⟩ := List.nodup_cons.1 hnodup
          exact hplace differs (fun y hy => hd y (List.mem_cons_of_mem _ hy)) hnodup
            (hp.add (hd x (List.mem_cons_self ..)) hx hphis hphi.2
              fun _ hu => hkeeps.labels hs.wired hu)

/-! ## Behind a conditional -/

theorem beginBlock_meets {E : Error → Prop} {s : Builder} {b : BlockId} (d : BlockId)
    (st : Bindings) (hb : s.program.view.kind b ≠ none) :
    Meets E (beginBlock b d st) s fun _ t => t.cursor = s.cursor
      ∧ t.program.view = s.program.view.begin b d st := by
  obtain ⟨p, hp, hview⟩ := Program.setDominator_ok d hb
  have hb' : p.view.kind b ≠ none := hview ▸ hb
  obtain ⟨q, hq, hview'⟩ := Program.setBefore_ok st hb'
  refine meets_bind_edit hp ?_
  refine meets_edit hq ⟨rfl, ?_⟩
  dsimp only
  rw [hview', hview]
  rfl

section EnterJoin

variable {E : Error → Prop} {s : Builder} {join branch : BlockId} {left right : Departure}

/-- The last two steps of entering a block: a pointer and bindings for it, and
the cursor in it. -/
theorem enter_meets {b d : BlockId} {bindings : Bindings} {reachable : Bool} {m : MethodId}
    (hb : s.program.view.kind b ≠ none) :
    Meets E (do beginBlock b d bindings; moveTo ⟨m, b, bindings, reachable⟩) s fun _ t =>
      t.program.view = s.program.view.begin b d bindings
        ∧ t.cursor = ⟨m, b, bindings, reachable⟩ := by
  refine Meets.bind (beginBlock_meets d bindings hb) ?_
  rintro _ t ⟨-, hview⟩
  exact meets_moveTo ⟨hview, rfl⟩

theorem enterJoin_meets (h : Meeting s.program.view s.cursor.method join branch left right)
    (line : Nat) : Meets E (enterJoin join branch left right line) s fun _ t =>
      Met s.program.view s.cursor.method join branch left right t.program.view t.cursor := by
  obtain ⟨r, hblock⟩ := Program.block_of_kind h.blank.present
  have hpreds : r.preds = s.program.view.preds join :=
    (Program.view_of_block hblock).2.2.2.2.1.symm
  refine meets_cursor (Meets.bind (P := fun a t => a = r ∧ t = s)
    (meets_look (Program.getBlock_ok hblock) ⟨rfl, rfl⟩) ?_)
  rintro _ _ ⟨rfl, rfl⟩
  have hways := h.preds
  rw [hpreds, hways]
  cases hl : left.reachable with
  | false =>
      cases hr : right.reachable with
      | false =>
          simp only [Bool.false_eq_true, if_false, List.append_nil, pure_bind]
          refine (enter_meets h.blank.present).mono fun _ t ht => ?_
          rw [ht.1, ht.2, ← hl]
          exact h.met_one h.departed_left (by simp [hways, hl, hr]) (by simp [hl]) (Or.inl rfl)
            (Or.inl hl) (by simp [hl, hr]) (by simp [hr])
      | true =>
          simp only [Bool.false_eq_true, if_false, if_true, List.nil_append, pure_bind,
            if_neg (Ne.symm h.apart)]
          refine (enter_meets h.blank.present).mono fun _ t ht => ?_
          rw [ht.1, ht.2, ← hr]
          exact h.met_one h.departed_right (by simp [hways, hl, hr]) (by simp [hr]) (Or.inr rfl)
            (Or.inl hl) (by simp [hl, hr]) (by simp [hr])
  | true =>
      cases hr : right.reachable with
      | false =>
          simp only [Bool.false_eq_true, if_false, if_true, List.append_nil, pure_bind]
          refine (enter_meets h.blank.present).mono fun _ t ht => ?_
          rw [ht.1, ht.2, ← hl]
          exact h.met_one h.departed_left (by simp [hways, hl, hr]) (by simp [hl]) (Or.inl rfl)
            (Or.inr hr) (by simp [hl, hr]) (by simp [hr])
      | true =>
          simp only [if_true, List.cons_append, List.nil_append]
          have hsort := h.sound.wired.home_sort _ _ h.home
          refine Meets.bind (trackedNames_meets hsort) ?_
          rintro names _ ⟨rfl, rfl⟩
          have hleft := h.departed_left
          refine Meets.bind (mergeNames_meets (k := .join false) line rfl _ h.sound h.kind h.blank.home
            (by simp [hways, hl, hr]) hleft h.departed_right (fun x hx => hx)
            ⟨fun x v hv => Or.inr ⟨hv, Or.inr (hleft.known hl x v hv)⟩, fun x v hv => ⟨v, hv⟩,
              fun x v hv => ⟨v, hv⟩⟩) ?_
          rintro merged t ⟨-, hsound, honly, hmerged, hfresh, hplacement⟩
          rw [pure_bind]
          refine (enter_meets (honly.keeps.exists_kind h.blank.present)).mono fun _ u hu => ?_
          rw [hu.1, hu.2]
          refine h.met_both hl hr hsound honly hmerged (fun hnodup => ?_) hfresh
          exact hplacement _ (fun x hx => and_iff_right hx) hnodup (.start h.phis fun _ hx => hx.1)

end EnterJoin

end Build

end StructuredSsa
