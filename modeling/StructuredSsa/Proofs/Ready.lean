import StructuredSsa.Proofs.Meets

/-!
# The cursor of the construction

`Ready w c`: the program with view `w` is well formed, and code can be added at
the cursor `c`. `Advance w c z d`: the construction went from `w` at `c` to `z`
at `d`, and left alone what it had no business with. Every step of the
construction is described by these two, so that the pieces of a conditional or
a loop fit together: what stands in a block that is waiting to be entered is
what was put there, however much was built in between.
-/

namespace StructuredSsa

namespace View

variable {w z : View} {b : BlockId}

/-- A value that code at the cursor may read. -/
def Usable (w : View) (c : Cursor) (v : ValueId) : Prop :=
  w.HasValue v ∧ (c.reachable = true → w.DefinedAbove v c.block)

/-- A program between two steps of the construction. -/
structure Sound (w : View) : Prop where
  wired : w.Wired
  scoping : w.Scoped
  ended : w.Ended
  /-- A block is marked as an exit only if it is the exit of its method. -/
  sole : ∀ b m, w.kind b = some .exit → w.home b = some m → w.exit m = some b

/-- The block at a cursor takes instructions, and the cursor knows what is
known there. -/
structure Open (w : View) (c : Cursor) : Prop where
  present : w.kind c.block ≠ none
  home : w.home c.block = some c.method
  owned : c.block ∈ w.owned c.method
  opened : w.after c.block = none
  straight : ∀ u ∈ w.body c.block, ∃ o, w.op u = some o ∧ o.isTerminator = false
  not_exit : w.kind c.block ≠ some .exit
  exit_apart : ∀ b, w.exit c.method = some b → w.kind b ≠ none ∧ b ≠ c.block
  rooted : ∀ e, w.entry c.method = some e → Above w.idom e c.block
  live : c.reachable = true ↔ w.Live c.block
  bound : ∀ x ∈ w.tracked c.method, ∃ v, c.bindings.get? x = some v
  usable : ∀ x v, c.bindings.get? x = some v → w.Usable c v

/-- Instructions can be added at the cursor. -/
structure Placed (w : View) (c : Cursor) : Prop extends Sound w, Open w c

/-- Code can be added at the cursor: nothing is bound there that is not tracked. -/
structure Ready (w : View) (c : Cursor) : Prop extends Placed w c where
  known : c.reachable = true → ∀ x v, c.bindings.get? x = some v → x ∈ w.tracked c.method

theorem Open.listed {c : Cursor} (h : w.Open c) (m : MethodId) (hm : w.home c.block = some m) :
    c.block ∈ w.owned m :=
  Option.some.inj (h.home.symm.trans hm) ▸ h.owned

theorem Placed.has_method {c : Cursor} (h : w.Placed c) : w.sort c.method ≠ none :=
  h.wired.home_sort _ _ h.home

/-! ## What stays -/

/-- Nothing recorded for a block changed. -/
structure Same (w z : View) (b : BlockId) : Prop where
  kind : z.kind b = w.kind b
  home : z.home b = w.home b
  phis : z.phis b = w.phis b
  body : z.body b = w.body b
  preds : z.preds b = w.preds b
  succs : z.succs b = w.succs b
  before : z.before b = w.before b
  after : z.after b = w.after b
  idom : z.idom b = w.idom b

theorem Same.refl (w : View) (b : BlockId) : Same w w b :=
  ⟨rfl, rfl, rfl, rfl, rfl, rfl, rfl, rfl, rfl⟩

theorem Same.trans {y : View} (h : Same w z b) (k : Same z y b) : Same w y b :=
  ⟨k.kind.trans h.kind, k.home.trans h.home, k.phis.trans h.phis, k.body.trans h.body,
    k.preds.trans h.preds, k.succs.trans h.succs, k.before.trans h.before, k.after.trans h.after,
    k.idom.trans h.idom⟩

/-- A block only got instructions, an end and edges out. -/
structure Grown (w z : View) (b : BlockId) : Prop where
  phis : z.phis b = w.phis b
  body : w.body b <+: z.body b
  preds : z.preds b = w.preds b
  before : z.before b = w.before b
  idom : z.idom b = w.idom b

theorem Grown.trans {y : View} (h : Grown w z b) (k : Grown z y b) : Grown w y b :=
  ⟨k.phis.trans h.phis, h.body.trans k.body, k.preds.trans h.preds, k.before.trans h.before,
    k.idom.trans h.idom⟩

theorem Same.grown (h : Same w z b) : Grown w z b :=
  ⟨h.phis, h.body ▸ List.prefix_rfl, h.preds, h.before, h.idom⟩

/-- A block only got edges in. -/
structure Entered (w z : View) (b : BlockId) : Prop where
  phis : z.phis b = w.phis b
  body : z.body b = w.body b
  preds : w.preds b <+: z.preds b
  succs : z.succs b = w.succs b
  before : z.before b = w.before b
  after : z.after b = w.after b
  idom : z.idom b = w.idom b

theorem Entered.trans {y : View} (h : Entered w z b) (k : Entered z y b) : Entered w y b :=
  ⟨k.phis.trans h.phis, k.body.trans h.body, h.preds.trans k.preds, k.succs.trans h.succs,
    k.before.trans h.before, k.after.trans h.after, k.idom.trans h.idom⟩

theorem Same.entered (h : Same w z b) : Entered w z b :=
  ⟨h.phis, h.body, h.preds ▸ List.prefix_rfl, h.succs, h.before, h.after, h.idom⟩

theorem Entered.preds_ne (h : Entered w z b) (hne : w.preds b ≠ []) : z.preds b ≠ [] := by
  obtain ⟨more, hmore⟩ := h.preds
  rw [← hmore]
  simp [hne]

/-- A step that adds to the program and changes no block but those in `S`. -/
structure Keeps (w z : View) (S : BlockId → Prop) : Prop where
  values : w.values ≤ z.values
  op : ∀ v o, w.op v = some o → z.op v = some o
  owner : ∀ v, w.op v ≠ none → z.owner v = w.owner v
  kind : ∀ b k, w.kind b = some k → z.kind b = some k
  home : ∀ b m, w.home b = some m → z.home b = some m
  idom : ∀ b d, w.idom b = some d → z.idom b = some d
  after : ∀ b st, w.after b = some st → z.after b = some st
  owned : ∀ b m, b ∈ w.owned m → b ∈ z.owned m
  owned_old : ∀ b m, b ∈ z.owned m → w.kind b ≠ none → b ∈ w.owned m
  sort : z.sort = w.sort
  entry : z.entry = w.entry
  exits : z.exit = w.exit
  symbols : z.symbols = w.symbols
  globals : z.globals = w.globals
  same : ∀ b, w.kind b ≠ none → ¬S b → Same w z b

namespace Keeps

variable {y : View} {S T : BlockId → Prop} {v : ValueId}

theorem refl (w : View) : Keeps w w fun _ => False :=
  ⟨Nat.le_refl _, fun _ _ h => h, fun _ _ => rfl, fun _ _ h => h, fun _ _ h => h, fun _ _ h => h,
    fun _ _ h => h, fun _ _ h => h, fun _ _ h _ => h, rfl, rfl, rfl, rfl, rfl,
    fun b _ _ => .refl w b⟩

section

variable (h : Keeps w z S)
include h

theorem exists_op (hv : w.op v ≠ none) : z.op v ≠ none := by
  obtain ⟨o, ho⟩ := Option.ne_none_iff_exists'.1 hv
  simp [h.op v o ho]

theorem exists_kind (hb : w.kind b ≠ none) : z.kind b ≠ none := by
  obtain ⟨k, hk⟩ := Option.ne_none_iff_exists'.1 hb
  simp [h.kind b k hk]

theorem trans (k : Keeps z y T) : Keeps w y fun b => S b ∨ T b where
  values := h.values.trans k.values
  op v o hv := k.op v o (h.op v o hv)
  owner v hv := (k.owner v (h.exists_op hv)).trans (h.owner v hv)
  kind b x hb := k.kind b x (h.kind b x hb)
  home b m hb := k.home b m (h.home b m hb)
  idom b d hb := k.idom b d (h.idom b d hb)
  after b st hb := k.after b st (h.after b st hb)
  owned b m hb := k.owned b m (h.owned b m hb)
  owned_old b m hb hw := h.owned_old b m (k.owned_old b m hb (h.exists_kind hw)) hw
  sort := k.sort.trans h.sort
  entry := k.entry.trans h.entry
  exits := k.exits.trans h.exits
  symbols := k.symbols.trans h.symbols
  globals := k.globals.trans h.globals
  same b hb hS := (h.same b hb fun hs => hS (Or.inl hs)).trans
    (k.same b (h.exists_kind hb) fun hs => hS (Or.inr hs))

theorem weaken (hST : ∀ b, w.kind b ≠ none → S b → T b) : Keeps w z T :=
  { h with same := fun b hb hT => h.same b hb fun hS => hT (hST b hb hS) }

theorem sole (ht : w.Tables) (hkind : z.kind = w.kind)
    (hw : ∀ b m, w.kind b = some .exit → w.home b = some m → w.exit m = some b) (b : BlockId)
    (m : MethodId) (hb : z.kind b = some .exit) (hm : z.home b = some m) : z.exit m = some b := by
  rw [hkind] at hb
  obtain ⟨n, hn⟩ := Option.ne_none_iff_exists'.1 fun hnone => by
    rw [ht.home_none.1 hnone] at hb
    cases hb
  obtain rfl := Option.some.inj ((h.home b n hn).symm.trans hm)
  rw [h.exits]
  exact hw b n hb hn

theorem tracked (m : MethodId) : z.tracked m = w.tracked m := by
  unfold View.tracked View.scopeOf
  rw [h.sort, h.symbols, h.globals]

theorem hasValue (hv : w.HasValue v) : z.HasValue v := by
  obtain ⟨o, ho, hhas⟩ := hv
  exact ⟨o, h.op v o ho, hhas⟩

theorem definedAbove (hval : w.HasValue v) (hv : w.DefinedAbove v b) : z.DefinedAbove v b := by
  obtain ⟨d, hd, habove⟩ := hv
  exact ⟨d, by rw [h.owner v hval.exists_op, hd], habove.mono h.idom⟩

theorem usable {c : Cursor} (hv : w.Usable c v) : z.Usable c v :=
  ⟨h.hasValue hv.1, fun hc => h.definedAbove hv.1 (hv.2 hc)⟩

theorem or_same (hb : w.kind b ≠ none) : S b ∨ Same w z b := by
  by_cases hS : S b
  · exact Or.inl hS
  · exact Or.inr (h.same b hb hS)

theorem after_of_ne (hb : w.after b ≠ none) : z.after b ≠ none := by
  obtain ⟨st, hst⟩ := Option.ne_none_iff_exists'.1 hb
  simp [h.after b st hst]

end

end Keeps

theorem Same.live (h : Same w z b) : z.Live b ↔ w.Live b := by
  rw [Live, Live, IsEntry, IsEntry, h.kind, h.preds]

/-- A block that is left alone stays open. -/
theorem Open.keep {S : BlockId → Prop} {c : Cursor} (h : w.Open c) (k : Keeps w z S)
    (hc : ¬S c.block) : z.Open c := by
  have hsame := k.same c.block h.present hc
  refine
    { present := hsame.kind ▸ h.present
      home := hsame.home ▸ h.home
      owned := k.owned _ _ h.owned
      opened := hsame.after ▸ h.opened
      straight := fun u hu => ?_
      not_exit := hsame.kind ▸ h.not_exit
      exit_apart := fun b hb => ?_
      rooted := fun e he => ?_
      live := h.live.trans hsame.live.symm
      bound := k.tracked c.method ▸ h.bound
      usable := fun x v hv => k.usable (h.usable x v hv) }
  · obtain ⟨o, ho, hno⟩ := h.straight u (hsame.body ▸ hu)
    exact ⟨o, k.op u o ho, hno⟩
  · rw [k.exits] at hb
    exact ⟨k.exists_kind (h.exit_apart b hb).1, (h.exit_apart b hb).2⟩
  · rw [k.entry] at he
    exact (h.rooted e he).mono k.idom

/-! ## What a piece of the construction does -/

/-- What was built at the cursor `c` since `w`: the block there only grew, and
the exit of the method was only entered. -/
structure Since (w : View) (c : Cursor) (z : View) : Prop
    extends Keeps w z (fun b => b = c.block ∨ w.exit c.method = some b) where
  start : Grown w z c.block
  exit : ∀ b, w.exit c.method = some b → Entered w z b
  new_home : ∀ b, w.kind b = none → z.kind b ≠ none → z.home b = some c.method

theorem Since.refl (w : View) (c : Cursor) : Since w c w where
  toKeeps := (Keeps.refl w).weaken fun _ _ => False.elim
  start := (Same.refl w _).grown
  exit b _ := (Same.refl w b).entered
  new_home _ h h' := absurd h h'

/-- One more step. What it does to blocks that are new since `w` does not
matter. -/
theorem Since.step {y : View} {c : Cursor} {S : BlockId → Prop} (h : Since w c z) (hc : w.Open c)
    (k : Keeps z y S) (hnew : ∀ b, z.kind b = none → y.kind b ≠ none → y.home b = some c.method)
    (hS : ∀ b, S b → w.kind b = none ∨ b = c.block ∧ Grown z y b
      ∨ w.exit c.method = some b ∧ Entered z y b) : Since w c y where
  toKeeps := by
    refine (h.toKeeps.trans k).weaken fun b hb hs => ?_
    rcases hs with hs | hs
    · exact hs
    · rcases hS b hs with hnew | ⟨rfl, -⟩ | ⟨he, -⟩
      · exact absurd hnew hb
      · exact Or.inl rfl
      · exact Or.inr he
  start := by
    by_cases hs : S c.block
    · rcases hS c.block hs with hnew | ⟨-, hgrown⟩ | ⟨he, -⟩
      · exact absurd hnew hc.present
      · exact h.start.trans hgrown
      · exact absurd rfl (hc.exit_apart _ he).2
    · exact h.start.trans (k.same c.block (h.exists_kind hc.present) hs).grown
  exit b hb := by
    obtain ⟨hpresent, hne⟩ := hc.exit_apart b hb
    by_cases hs : S b
    · rcases hS b hs with hnew | ⟨rfl, -⟩ | ⟨-, hentered⟩
      · exact absurd hnew hpresent
      · exact absurd rfl hne
      · exact (h.exit b hb).trans hentered
    · exact (h.exit b hb).trans (k.same b (h.exists_kind hpresent) hs).entered
  new_home b hb hy := by
    by_cases hz : z.kind b = none
    · exact hnew b hz hy
    · exact k.home b _ (h.new_home b hb hz)

/-- Something built at a cursor of the same method, in the same block or in one
that is new. -/
theorem Since.trans {y : View} {c d : Cursor} (h : Since w c z) (k : Since z d y) (hc : w.Open c)
    (hm : d.method = c.method) (hd : d.block = c.block ∨ w.kind d.block = none) : Since w c y := by
  refine h.step hc k.toKeeps (fun b hb hy => hm ▸ k.new_home b hb hy) fun b hb => ?_
  rcases hb with rfl | hb
  · rcases hd with hd | hd
    · exact Or.inr (Or.inl ⟨hd, k.start⟩)
    · exact Or.inl hd
  · refine Or.inr (Or.inr ⟨?_, k.exit b hb⟩)
    rwa [h.exits, hm] at hb

/-- The construction went from the cursor `c` to the cursor `d`. -/
structure Advance (w : View) (c : Cursor) (z : View) (d : Cursor) : Prop extends Since w c z where
  method : d.method = c.method
  place : d.block = c.block ∨ w.kind d.block = none
  /-- A block the cursor has left is sealed. -/
  moved : d.block ≠ c.block → z.after c.block ≠ none
  sealed : ∀ b, w.kind b = none → z.kind b ≠ none → b ≠ d.block → z.after b ≠ none
  above : Above z.idom c.block d.block
  live : d.reachable = true → c.reachable = true
  /-- What is bound was bound before or is new. -/
  fresh : ∀ x v, d.bindings.get? x = some v → (∃ y, c.bindings.get? y = some v) ∨ w.values ≤ v.index

namespace Advance

variable {y : View} {c d e : Cursor}

theorem refl (w : View) (c : Cursor) : Advance w c w c where
  toSince := .refl w c
  method := rfl
  place := Or.inl rfl
  moved h := absurd rfl h
  sealed _ h h' := absurd h h'
  above := .refl _
  live h := h
  fresh x _ h := Or.inl ⟨x, h⟩

theorem trans (h : Advance w c z d) (k : Advance z d y e) (hc : w.Open c) : Advance w c y e where
  toSince := h.toSince.trans k.toSince hc h.method h.place
  method := k.method.trans h.method
  place := by
    rcases k.place with he | he
    · rw [he]
      exact h.place
    · exact Or.inr (Classical.not_not.1 fun hw => h.exists_kind hw he)
  moved he := by
    by_cases hd : d.block = c.block
    · rw [← hd] at he ⊢
      exact k.moved he
    · exact k.after_of_ne (h.moved hd)
  sealed b hb hy he := by
    by_cases hz : z.kind b = none
    · exact k.sealed b hz hy he
    · by_cases hbd : b = d.block
      · rw [hbd] at he ⊢
        exact k.moved (Ne.symm he)
      · exact k.after_of_ne (h.sealed b hb hz hbd)
  above := (h.above.mono k.idom).trans k.above
  live he := h.live (k.live he)
  fresh x v hv := by
    rcases k.fresh x v hv with ⟨y, hy⟩ | hlt
    · exact h.fresh y v hy
    · exact Or.inr (h.values.trans hlt)

end Advance

/-- What may be read stays so. -/
theorem Usable.advance {c d : Cursor} {v : ValueId} (h : w.Usable c v) (ha : Advance w c z d) :
    z.Usable d v := by
  refine ⟨ha.hasValue h.1, fun hd => ?_⟩
  obtain ⟨a, hown, habove⟩ := ha.definedAbove h.1 (h.2 (ha.live hd))
  exact ⟨a, hown, habove.trans ha.above⟩

/-! ## Single operations -/

section Operations

theorem op_add (ht : w.Tables) {op : Op} {owner : Option BlockId} {v : ValueId} {o : Op}
    (hv : w.op v = some o) : (w.add op owner).op v = some o := by
  show (if v = ⟨w.values⟩ then some op else w.op v) = some o
  rw [if_neg (ht.ne_fresh (by simp [hv])), hv]

theorem keeps_add (ht : w.Tables) (op : Op) (owner : Option BlockId) :
    Keeps w (w.add op owner) fun _ => False :=
  { Keeps.refl w with
    values := Nat.le_succ _
    op := fun _ _ hv => op_add ht hv
    owner := fun _ hv => if_neg (ht.ne_fresh hv)
    same := fun _ _ _ => ⟨rfl, rfl, rfl, rfl, rfl, rfl, rfl, rfl, rfl⟩ }

theorem keeps_emit (ht : w.Tables) (b : BlockId) (op : Op) : Keeps w (w.emit b op) (· = b) :=
  { keeps_add ht op (some b) with
    same := fun _ _ hc => ⟨rfl, rfl, rfl, if_neg hc, rfl, rfl, rfl, rfl, rfl⟩ }

theorem keeps_addPhi (ht : w.Tables) (b : BlockId) (x : String) (os : List (BlockId × ValueId)) :
    Keeps w (w.addPhi b x os) (· = b) :=
  { keeps_add ht (.phi x os) (some b) with
    same := fun _ _ hc => ⟨rfl, rfl, if_neg hc, rfl, rfl, rfl, rfl, rfl, rfl⟩ }

theorem keeps_newBlock (ht : w.Tables) (m : MethodId) (kind : BlockKind) :
    Keeps w (w.newBlock m kind) fun _ => False := by
  have hne {b : BlockId} (hb : w.kind b ≠ none) : b ≠ ⟨w.blocks⟩ := by
    rintro rfl
    exact hb ht.fresh_kind
  refine
    { Keeps.refl w with
      kind := fun b k hb => ?_
      home := fun b n hb => ?_
      owned := fun b n hb => ?_
      owned_old := fun b n hb hw => ?_
      same := fun b hb _ =>
        ⟨if_neg (hne hb), if_neg (hne hb), rfl, rfl, rfl, rfl, rfl, rfl, rfl⟩ }
  · exact (if_neg (hne (by simp [hb]))).trans hb
  · exact (if_neg (hne (ht.present_of_home hb))).trans hb
  · show b ∈ if n = m then w.owned m ++ [⟨w.blocks⟩] else w.owned n
    split
    · next hn => exact List.mem_append_left _ (hn ▸ hb)
    · exact hb
  · change b ∈ (if n = m then w.owned m ++ [⟨w.blocks⟩] else w.owned n) at hb
    split at hb
    · next hn =>
        rcases List.mem_append.1 hb with hb | hb
        · exact hn ▸ hb
        · exact absurd (List.mem_singleton.1 hb) (hne hw)
    · exact hb

theorem new_home_newBlock (w : View) (m : MethodId) (kind : BlockKind) (b : BlockId)
    (hb : w.kind b = none) (hz : (w.newBlock m kind).kind b ≠ none) :
    (w.newBlock m kind).home b = some m := by
  change (if b = ⟨w.blocks⟩ then some kind else w.kind b) ≠ none at hz
  split at hz
  · next h => exact if_pos h
  · exact absurd hb hz

theorem keeps_setAfter (st : Bindings) (hopen : w.after b = none) :
    Keeps w (w.setAfter b st) (· = b) := by
  refine
    { Keeps.refl w with
      after := fun c st' hc => (if_neg ?_).trans hc
      same := fun c _ hc => ⟨rfl, rfl, rfl, rfl, rfl, rfl, rfl, if_neg hc, rfl⟩ }
  rintro rfl
  rw [hopen] at hc
  cases hc

theorem keeps_setIdom (d : BlockId) (hnone : w.idom b = none) :
    Keeps w (w.setIdom b d) (· = b) := by
  refine
    { Keeps.refl w with
      idom := fun c e hc => (if_neg ?_).trans hc
      same := fun c _ hc => ⟨rfl, rfl, rfl, rfl, rfl, rfl, rfl, rfl, if_neg hc⟩ }
  rintro rfl
  rw [hnone] at hc
  cases hc

theorem keeps_setBefore (b : BlockId) (st : Bindings) : Keeps w (w.setBefore b st) (· = b) :=
  { Keeps.refl w with
    same := fun _ _ hc => ⟨rfl, rfl, rfl, rfl, rfl, rfl, if_neg hc, rfl, rfl⟩ }

theorem keeps_link (a b : BlockId) : Keeps w (w.link a b) fun c => c = a ∨ c = b :=
  { Keeps.refl w with
    same := fun _ _ hc => ⟨rfl, rfl, rfl, rfl, if_neg fun h => hc (Or.inr h),
      if_neg fun h => hc (Or.inl h), rfl, rfl, rfl⟩ }

end Operations

/-! ## Adding an instruction -/

section Emit

variable {c : Cursor} {op : Op}

theorem body_emit (w : View) (b : BlockId) (op : Op) :
    (w.emit b op).body b = w.body b ++ [⟨w.values⟩] :=
  if_pos rfl

theorem grown_emit (w : View) (b : BlockId) (op : Op) : Grown w (w.emit b op) b :=
  ⟨rfl, body_emit w b op ▸ List.prefix_append .., rfl, rfl, rfl⟩

theorem Advance.emit (hc : w.Open c) (ht : w.Tables) (op : Op) :
    Advance w c (w.emit c.block op) c :=
  { Advance.refl w c with
    toSince := (Since.refl w c).step hc (keeps_emit ht c.block op) (fun _ h h' => absurd h h')
      fun _ hb => Or.inr (Or.inl ⟨hb, hb ▸ grown_emit w c.block op⟩)
    sealed := fun _ h h' => absurd h h' }

theorem Ended.emit (hr : w.Placed c) (ht : w.Tables) (op : Op) : (w.emit c.block op).Ended := by
  refine hr.ended.of_kept (b := c.block) (keeps_emit ht c.block op).op ?_ ?_
  · intro b hb hl hafter
    exact ⟨hl, hafter, if_neg hb, rfl⟩
  · intro _ hafter
    exact absurd hr.opened hafter

theorem Ready.emit (hr : w.Ready c) (ht : w.Tables) (hphi : op.isPhi = false)
    (hterm : op.isTerminator = false) (hops : ∀ v ∈ op.operands, w.Usable c v) :
    (w.emit c.block op).Ready c := by
  refine
    { hr with
      wired := hr.wired.emit ht hr.listed hphi fun v hv => (hops v hv).1
      scoping := hr.scoping.emit hr.wired ht fun hl v hv => (hops v hv).2 (hr.live.2 hl)
      ended := Ended.emit hr.toPlaced ht op
      straight := fun u hu => ?_
      usable := fun x v hv => (keeps_emit ht c.block op).usable (hr.usable x v hv) }
  rw [body_emit] at hu
  rcases List.mem_append.1 hu with hu | hu
  · obtain ⟨o, ho, hno⟩ := hr.straight u hu
    exact ⟨o, (keeps_emit ht c.block op).op u o ho, hno⟩
  · rw [List.mem_singleton] at hu
    exact ⟨op, by simp [View.emit, View.add, hu], hterm⟩

/-- The value of a new instruction may be read at once. -/
theorem usable_emit (hv : op.hasValue = true) : (w.emit c.block op).Usable c ⟨w.values⟩ := by
  refine ⟨⟨op, by simp [View.emit, View.add], hv⟩, fun _ => ⟨c.block, ?_, .refl _⟩⟩
  simp [View.emit, View.add]

end Emit

/-! ## Binding a name -/

theorem Placed.bind {c : Cursor} (hp : w.Placed c) (x : String) {v : ValueId} (hv : w.Usable c v) :
    w.Placed { c with bindings := c.bindings.bind x v } := by
  refine
    { hp with
      bound := fun y hy => ?_
      usable := fun y u hu => ?_ }
  · by_cases hyx : y = x
    · exact ⟨v, by simp [hyx]⟩
    · obtain ⟨u, hu⟩ := hp.bound y hy
      exact ⟨u, by simp [hyx, hu]⟩
  · rw [Bindings.get?_bind] at hu
    split at hu
    · obtain rfl := Option.some.inj hu
      exact hv
    · exact hp.usable y u hu

theorem Ready.bind {c : Cursor} (hr : w.Ready c) {x : String} {v : ValueId} (hv : w.Usable c v)
    (hx : c.reachable = true → x ∈ w.tracked c.method) :
    w.Ready { c with bindings := c.bindings.bind x v } := by
  refine ⟨hr.toPlaced.bind x hv, fun hl y u hu => ?_⟩
  rw [Bindings.get?_bind] at hu
  split at hu
  · next hyx => exact hyx ▸ hx hl
  · exact hr.known hl y u hu

/-- A value that was bound at `c` or did not exist there. -/
def Sourced (w : View) (c : Cursor) (v : ValueId) : Prop :=
  (∃ y, c.bindings.get? y = some v) ∨ w.values ≤ v.index

theorem Sourced.advance {c d : Cursor} {v : ValueId} (ha : Advance w c z d) (h : z.Sourced d v) :
    w.Sourced c v := by
  rcases h with ⟨y, hy⟩ | hlt
  · exact ha.fresh y v hy
  · exact Or.inr (ha.values.trans hlt)

theorem Advance.bind {c d : Cursor} (ha : Advance w c z d) {x : String} {v : ValueId}
    (hv : w.Sourced c v) : Advance w c z { d with bindings := d.bindings.bind x v } := by
  refine { ha with fresh := fun y u hu => ?_ }
  rw [Bindings.get?_bind] at hu
  split at hu
  · obtain rfl := Option.some.inj hu
    exact hv
  · exact ha.fresh y u hu

end View

end StructuredSsa
