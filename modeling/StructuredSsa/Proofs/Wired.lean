import StructuredSsa.Proofs.Walk

/-!
# Tables, edges and use-lists that agree

`View.Wired` collects what the tables of a program under construction owe each
other: an instruction is owned by the block that lists it, an edge is recorded
on both ends, a use-list names readers. Entry blocks have no predecessors, and
every edge starts at a block that walks from an entry lead to.

What control cannot get to is exempt where the construction does not care:
dead code may read values of blocks that are removed before its own.

There is one lemma for every operation, with the conditions under which the
construction uses it.
-/

namespace StructuredSsa

namespace View

/-! ## Every view -/

/-- What holds of the view of any program: handles in use are those below the
size of their table, and nothing is recorded for others. -/
structure Tables (w : View) : Prop where
  op_none : ∀ {v : ValueId}, w.op v = none ↔ w.values ≤ v.index
  owner_none : ∀ {v : ValueId}, w.op v = none → w.owner v = none
  user_none : ∀ {v u : ValueId}, w.op v = none → ¬w.user v u
  kind_none : ∀ {b : BlockId}, w.kind b = none ↔ w.blocks ≤ b.index
  home_none : ∀ {b : BlockId}, w.home b = none ↔ w.kind b = none
  absent : ∀ {b : BlockId}, w.kind b = none → w.phis b = [] ∧ w.body b = [] ∧ w.preds b = []
    ∧ w.succs b = [] ∧ w.before b = none ∧ w.after b = none ∧ w.idom b = none
  sort_none : ∀ {m : MethodId}, w.sort m = none ↔ w.methods ≤ m.index
  entry_none : ∀ {m : MethodId}, w.entry m = none ↔ w.sort m = none
  owned_none : ∀ {m : MethodId}, w.sort m = none → w.owned m = []
  exit_none : ∀ {m : MethodId}, w.sort m = none → w.exit m = none
  symbols_none : ∀ {m : MethodId}, w.sort m = none → w.symbols m = .empty

end View

theorem Program.view_tables (p : Program) : p.view.Tables where
  op_none := view_op_eq_none
  owner_none {v} h := by
    have : p.instr? v = none := by simpa [view] using h
    simp [view, this]
  user_none {v u} h := by
    have : p.instr? v = none := by simpa [view] using h
    simp [view, this]
  kind_none := view_kind_eq_none
  home_none := by simp [view]
  absent {b} h := by
    have : p.block? b = none := by simpa [view] using h
    simp [view, phis, preds, succs, leaving?, this]
  sort_none := view_sort_eq_none
  entry_none := by simp [view]
  owned_none {m} h := by
    have : p.method? m = none := by simpa [view] using h
    simp [view, blocksOf, this]
  exit_none {m} h := by
    have : p.method? m = none := by simpa [view] using h
    simp [view, this]
  symbols_none {m} h := by
    have : p.method? m = none := by simpa [view] using h
    simp [view, this]

namespace View

/-! ## The invariant -/

/-- A block is where its method starts. -/
def IsEntry (w : View) (b : BlockId) : Prop := ∃ vs, w.kind b = some (.entry vs)

/-- Control can get to a block: it is an entry, or there is an edge to it. -/
def Live (w : View) (b : BlockId) : Prop := w.IsEntry b ∨ w.preds b ≠ []

section Present

variable {w : View} {b : BlockId} {m : MethodId} {k : BlockKind}

theorem Tables.present_of_home (ht : w.Tables) (h : w.home b = some m) : w.kind b ≠ none := by
  rw [Ne, ← ht.home_none, h]
  simp

theorem Tables.present_of_live (ht : w.Tables) (hb : w.Live b) : w.kind b ≠ none := by
  intro hnone
  rcases hb with ⟨vs, hvs⟩ | hpreds
  · rw [hnone] at hvs
    cases hvs
  · exact hpreds (ht.absent hnone).2.2.1

theorem not_isEntry_of_kind (h : w.kind b = some k) (hk : ∀ vs, k ≠ .entry vs) : ¬w.IsEntry b := by
  rintro ⟨vs, hvs⟩
  exact hk vs (Option.some.inj (h.symm.trans hvs))

theorem not_live_of_kind (h : w.kind b = some k) (hk : ∀ vs, k ≠ .entry vs)
    (hpreds : w.preds b = []) : ¬w.Live b := by
  rintro (hentry | hne)
  · exact not_isEntry_of_kind h hk hentry
  · exact hne hpreds

end Present

/-- A value that instructions can read. -/
def HasValue (w : View) (v : ValueId) : Prop := ∃ op, w.op v = some op ∧ op.hasValue = true

/-- Tables, edges and use-lists agree. -/
structure Wired (w : View) : Prop where
  /-- An instruction is owned by the one block that lists it. -/
  listed : ∀ v b, v ∈ w.contents b ↔ w.owner v = some b
  phi_of_phis : ∀ v b, v ∈ w.phis b → ∃ x os, w.op v = some (.phi x os)
  not_phi_of_body : ∀ v b, v ∈ w.body b → ∃ op, w.op v = some op ∧ op.isPhi = false
  /-- Instructions stand in the order of their creation. -/
  phis_sorted : ∀ b, (w.phis b).Pairwise (·.index < ·.index)
  body_sorted : ∀ b, (w.body b).Pairwise (·.index < ·.index)
  operand_lt : ∀ u v op, w.op u = some op → op.isPhi = false → v ∈ op.operands → v.index < u.index
  operand_value : ∀ u v op, w.op u = some op → v ∈ op.operands → w.HasValue v
  user_reads : ∀ v u, w.user v u → v ∈ w.operands u
  reads_user : ∀ u b v, w.owner u = some b → w.Live b → v ∈ w.operands u → w.user v u
  edge : ∀ a b, b ∈ w.succs a ↔ a ∈ w.preds b
  succs_nodup : ∀ b, (w.succs b).Nodup
  preds_nodup : ∀ b, (w.preds b).Nodup
  edge_live : ∀ a b, b ∈ w.succs a → w.Live a
  edge_home : ∀ a b, b ∈ w.succs a → w.home b = w.home a
  edge_sealed : ∀ a b, b ∈ w.succs a → w.after a ≠ none
  entry_preds : ∀ b, w.IsEntry b → w.preds b = []
  entry_home : ∀ b m, w.IsEntry b → w.home b = some m → w.entry m = some b
  isEntry_entry : ∀ b m, w.entry m = some b → w.IsEntry b ∧ w.home b = some m
  home_sort : ∀ b m, w.home b = some m → w.sort m ≠ none
  owned_home : ∀ b m, b ∈ w.owned m → w.home b = some m
  owned_nodup : ∀ m, (w.owned m).Nodup
  /-- Instructions stand in blocks that their method lists. -/
  owner_owned : ∀ v b m, w.owner v = some b → w.home b = some m → b ∈ w.owned m
  live_owned : ∀ b m, w.Live b → w.home b = some m → b ∈ w.owned m
  live_reached : ∀ b m e, w.Live b → w.home b = some m → w.entry m = some e → Reaches w.succs e b
  phis_preds : ∀ b, w.phis b ≠ [] → w.preds b ≠ []
  exit_succs : ∀ b, w.kind b = some .exit → w.succs b = []
  /-- Nothing but an exit follows a block that an exit follows. -/
  exit_only : ∀ a b, b ∈ w.succs a → w.kind b = some .exit → w.succs a = [b]
  after_value : ∀ b st x v, w.after b = some st → st.get? x = some v → w.HasValue v

/-! ## Reading the views of operations -/

section

variable {w : View} (ht : w.Tables)
include ht

theorem Tables.fresh_op : w.op ⟨w.values⟩ = none :=
  ht.op_none.2 (Nat.le_refl _)

theorem Tables.fresh_kind : w.kind ⟨w.blocks⟩ = none :=
  ht.kind_none.2 (Nat.le_refl _)

theorem Tables.ne_fresh {v : ValueId} (h : w.op v ≠ none) : v ≠ ⟨w.values⟩ := by
  rintro rfl
  exact h ht.fresh_op

theorem Tables.index_lt {v : ValueId} (h : w.op v ≠ none) : v.index < w.values := by
  rcases Nat.lt_or_ge v.index w.values with hlt | hge
  · exact hlt
  · exact absurd (ht.op_none.2 hge) h

end

theorem HasValue.exists_op {w : View} {v : ValueId} (h : w.HasValue v) : w.op v ≠ none := by
  obtain ⟨op, hop, -⟩ := h
  simp [hop]

theorem HasValue.add {w : View} (ht : w.Tables) (op : Op) (owner : Option BlockId) {v : ValueId}
    (h : w.HasValue v) : (w.add op owner).HasValue v := by
  obtain ⟨o, ho, hhas⟩ := h
  refine ⟨o, ?_, hhas⟩
  show (if v = ⟨w.values⟩ then some op else w.op v) = some o
  rw [if_neg (ht.ne_fresh (by simp [ho])), ho]

theorem operands_add (w : View) (op : Op) (owner : Option BlockId) (u : ValueId) :
    (w.add op owner).operands u = if u = ⟨w.values⟩ then op.operands else w.operands u := by
  unfold operands add
  split <;> simp_all

theorem Wired.op_of_contents {w : View} (h : w.Wired) {v : ValueId} {b : BlockId}
    (hv : v ∈ w.contents b) : w.op v ≠ none := by
  rcases List.mem_append.1 hv with hv | hv
  · obtain ⟨x, os, hop⟩ := h.phi_of_phis v b hv
    simp [hop]
  · obtain ⟨op, hop, -⟩ := h.not_phi_of_body v b hv
    simp [hop]

/-- The fields of `Wired` that only a new value touches. -/
theorem Wired.add_values {w : View} (h : w.Wired) (ht : w.Tables) (op : Op) (b : BlockId)
    (hlt : op.isPhi = false → ∀ v ∈ op.operands, w.op v ≠ none)
    (hops : ∀ v ∈ op.operands, w.HasValue v) :
    (∀ u v o, (w.add op (some b)).op u = some o → o.isPhi = false → v ∈ o.operands →
        v.index < u.index)
      ∧ (∀ u v o, (w.add op (some b)).op u = some o → v ∈ o.operands →
        (w.add op (some b)).HasValue v)
      ∧ (∀ v u, (w.add op (some b)).user v u → v ∈ (w.add op (some b)).operands u)
      ∧ (∀ u c v, (w.add op (some b)).owner u = some c → w.Live c →
        v ∈ (w.add op (some b)).operands u → (w.add op (some b)).user v u) := by
  have hvalue {v : ValueId} (hv : w.HasValue v) : (w.add op (some b)).HasValue v := hv.add ht op (some b)
  refine ⟨fun u v o ho hphi hv => ?_, fun u v o ho hv => ?_, fun v u hu => ?_, fun u c v hc hl hv => ?_⟩
  · simp only [View.add] at ho
    split at ho
    · next hu =>
        obtain rfl := Option.some.inj ho
        exact hu ▸ ht.index_lt (hlt hphi v hv)
    · exact h.operand_lt u v o ho hphi hv
  · simp only [View.add] at ho
    split at ho
    · obtain rfl := Option.some.inj ho
      exact hvalue (hops v hv)
    · exact hvalue (h.operand_value u v o ho hv)
  · rw [operands_add]
    rcases hu with hu | ⟨rfl, hv⟩
    · have hreads := h.user_reads v u hu
      split
      · next hfresh =>
          rw [hfresh, operands, ht.fresh_op] at hreads
          cases hreads
      · exact hreads
    · rw [if_pos rfl]
      exact hv
  · rw [operands_add] at hv
    simp only [View.add] at hc
    split at hv
    · next hu => exact Or.inr ⟨hu, hv⟩
    · next hu =>
        rw [if_neg hu] at hc
        exact Or.inl (h.reads_user u c v hc hl hv)

/-- Appending the newest value keeps a list in order of creation. -/
theorem sorted_append {w : View} (ht : w.Tables) {l : List ValueId}
    (hl : l.Pairwise (·.index < ·.index)) (hex : ∀ v ∈ l, w.op v ≠ none) :
    (l ++ [(⟨w.values⟩ : ValueId)]).Pairwise (·.index < ·.index) := by
  rw [List.pairwise_append]
  refine ⟨hl, List.pairwise_singleton _ _, fun u hu v hv => ?_⟩
  rw [List.mem_singleton] at hv
  subst hv
  exact ht.index_lt (hex u hu)

section

variable {w : View} (h : w.Wired)
include h

theorem Wired.owner_fresh (ht : w.Tables) (b : BlockId) :
    (⟨w.values⟩ : ValueId) ∉ w.contents b := by
  intro hmem
  exact h.op_of_contents hmem ht.fresh_op

/-- A new instruction of a listed block. -/
theorem Wired.owner_owned_add {b : BlockId} (op : Op) (hb : ∀ m, w.home b = some m → b ∈ w.owned m)
    (v : ValueId) (c : BlockId) (m : MethodId) (hv : (w.add op (some b)).owner v = some c)
    (hc : w.home c = some m) : c ∈ w.owned m := by
  change (if v = ⟨w.values⟩ then some b else w.owner v) = some c at hv
  split at hv
  · obtain rfl := Option.some.inj hv
    exact hb m hc
  · exact h.owner_owned v c m hv hc

theorem Wired.emit (ht : w.Tables) {b : BlockId} {op : Op}
    (hb : ∀ m, w.home b = some m → b ∈ w.owned m) (hphi : op.isPhi = false)
    (hops : ∀ v ∈ op.operands, w.HasValue v) : (w.emit b op).Wired := by
  obtain ⟨h1, h2, h3, h4⟩ := h.add_values ht op b (fun _ v hv => (hops v hv).exists_op) hops
  refine { h with
    operand_lt := h1
    operand_value := h2
    user_reads := h3
    reads_user := h4
    owner_owned := h.owner_owned_add op hb
    after_value := fun c st x v hst hx => (h.after_value c st x v hst hx).add ht op (some b)
    listed := fun v c => ?_
    phi_of_phis := fun v c hv => ?_
    not_phi_of_body := fun v c hv => ?_
    body_sorted := fun c => ?_ }
  · show v ∈ w.phis c ++ (if c = b then w.body b ++ [⟨w.values⟩] else w.body c) ↔
      (if v = ⟨w.values⟩ then some b else w.owner v) = some c
    have hnot := h.owner_fresh ht c
    have hlisted := h.listed v c
    simp only [contents, List.mem_append] at hnot hlisted
    by_cases hv : v = ⟨w.values⟩
    · subst hv
      by_cases hc : c = b
      · simp [hc]
      · simp [hc, Ne.symm hc, hnot]
    · by_cases hc : c = b
      · subst hc; simp [hv, ← hlisted]
      · simp [hv, hc, ← hlisted]
  · obtain ⟨x, os, hop⟩ := h.phi_of_phis v c hv
    refine ⟨x, os, ?_⟩
    show (if v = ⟨w.values⟩ then some op else w.op v) = _
    rw [if_neg (ht.ne_fresh (by simp [hop])), hop]
  · have hmem : v ∈ w.body c ∨ v = ⟨w.values⟩ := by
      simp only [View.emit] at hv
      split at hv
      · next hc => rcases List.mem_append.1 hv with hv | hv <;> simp_all
      · exact Or.inl hv
    show ∃ o, (if v = ⟨w.values⟩ then some op else w.op v) = some o ∧ _
    rcases hmem with hmem | rfl
    · obtain ⟨o, ho, hno⟩ := h.not_phi_of_body v c hmem
      exact ⟨o, by rw [if_neg (ht.ne_fresh (by simp [ho])), ho], hno⟩
    · exact ⟨op, by simp, hphi⟩
  · show (if c = b then w.body b ++ [⟨w.values⟩] else w.body c).Pairwise _
    split
    · refine sorted_append ht (h.body_sorted b) fun v hv => ?_
      exact h.op_of_contents (List.mem_append_right _ hv)
    · exact h.body_sorted c

theorem Wired.addPhi (ht : w.Tables) {b : BlockId} {x : String} {os : List (BlockId × ValueId)}
    (hops : ∀ v ∈ os.map (·.2), w.HasValue v) (hpreds : w.preds b ≠ []) :
    (w.addPhi b x os).Wired := by
  obtain ⟨h1, h2, h3, h4⟩ := h.add_values ht (.phi x os) b (by simp [Op.isPhi]) hops
  refine { h with
    operand_lt := h1
    operand_value := h2
    user_reads := h3
    reads_user := h4
    owner_owned := h.owner_owned_add (.phi x os) fun m hm => h.live_owned b m (Or.inr hpreds) hm
    after_value := fun c st y v hst hx => (h.after_value c st y v hst hx).add ht (.phi x os) (some b)
    listed := fun v c => ?_
    phi_of_phis := fun v c hv => ?_
    not_phi_of_body := fun v c hv => ?_
    phis_sorted := fun c => ?_
    phis_preds := fun c hc => ?_ }
  · have hnot := h.owner_fresh ht c
    have hlisted := h.listed v c
    simp only [contents, List.mem_append, View.addPhi, View.add] at hnot hlisted ⊢
    grind
  · have hold := h.phi_of_phis v
    have hfresh := ht.fresh_op
    simp only [View.addPhi, View.add] at hv ⊢
    grind
  · obtain ⟨o, ho, hno⟩ := h.not_phi_of_body v c hv
    refine ⟨o, ?_, hno⟩
    show (if v = ⟨w.values⟩ then _ else w.op v) = _
    rw [if_neg (ht.ne_fresh (by simp [ho])), ho]
  · show (if c = b then w.phis b ++ [⟨w.values⟩] else w.phis c).Pairwise _
    split
    · refine sorted_append ht (h.phis_sorted b) fun v hv => ?_
      exact h.op_of_contents (List.mem_append_left _ hv)
    · exact h.phis_sorted c
  · simp only [View.addPhi] at hc
    by_cases hcb : c = b
    · exact hcb ▸ hpreds
    · rw [if_neg hcb] at hc
      exact h.phis_preds c hc

theorem Wired.setAfter {b : BlockId} {st : Bindings}
    (hst : ∀ x v, st.get? x = some v → w.HasValue v) : (w.setAfter b st).Wired := by
  refine { h with
    edge_sealed := fun a c hc => ?_
    after_value := fun c st' x v hst' hx => ?_ }
  · show (if a = b then some st else w.after a) ≠ none
    split
    · simp
    · exact h.edge_sealed a c hc
  · change (if c = b then some st else w.after c) = some st' at hst'
    split at hst'
    · obtain rfl := Option.some.inj hst'
      exact hst x v hx
    · exact h.after_value c st' x v hst' hx

theorem Wired.setIdom (b d : BlockId) : (w.setIdom b d).Wired :=
  { h with }

theorem Wired.setBefore (b : BlockId) (st : Bindings) : (w.setBefore b st).Wired :=
  { h with }

theorem Wired.setExit (m : MethodId) (b : Option BlockId) : (w.setExit m b).Wired :=
  { h with }

theorem Wired.newBlock (ht : w.Tables) {m : MethodId} {kind : BlockKind} (hm : w.sort m ≠ none)
    (hkind : ∀ vs, kind ≠ .entry vs) : (w.newBlock m kind).Wired := by
  have hfresh := ht.fresh_kind
  have hhome : w.home ⟨w.blocks⟩ = none := ht.home_none.2 hfresh
  have hpreds : w.preds ⟨w.blocks⟩ = [] := (ht.absent hfresh).2.2.1
  have hentry (b : BlockId) : (w.newBlock m kind).IsEntry b ↔ w.IsEntry b := by
    simp only [IsEntry, View.newBlock]
    by_cases hb : b = ⟨w.blocks⟩
    · subst hb
      simp [hfresh, hkind]
    · simp [hb]
  have hlive (b : BlockId) : (w.newBlock m kind).Live b ↔ w.Live b := by
    rw [Live, hentry]
    rfl
  have hhome' {b : BlockId} {n : MethodId} (hb : w.home b = some n) :
      (w.newBlock m kind).home b = some n := by
    show (if b = ⟨w.blocks⟩ then some m else w.home b) = some n
    rw [if_neg (by rintro rfl; rw [hhome] at hb; cases hb), hb]
  have hold {b : BlockId} {n : MethodId} (hb : (w.newBlock m kind).home b = some n) :
      (b = ⟨w.blocks⟩ ∧ n = m) ∨ w.home b = some n := by
    simp only [View.newBlock] at hb
    split at hb
    · next hbe => exact Or.inl ⟨hbe, (Option.some.inj hb).symm⟩
    · exact Or.inr hb
  have howned {b : BlockId} {n : MethodId} (hb : b ∈ w.owned n) :
      b ∈ (w.newBlock m kind).owned n := by
    show b ∈ if n = m then w.owned m ++ [⟨w.blocks⟩] else w.owned n
    split
    · next hn => exact List.mem_append_left _ (hn ▸ hb)
    · exact hb
  have hnotlive : ¬w.Live ⟨w.blocks⟩ := by
    rintro (⟨vs, hvs⟩ | hp)
    · rw [hfresh] at hvs
      cases hvs
    · exact hp hpreds
  refine { h with
    reads_user := fun u b v hu hl => h.reads_user u b v hu ((hlive b).1 hl)
    edge_live := fun a b hb => (hlive a).2 (h.edge_live a b hb)
    edge_home := fun a b hb => ?_
    entry_preds := fun b hb => h.entry_preds b ((hentry b).1 hb)
    entry_home := fun b n hb hn => ?_
    isEntry_entry := fun b n hn => ?_
    home_sort := fun b n hb => ?_
    owned_home := fun b n hb => ?_
    owned_nodup := fun n => ?_
    owner_owned := fun v b n hv hb => ?_
    live_owned := fun b n hl hb => ?_
    live_reached := fun b n e hl hb he => ?_
    exit_succs := fun b hb => ?_
    exit_only := fun a b hab hb => ?_ }
  · have hlv := h.edge_live a b hb
    have hap : w.preds b ≠ [] := List.ne_nil_of_mem ((h.edge a b).1 hb)
    show (if b = ⟨w.blocks⟩ then some m else w.home b) = if a = ⟨w.blocks⟩ then some m else w.home a
    rw [if_neg (by rintro rfl; exact hap hpreds), if_neg (by rintro rfl; exact hnotlive hlv)]
    exact h.edge_home a b hb
  · rcases hold hn with ⟨rfl, -⟩ | hn
    · exact absurd (Or.inl ((hentry _).1 hb)) hnotlive
    · exact h.entry_home b n ((hentry b).1 hb) hn
  · obtain ⟨h1, h2⟩ := h.isEntry_entry b n hn
    exact ⟨(hentry b).2 h1, hhome' h2⟩
  · rcases hold hb with ⟨-, rfl⟩ | hb
    · exact hm
    · exact h.home_sort b n hb
  · by_cases hn : n = m
    · subst hn
      simp only [View.newBlock, if_true, List.mem_append, List.mem_singleton] at hb
      rcases hb with hb | rfl
      · exact hhome' (h.owned_home b n hb)
      · simp [View.newBlock]
    · simp only [View.newBlock, if_neg hn] at hb
      exact hhome' (h.owned_home b n hb)
  · show (if n = m then w.owned m ++ [⟨w.blocks⟩] else w.owned n).Nodup
    split
    · refine List.nodup_append.2 ⟨h.owned_nodup m, List.nodup_singleton _, fun b hb c hc => ?_⟩
      rw [List.mem_singleton] at hc
      rintro rfl
      have := h.owned_home b m hb
      rw [hc, hhome] at this
      cases this
    · exact h.owned_nodup n
  · rcases hold hb with ⟨rfl, -⟩ | hb
    · have hmem := (h.listed v ⟨w.blocks⟩).2 hv
      obtain ⟨hphis, hbody, -⟩ := ht.absent hfresh
      simp [contents, hphis, hbody] at hmem
    · exact howned (h.owner_owned v b n hv hb)
  · rw [hlive] at hl
    rcases hold hb with ⟨rfl, -⟩ | hb
    · exact absurd hl hnotlive
    · exact howned (h.live_owned b n hl hb)
  · rw [hlive] at hl
    rcases hold hb with ⟨rfl, -⟩ | hb
    · exact absurd hl hnotlive
    · exact h.live_reached b n e hl hb he
  · by_cases hbe : b = ⟨w.blocks⟩
    · exact hbe ▸ (ht.absent hfresh).2.2.2.1
    · change (if b = ⟨w.blocks⟩ then _ else w.kind b) = _ at hb
      rw [if_neg hbe] at hb
      exact h.exit_succs b hb
  · have hbe : b ≠ ⟨w.blocks⟩ := by
      rintro rfl
      exact List.ne_nil_of_mem ((h.edge a _).1 hab) hpreds
    change (if b = ⟨w.blocks⟩ then _ else w.kind b) = _ at hb
    rw [if_neg hbe] at hb
    exact h.exit_only a b hab hb

theorem Wired.addMethod (ht : w.Tables) (kind : MethodKind) : (w.addMethod kind).Wired := by
  have hfresh := ht.fresh_kind
  have hhome : w.home ⟨w.blocks⟩ = none := ht.home_none.2 hfresh
  obtain ⟨hphis, hbody, hpreds, hsuccs, -⟩ := ht.absent hfresh
  have hsort : w.sort ⟨w.methods⟩ = none := ht.sort_none.2 (Nat.le_refl _)
  have hold {b : BlockId} {n : MethodId} (hb : (w.addMethod kind).home b = some n) :
      (b = ⟨w.blocks⟩ ∧ n = ⟨w.methods⟩) ∨ (b ≠ ⟨w.blocks⟩ ∧ w.home b = some n) := by
    simp only [View.addMethod] at hb
    split at hb
    · next hbe => exact Or.inl ⟨hbe, (Option.some.inj hb).symm⟩
    · next hbe => exact Or.inr ⟨hbe, hb⟩
  have hn {b : BlockId} {n : MethodId} (hb : w.home b = some n) : n ≠ ⟨w.methods⟩ := by
    rintro rfl
    exact h.home_sort b _ hb hsort
  have hhome' {b : BlockId} {n : MethodId} (hb : w.home b = some n) :
      (w.addMethod kind).home b = some n := by
    show (if b = ⟨w.blocks⟩ then some _ else w.home b) = some n
    rw [if_neg (by rintro rfl; rw [hhome] at hb; cases hb), hb]
  have hentry {b : BlockId} (hb : b ≠ ⟨w.blocks⟩) : (w.addMethod kind).IsEntry b ↔ w.IsEntry b := by
    simp [IsEntry, View.addMethod, hb]
  have hlive {b : BlockId} (hb : b ≠ ⟨w.blocks⟩) : (w.addMethod kind).Live b ↔ w.Live b := by
    rw [Live, hentry hb]
    rfl
  have hne {a b : BlockId} (hb : b ∈ w.succs a) : a ≠ ⟨w.blocks⟩ ∧ b ≠ ⟨w.blocks⟩ := by
    refine ⟨?_, ?_⟩ <;> rintro rfl
    · rw [hsuccs] at hb
      cases hb
    · rw [h.edge, hpreds] at hb
      cases hb
  refine { h with
    reads_user := fun u b v hu hl => ?_
    edge_live := fun a b hb => (hlive (hne hb).1).2 (h.edge_live a b hb)
    edge_home := fun a b hb => ?_
    entry_preds := fun b hb => ?_
    entry_home := fun b n hb hbn => ?_
    isEntry_entry := fun b n hbn => ?_
    home_sort := fun b n hb => ?_
    owned_home := fun b n hb => ?_
    owned_nodup := fun n => ?_
    owner_owned := fun v b n hv hb => ?_
    live_owned := fun b n hl hb => ?_
    live_reached := fun b n e hl hb he => ?_
    exit_succs := fun b hb => ?_
    exit_only := fun a b hab hb => ?_ }
  · have hb : b ≠ ⟨w.blocks⟩ := by
      rintro rfl
      have := (h.listed u ⟨w.blocks⟩).2 hu
      simp [contents, hphis, hbody] at this
    exact h.reads_user u b v hu ((hlive hb).1 hl)
  · show (if b = ⟨w.blocks⟩ then _ else w.home b) = if a = ⟨w.blocks⟩ then _ else w.home a
    rw [if_neg (hne hb).1, if_neg (hne hb).2]
    exact h.edge_home a b hb
  · by_cases hbe : b = ⟨w.blocks⟩
    · exact hbe ▸ hpreds
    · exact h.entry_preds b ((hentry hbe).1 hb)
  · rcases hold hbn with ⟨rfl, rfl⟩ | ⟨hbe, hbn⟩
    · simp [View.addMethod]
    · show (if n = ⟨w.methods⟩ then _ else w.entry n) = _
      rw [if_neg (hn hbn)]
      exact h.entry_home b n ((hentry hbe).1 hb) hbn
  · simp only [View.addMethod] at hbn
    split at hbn
    · next hnm =>
        obtain rfl := Option.some.inj hbn
        exact ⟨⟨[], by simp [View.addMethod]⟩, by simp [View.addMethod, hnm]⟩
    · obtain ⟨h1, h2⟩ := h.isEntry_entry b n hbn
      have hbe : b ≠ ⟨w.blocks⟩ := by
        rintro rfl
        rw [hhome] at h2
        cases h2
      exact ⟨(hentry hbe).2 h1, hhome' h2⟩
  · show (if n = ⟨w.methods⟩ then some kind else w.sort n) ≠ none
    rcases hold hb with ⟨-, rfl⟩ | ⟨-, hb⟩
    · simp
    · rw [if_neg (hn hb)]
      exact h.home_sort b n hb
  · simp only [View.addMethod] at hb
    split at hb
    · next hnm =>
        rw [List.mem_singleton] at hb
        simp [View.addMethod, hb, hnm]
    · exact hhome' (h.owned_home b n hb)
  · show (if n = ⟨w.methods⟩ then _ else w.owned n).Nodup
    split
    · exact List.nodup_singleton _
    · exact h.owned_nodup n
  · show b ∈ if n = ⟨w.methods⟩ then _ else w.owned n
    rcases hold hb with ⟨rfl, rfl⟩ | ⟨hbe, hb⟩
    · simp
    · rw [if_neg (hn hb)]
      exact h.owner_owned v b n hv hb
  · show b ∈ if n = ⟨w.methods⟩ then _ else w.owned n
    rcases hold hb with ⟨rfl, rfl⟩ | ⟨hbe, hb⟩
    · simp
    · rw [if_neg (hn hb)]
      exact h.live_owned b n ((hlive hbe).1 hl) hb
  · rcases hold hb with ⟨rfl, rfl⟩ | ⟨hbe, hb⟩
    · simp only [View.addMethod, if_true, Option.some.injEq] at he
      exact he ▸ .refl _ _
    · simp only [View.addMethod, if_neg (hn hb)] at he
      exact h.live_reached b n e ((hlive hbe).1 hl) hb he
  · change (if b = ⟨w.blocks⟩ then some (.entry []) else w.kind b) = _ at hb
    split at hb
    · cases hb
    · exact h.exit_succs b hb
  · change (if b = ⟨w.blocks⟩ then some (.entry []) else w.kind b) = _ at hb
    rw [if_neg (hne hab).2] at hb
    exact h.exit_only a b hab hb

end

/-- What an edge adds. -/
theorem mem_succs_link {w : View} {s t a b : BlockId} :
    b ∈ (w.link s t).succs a ↔ b ∈ w.succs a ∨ (a = s ∧ b = t) := by
  simp only [View.link]
  grind

theorem mem_preds_link {w : View} {s t a b : BlockId} :
    a ∈ (w.link s t).preds b ↔ a ∈ w.preds b ∨ (a = s ∧ b = t) := by
  simp only [View.link]
  grind

theorem live_link {w : View} {s t b : BlockId} : (w.link s t).Live b ↔ w.Live b ∨ b = t := by
  have hpreds : (w.link s t).preds b ≠ [] ↔ w.preds b ≠ [] ∨ b = t := by
    constructor
    · intro hne
      obtain ⟨q, hq⟩ := List.exists_mem_of_ne_nil _ hne
      rcases mem_preds_link.1 hq with hq | ⟨-, rfl⟩
      · exact Or.inl (List.ne_nil_of_mem hq)
      · exact Or.inr rfl
    · rintro (hne | rfl)
      · obtain ⟨q, hq⟩ := List.exists_mem_of_ne_nil _ hne
        exact List.ne_nil_of_mem (mem_preds_link.2 (Or.inl hq))
      · exact List.ne_nil_of_mem (mem_preds_link.2 (Or.inr ⟨rfl, rfl⟩))
  rw [Live, hpreds, Live, or_assoc]
  rfl

theorem Wired.link {w : View} (h : w.Wired) {s t : BlockId} {m : MethodId} (hs : w.Live s)
    (hsealed : w.after s ≠ none) (hns : w.kind s ≠ some .exit) (hhs : w.home s = some m)
    (honly : w.succs s = [] ∨ ∀ b ∈ t :: w.succs s, w.kind b ≠ some .exit)
    (hht : w.home t = some m) (ht : ¬w.IsEntry t) (howned : t ∈ w.owned m)
    (hempty : w.Live t ∨ w.contents t = []) : (w.link s t).Wired := by
  have hmono {e b : BlockId} (he : Reaches w.succs e b) : Reaches (w.link s t).succs e b :=
    he.mono fun a c hc => mem_succs_link.2 (Or.inl hc)
  refine { h with
    reads_user := fun u b v hu hl => ?_
    edge := fun a b => ?_
    succs_nodup := fun b => ?_
    preds_nodup := fun b => ?_
    edge_live := fun a b hb => ?_
    edge_home := fun a b hb => ?_
    edge_sealed := fun a b hb => ?_
    entry_preds := fun b hb => ?_
    live_owned := fun b n hl hb => ?_
    live_reached := fun b n e hl hb he => ?_
    phis_preds := fun b hb => ?_
    exit_succs := fun b hb => ?_
    exit_only := fun a b hab hb => ?_ }
  · rcases live_link.1 hl with hl | rfl
    · exact h.reads_user u b v hu hl
    · rcases hempty with hl | hempty
      · exact h.reads_user u b v hu hl
      · rw [show (w.link s b).owner u = w.owner u from rfl, ← h.listed, hempty] at hu
        cases hu
  · rw [mem_succs_link, mem_preds_link, h.edge]
  · have := h.succs_nodup s
    have := h.succs_nodup b
    simp only [View.link]
    split
    · split
      · assumption
      · rw [List.nodup_append]
        grind
    · assumption
  · have := h.preds_nodup t
    have := h.preds_nodup b
    simp only [View.link]
    split
    · split
      · assumption
      · rw [List.nodup_append]
        grind
    · assumption
  · rw [live_link]
    rcases mem_succs_link.1 hb with hb | ⟨rfl, -⟩
    · exact Or.inl (h.edge_live a b hb)
    · exact Or.inl hs
  · rcases mem_succs_link.1 hb with hb | ⟨rfl, rfl⟩
    · exact h.edge_home a b hb
    · exact hht.trans hhs.symm
  · rcases mem_succs_link.1 hb with hb | ⟨rfl, -⟩
    · exact h.edge_sealed a b hb
    · exact hsealed
  · have hne : b ≠ t := by
      rintro rfl
      exact ht hb
    show (if b = t then _ else w.preds b) = []
    rw [if_neg hne]
    exact h.entry_preds b hb
  · rcases live_link.1 hl with hl | rfl
    · exact h.live_owned b n hl hb
    · obtain rfl : m = n := Option.some.inj (hht.symm.trans hb)
      exact howned
  · rcases live_link.1 hl with hl | rfl
    · exact hmono (h.live_reached b n e hl hb he)
    · obtain rfl : m = n := Option.some.inj (hht.symm.trans hb)
      exact (hmono (h.live_reached s m e hs hhs he)).step (mem_succs_link.2 (Or.inr ⟨rfl, rfl⟩))
  · obtain ⟨q, hq⟩ := List.exists_mem_of_ne_nil _ (h.phis_preds b hb)
    exact List.ne_nil_of_mem (mem_preds_link.2 (Or.inl hq))
  · have hbs : b ≠ s := by
      rintro rfl
      exact hns hb
    show (if b = s then _ else w.succs b) = []
    rw [if_neg hbs]
    exact h.exit_succs b hb
  · show (if a = s then if t ∈ w.succs s then w.succs s else w.succs s ++ [t] else w.succs a) = [b]
    by_cases ha : a = s
    · subst ha
      rcases honly with hnil | hnone
      · have hbt : b = t := by simpa [hnil] using mem_succs_link.1 hab
        simp [hnil, hbt]
      · have hmem : b ∈ t :: w.succs a := by
          rcases mem_succs_link.1 hab with h | ⟨-, rfl⟩
          · exact List.mem_cons_of_mem _ h
          · exact List.mem_cons_self ..
        exact absurd hb (hnone b hmem)
    · rw [if_neg ha]
      refine h.exit_only a b ?_ hb
      exact (mem_succs_link.1 hab).resolve_right fun h => ha h.1

/-- Listing a parameter leaves an entry block an entry block. -/
theorem isEntry_setKind {w : View} {b c : BlockId} {vs vs' : List ValueId}
    (hb : w.kind b = some (.entry vs)) : (w.setKind b (.entry vs')).IsEntry c ↔ w.IsEntry c := by
  simp only [IsEntry, View.setKind]
  by_cases hc : c = b
  · subst hc; simp [hb]
  · simp [hc]

theorem live_setKind {w : View} {b c : BlockId} {vs vs' : List ValueId}
    (hb : w.kind b = some (.entry vs)) : (w.setKind b (.entry vs')).Live c ↔ w.Live c := by
  rw [Live, isEntry_setKind hb]
  rfl

theorem Wired.setKind {w : View} (h : w.Wired) {b : BlockId} {vs vs' : List ValueId}
    (hb : w.kind b = some (.entry vs)) : (w.setKind b (.entry vs')).Wired := by
  have hkind {c : BlockId} (hc : (w.setKind b (.entry vs')).kind c = some .exit) :
      w.kind c = some .exit := by
    change (if c = b then some (.entry vs') else w.kind c) = _ at hc
    split at hc
    · cases hc
    · exact hc
  exact { h with
    reads_user := fun u c v hu hl => h.reads_user u c v hu ((live_setKind hb).1 hl)
    edge_live := fun a c hc => (live_setKind hb).2 (h.edge_live a c hc)
    entry_preds := fun c hc => h.entry_preds c ((isEntry_setKind hb).1 hc)
    entry_home := fun c n hc => h.entry_home c n ((isEntry_setKind hb).1 hc)
    isEntry_entry := fun c n hn =>
      ⟨(isEntry_setKind hb).2 (h.isEntry_entry c n hn).1, (h.isEntry_entry c n hn).2⟩
    live_owned := fun c n hl => h.live_owned c n ((live_setKind hb).1 hl)
    live_reached := fun c n e hl => h.live_reached c n e ((live_setKind hb).1 hl)
    exit_succs := fun c hc => h.exit_succs c (hkind hc)
    exit_only := fun a c hac hc => h.exit_only a c hac (hkind hc) }

theorem operands_setPhi (w : View) (phi u : ValueId) (x : String) (os : List (BlockId × ValueId)) :
    (w.setPhi phi x os).operands u = if u = phi then os.map (·.2) else w.operands u := by
  unfold operands View.setPhi
  split <;> simp_all [Op.operands]

theorem HasValue.setPhi {w : View} {phi v : ValueId} (x : String) (os : List (BlockId × ValueId))
    (h : w.HasValue v) : (w.setPhi phi x os).HasValue v := by
  obtain ⟨o, ho, hhas⟩ := h
  by_cases hvp : v = phi
  · exact ⟨.phi x os, by simp [View.setPhi, hvp], rfl⟩
  · exact ⟨o, by simp [View.setPhi, hvp, ho], hhas⟩

theorem Wired.setPhi {w : View} (h : w.Wired) {phi : ValueId} {x : String}
    {old os : List (BlockId × ValueId)} (hphi : w.op phi = some (.phi x old))
    (hops : ∀ v ∈ os.map (·.2), w.HasValue v) : (w.setPhi phi x os).Wired := by
  have hvalue {v : ValueId} (hv : w.HasValue v) : (w.setPhi phi x os).HasValue v := hv.setPhi x os
  refine { h with
    after_value := fun b st y v hst hy => hvalue (h.after_value b st y v hst hy)
    phi_of_phis := fun v b hv => ?_
    not_phi_of_body := fun v b hv => ?_
    operand_lt := fun u v o ho hno hv => ?_
    operand_value := fun u v o ho hv => ?_
    user_reads := fun v u hu => ?_
    reads_user := fun u b v hu hl hv => ?_ }
  · have := h.phi_of_phis v b hv
    simp only [View.setPhi]
    grind
  · have := h.not_phi_of_body v b hv
    have hisPhi : (Op.phi x old).isPhi = true := rfl
    simp only [View.setPhi]
    grind
  · simp only [View.setPhi] at ho
    split at ho
    · obtain rfl := Option.some.inj ho
      cases hno
    · exact h.operand_lt u v o ho hno hv
  · simp only [View.setPhi] at ho
    split at ho
    · obtain rfl := Option.some.inj ho
      exact hvalue (hops v hv)
    · exact hvalue (h.operand_value u v o ho hv)
  · rw [operands_setPhi]
    rcases hu with ⟨hu, hn⟩ | ⟨rfl, hv⟩
    · have hreads := h.user_reads v u hu
      split
      · next hup => exact absurd ⟨hup, hup ▸ hreads⟩ hn
      · exact hreads
    · rw [if_pos rfl]
      exact hv
  · rw [operands_setPhi] at hv
    split at hv
    · next hup => exact Or.inr ⟨hup, hv⟩
    · next hup => exact Or.inl ⟨h.reads_user u b v hu hl hv, fun hn => hup hn.1⟩

/-- Removing a block that control cannot get to. -/
theorem Wired.drop {w : View} (h : w.Wired) {b : BlockId} (hb : ¬w.Live b)
    (hclear : ∀ u c v, w.owner u = some c → w.Live c → v ∈ w.operands u → v ∉ w.contents b) :
    (w.drop b).Wired := by
  have hmem {v : ValueId} {c : BlockId} (hc : c ≠ b) (hv : v ∈ w.contents c) :
      v ∉ w.contents b := by
    intro hvb
    rw [h.listed] at hv hvb
    exact hc (Option.some.inj (hv.symm.trans hvb))
  have hkeep {c : BlockId} {n : MethodId} (hc : c ∈ w.owned n) (hcb : c ≠ b) :
      c ∈ (w.drop b).owned n := by
    show c ∈ if w.home b = some n then (w.owned n).filter (· ≠ b) else w.owned n
    split
    · exact List.mem_filter.2 ⟨hc, by simpa using hcb⟩
    · exact hc
  refine { h with
    listed := fun v c => ?_
    phi_of_phis := fun v c hv => ?_
    not_phi_of_body := fun v c hv => ?_
    phis_sorted := fun c => ?_
    body_sorted := fun c => ?_
    user_reads := fun v u hu => h.user_reads v u hu.1
    reads_user := fun u c v hu hl hv => ?_
    owned_home := fun c n hc => ?_
    owned_nodup := fun n => ?_
    owner_owned := fun v c n hv hc => ?_
    live_owned := fun c n hl hc => ?_
    phis_preds := fun c hc => ?_ }
  · have hlisted := h.listed v c
    show v ∈ (if c = b then [] else w.phis c) ++ (if c = b then [] else w.body c) ↔
      (if v ∈ w.contents b then none else w.owner v) = some c
    by_cases hc : c = b
    · subst hc
      by_cases hv : v ∈ w.contents c
      · simp [hv]
      · simpa [hv] using mt hlisted.2 hv
    · have hnot := @hmem v c hc
      simp only [if_neg hc]
      change v ∈ w.contents c ↔ _
      split
      · next hv => simpa using fun hvc => hnot hvc hv
      · exact hlisted
  · simp only [View.drop] at hv
    split at hv
    · cases hv
    · exact h.phi_of_phis v c hv
  · simp only [View.drop] at hv
    split at hv
    · cases hv
    · exact h.not_phi_of_body v c hv
  · show (if c = b then [] else w.phis c).Pairwise _
    split
    · exact .nil
    · exact h.phis_sorted c
  · show (if c = b then [] else w.body c).Pairwise _
    split
    · exact .nil
    · exact h.body_sorted c
  · have hu' : w.owner u = some c := by
      change (if u ∈ w.contents b then none else w.owner u) = some c at hu
      split at hu
      · cases hu
      · exact hu
    have hcb : c ≠ b := by
      rintro rfl
      exact hb hl
    refine ⟨h.reads_user u c v hu' hl hv, hclear u c v hu' hl hv, fun hn => ?_⟩
    exact hmem hcb ((h.listed u c).2 hu') hn.1
  · simp only [View.drop] at hc
    split at hc
    · exact h.owned_home c n (List.mem_filter.1 hc).1
    · exact h.owned_home c n hc
  · show (if w.home b = some n then (w.owned n).filter (· ≠ b) else w.owned n).Nodup
    split
    · exact (h.owned_nodup n).filter _
    · exact h.owned_nodup n
  · change (if v ∈ w.contents b then none else w.owner v) = some c at hv
    split at hv
    · cases hv
    · next hvb =>
        refine hkeep (h.owner_owned v c n hv hc) ?_
        rintro rfl
        exact hvb ((h.listed v c).2 hv)
  · refine hkeep (h.live_owned c n hl hc) ?_
    rintro rfl
    exact hb hl
  · simp only [View.drop] at hc
    split at hc
    · exact absurd rfl hc
    · exact h.phis_preds c hc

end View

end StructuredSsa
