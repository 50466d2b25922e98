import Mathlib.Data.List.Nodup
import StructuredSsa.Proofs.Rewrite
import StructuredSsa.Proofs.Wired

/-!
# What folding relies on, and keeps

`View.Tidy` is what a pass needs to find in a program, and what every visit of
it leaves behind: use-lists that miss no reader, blocks that list their
instructions once, and at most one terminator to a block. It does not ask that
blocks can be reached, which folding does not keep.

`View.foldInto` and `View.follow` are the two things a visit can do: put a
constant in the place of an instruction, and let a branch take one way for
good.
-/

namespace StructuredSsa

/-- `new` in the place of `old`. -/
def rename (old new v : ValueId) : ValueId := if v = old then new else v

@[simp] theorem rename_old (old new : ValueId) : rename old new old = new := if_pos rfl

theorem rename_of_ne {old new v : ValueId} (h : v ≠ old) : rename old new v = v := if_neg h

theorem Op.substitute_eq (op : Op) (old new : ValueId) :
    op.substitute old new = op.mapOperands (rename old new) := rfl

namespace Op

variable {f : ValueId → ValueId} {op : Op}

@[simp] theorem isPhi_mapOperands : (op.mapOperands f).isPhi = op.isPhi := by
  cases op <;> rfl

@[simp] theorem isTerminator_mapOperands : (op.mapOperands f).isTerminator = op.isTerminator := by
  cases op <;> rfl

theorem mapOperands_id (h : ∀ v ∈ op.operands, f v = v) : op.mapOperands f = op := by
  cases op with
  | phi x os =>
      have hos : ∀ q ∈ os, (fun q : BlockId × ValueId => (q.1, f q.2)) q = q :=
        fun q hq => Prod.ext rfl (h q.2 (List.mem_map_of_mem hq))
      simp only [mapOperands, List.map_congr_left hos, List.map_id']
  | call callee arguments =>
      have hargs : ∀ v ∈ arguments, f v = id v := h
      simp only [mapOperands, List.map_congr_left hargs, List.map_id]
  | ret value =>
      cases value with
      | none => rfl
      | some v => simp only [mapOperands, Option.map_some, h v (by simp [operands])]
  | arith o a b | compare o a b | index a b | store a b =>
      simp only [mapOperands, h a (by simp [operands]), h b (by simp [operands])]
  | storeGlobal x a | load a | write a | branch a t e =>
      simp only [mapOperands, h a (by simp [operands])]
  | const | param | loadGlobal | declareArray | arrayBase | read | writeLine | jump => rfl

theorem isPhi_of_isTerminator (h : op.isTerminator = true) : op.isPhi = false := by
  cases op with
  | branch | jump | ret => rfl
  | _ => cases h

end Op

/-- Putting `v` before `a` and taking `a` away is writing `v` for `a`. -/
theorem filter_insertBefore {a v : ValueId} {l : List ValueId} (hl : l.Nodup) (ha : a ∈ l)
    (hne : v ≠ a) : (insertBefore a v l).filter (· ≠ a) = l.map (rename a v) := by
  have hkeep {l : List ValueId} (h : a ∉ l) : l.filter (· ≠ a) = l.map (rename a v) := by
    have hmap : l.map (rename a v) = l := by
      conv_rhs => rw [← List.map_id l]
      exact List.map_congr_left fun x hx => rename_of_ne fun hxa => h (hxa ▸ hx)
    rw [hmap, List.filter_eq_self]
    intro x hx
    exact decide_eq_true fun hxa => h (hxa ▸ hx)
  induction l with
  | nil => cases ha
  | cons y l ih =>
      obtain ⟨hy, hl⟩ := List.nodup_cons.1 hl
      rw [insertBefore]
      by_cases hya : y = a
      · subst hya
        rw [if_pos rfl, List.filter_cons_of_pos (by simpa using hne),
          List.filter_cons_of_neg (by simp), hkeep hy, List.map_cons, rename_old]
      · rw [if_neg hya, List.filter_cons_of_pos (by simpa using hya), List.map_cons,
          rename_of_ne hya, ih hl ((List.mem_cons.1 ha).resolve_left (Ne.symm hya))]

namespace View

variable {w : View} {b : BlockId} {v : ValueId}

/-- What a pass of folding needs to find. -/
structure Tidy (w : View) : Prop where
  listed : ∀ v b, v ∈ w.contents b ↔ w.owner v = some b
  nodup : ∀ b, (w.body b).Nodup
  phi_of_phis : ∀ v b, v ∈ w.phis b → ∃ x os, w.op v = some (.phi x os)
  not_phi_of_body : ∀ v b, v ∈ w.body b → ∃ op, w.op v = some op ∧ op.isPhi = false
  present : ∀ v b, w.owner v = some b → w.kind b ≠ none
  operand_op : ∀ u b v, w.owner u = some b → v ∈ w.operands u → w.op v ≠ none
  reads_user : ∀ u b v, w.owner u = some b → v ∈ w.operands u → w.user v u
  /-- A block has one terminator at most. -/
  sole : ∀ b u v o o', u ∈ w.body b → v ∈ w.body b → w.op u = some o → w.op v = some o' →
    o.isTerminator = true → o'.isTerminator = true → u = v
  branch : ∀ v b c t f, v ∈ w.body b → w.op v = some (.branch c t f) →
    t ≠ f ∧ w.kind t ≠ none ∧ w.kind f ≠ none

theorem Tidy.owner_of_body (h : w.Tidy) (hv : v ∈ w.body b) : w.owner v = some b :=
  (h.listed v b).1 (List.mem_append_right _ hv)

theorem Tidy.owner_of_phis (h : w.Tidy) (hv : v ∈ w.phis b) : w.owner v = some b :=
  (h.listed v b).1 (List.mem_append_left _ hv)

/-- An instruction stands among the phis or in the body, not both. -/
theorem Tidy.not_phis (h : w.Tidy) {c : BlockId} (hv : v ∈ w.body b) : v ∉ w.phis c := by
  intro hphi
  obtain ⟨x, os, hop⟩ := h.phi_of_phis v c hphi
  obtain ⟨op, hop', hno⟩ := h.not_phi_of_body v b hv
  obtain rfl := Option.some.inj (hop.symm.trans hop')
  cases hno

theorem Tidy.eq_of_body (h : w.Tidy) {c : BlockId} (hv : v ∈ w.body b) (hc : v ∈ w.body c) :
    b = c :=
  Option.some.inj ((h.owner_of_body hv).symm.trans (h.owner_of_body hc))

/-! ## A constant in the place of an instruction -/

/-- Put the constant `n` in the place of the instruction `old` of block `b`. -/
noncomputable def foldInto (w : View) (b : BlockId) (old : ValueId) (n : Int64) : View :=
  (((w.add (.const n) none).place b old ⟨w.values⟩).redirect old ⟨w.values⟩).remove b old

section

variable {c : BlockId} {old u : ValueId} {n : Int64}

theorem foldInto_owner (v : ValueId) : (w.foldInto b old n).owner v
    = if v = old then none else if v = ⟨w.values⟩ then some b else w.owner v := by
  simp only [foldInto, remove, redirect, place, add, dropUser]
  by_cases hv : v = ⟨w.values⟩ <;> simp [hv]

theorem foldInto_user (v u : ValueId) : (w.foldInto b old n).user v u ↔
    v ≠ old ∧ (w.user v u ∨ v = ⟨w.values⟩ ∧ w.user old u) ∧ ¬(u = old ∧
      v ∈ (((w.add (.const n) none).place b old ⟨w.values⟩).redirect old ⟨w.values⟩).operands old) := by
  simp only [foldInto, remove, redirect, place, add, dropUser]
  simp [Op.operands, and_assoc]

theorem foldInto_op_user (hu : w.user old u) : (w.foldInto b old n).op u
    = ((w.add (.const n) none).op u).map (·.substitute old ⟨w.values⟩) :=
  if_pos (Or.inl hu)

theorem foldInto_op_other (hu : ¬w.user old u) :
    (w.foldInto b old n).op u = (w.add (.const n) none).op u := by
  refine if_neg ?_
  rintro (h | ⟨-, h⟩)
  · exact hu h
  · cases h

theorem foldInto_fresh : (w.foldInto b old n).op ⟨w.values⟩ = some (.const n) := by
  have hnew : (w.add (.const n) none).op ⟨w.values⟩ = some (.const n) := if_pos rfl
  by_cases hu : w.user old ⟨w.values⟩
  · rw [foldInto_op_user hu, hnew]
    rfl
  · rw [foldInto_op_other hu, hnew]

/-- Instructions that stand somewhere read the constant instead. -/
theorem Tidy.foldInto_op (h : w.Tidy) (hu : w.owner u = some c) (hne : u ≠ ⟨w.values⟩) :
    (w.foldInto b old n).op u
      = (w.op u).map (·.mapOperands (rename old ⟨w.values⟩)) := by
  have hsame : (w.add (.const n) none).op u = w.op u := if_neg hne
  by_cases huser : w.user old u
  · rw [foldInto_op_user huser, hsame]
    rfl
  · rw [foldInto_op_other huser, hsame]
    cases hop : w.op u with
    | none => rfl
    | some op =>
        have hno : old ∉ op.operands := fun hmem =>
          huser (h.reads_user u c old hu (by simpa [operands, hop] using hmem))
        have hkeep : ∀ v ∈ op.operands, rename old ⟨w.values⟩ v = v := fun v hv =>
          rename_of_ne (by rintro rfl; exact hno hv)
        rw [Option.map_some, Op.mapOperands_id hkeep]

theorem Tidy.foldInto_phis (h : w.Tidy) (hold : old ∈ w.body b) (c : BlockId) :
    (w.foldInto b old n).phis c = w.phis c := by
  show (if c = b then (w.phis b).filter (· ≠ old) else w.phis c) = w.phis c
  split
  · next hc =>
      rw [hc, List.filter_eq_self]
      intro v hv
      exact decide_eq_true fun hvo => h.not_phis hold (hvo ▸ hv)
  · rfl

theorem Tidy.foldInto_body (h : w.Tidy) (ht : w.Tables) (hold : old ∈ w.body b) (c : BlockId) :
    (w.foldInto b old n).body c = (w.body c).map (rename old ⟨w.values⟩) := by
  have hne : (⟨w.values⟩ : ValueId) ≠ old := by
    rintro rfl
    exact absurd (h.owner_of_body hold) (by simp [ht.owner_none ht.fresh_op])
  show (if c = b then (if b = b then insertBefore old ⟨w.values⟩ (w.body b) else w.body b).filter
    (· ≠ old) else if c = b then insertBefore old ⟨w.values⟩ (w.body b) else w.body c) = _
  by_cases hc : c = b
  · rw [if_pos hc, if_pos rfl, hc, filter_insertBefore (h.nodup b) hold hne]
  · rw [if_neg hc, if_neg hc]
    conv_lhs => rw [← List.map_id (w.body c)]
    refine List.map_congr_left fun v hv => (rename_of_ne fun hvo => hc ?_).symm
    obtain rfl : v = old := hvo
    exact h.eq_of_body hv hold

/-- Operands of an instruction that stands somewhere, after folding. -/
theorem Tidy.foldInto_operands (h : w.Tidy) (hu : w.owner u = some c) (hne : u ≠ ⟨w.values⟩) :
    (w.foldInto b old n).operands u
      = (w.operands u).map (rename old ⟨w.values⟩) := by
  rw [operands, h.foldInto_op hu hne, operands]
  cases w.op u <;> simp

theorem Tables.ne_of_owner (ht : w.Tables) (hv : w.owner v = some c) : v ≠ ⟨w.values⟩ := by
  rintro rfl
  rw [ht.owner_none ht.fresh_op] at hv
  cases hv

/-- What stands somewhere after folding is the constant, or stood there before. -/
theorem foldInto_owner_cases (hv : (w.foldInto b old n).owner v = some c) :
    v ≠ old ∧ ((v = ⟨w.values⟩ ∧ c = b) ∨ w.owner v = some c) := by
  rw [foldInto_owner] at hv
  split at hv
  · cases hv
  · next hvo =>
      refine ⟨hvo, ?_⟩
      split at hv
      · next hvc => exact Or.inl ⟨hvc, (Option.some.inj hv).symm⟩
      · exact Or.inr hv

section

variable (h : w.Tidy) (ht : w.Tables) (hold : old ∈ w.body b)
include h ht hold

/-- What stands in a body after folding is the constant, or an instruction that
stood there before and now reads the constant. -/
theorem Tidy.foldInto_at (hv : v ∈ (w.foldInto b old n).body c) :
    (w.foldInto b old n).op v = some (.const n) ∨ ∃ op, v ∈ w.body c ∧ w.op v = some op
      ∧ (w.foldInto b old n).op v = some (op.mapOperands (rename old ⟨w.values⟩)) := by
  rw [h.foldInto_body ht hold] at hv
  obtain ⟨x, hx, rfl⟩ := List.mem_map.1 hv
  by_cases hxo : x = old
  · rw [hxo, rename_old]
    exact Or.inl foldInto_fresh
  · rw [rename_of_ne hxo]
    obtain ⟨op, hop, -⟩ := h.not_phi_of_body x c hx
    have howner := h.owner_of_body hx
    refine Or.inr ⟨op, hx, hop, ?_⟩
    rw [h.foldInto_op howner (ht.ne_of_owner howner), hop, Option.map_some]

theorem Tidy.foldInto_listed (v : ValueId) (c : BlockId) :
    v ∈ (w.foldInto b old n).contents c ↔ (w.foldInto b old n).owner v = some c := by
  have howner := h.owner_of_body hold
  have hfresh (d : BlockId) : (⟨w.values⟩ : ValueId) ∉ w.contents d := fun hmem =>
    ht.ne_of_owner ((h.listed _ d).1 hmem) rfl
  rw [contents, h.foldInto_phis hold, h.foldInto_body ht hold, foldInto_owner, List.mem_append]
  by_cases hvo : v = old
  · subst hvo
    rw [if_pos rfl]
    constructor
    · rintro (hphi | hmap)
      · exact absurd hphi (h.not_phis hold)
      · obtain ⟨x, -, hx⟩ := List.mem_map.1 hmap
        by_cases hxv : x = v
        · rw [hxv, rename_old] at hx
          exact absurd hx.symm (ht.ne_of_owner howner)
        · exact absurd (rename_of_ne hxv ▸ hx) hxv
    · intro hnone
      cases hnone
  · rw [if_neg hvo]
    by_cases hvc : v = ⟨w.values⟩
    · subst hvc
      rw [if_pos rfl]
      constructor
      · rintro (hphi | hmap)
        · exact absurd (List.mem_append_left _ hphi) (hfresh c)
        · obtain ⟨x, hx, hxv⟩ := List.mem_map.1 hmap
          by_cases hxo : x = old
          · subst hxo
            rw [h.eq_of_body hx hold]
          · rw [rename_of_ne hxo] at hxv
            exact absurd (List.mem_append_right _ (hxv ▸ hx)) (hfresh c)
      · intro hbc
        obtain rfl := Option.some.inj hbc
        exact Or.inr (List.mem_map.2 ⟨old, hold, rename_old ..⟩)
    · rw [if_neg hvc, ← h.listed v c, contents, List.mem_append]
      refine or_congr Iff.rfl ⟨fun hmap => ?_, fun hv => ?_⟩
      · obtain ⟨x, hx, hxv⟩ := List.mem_map.1 hmap
        by_cases hxo : x = old
        · rw [hxo, rename_old] at hxv
          exact absurd hxv.symm hvc
        · exact (rename_of_ne hxo).symm.trans hxv ▸ hx
      · exact List.mem_map.2 ⟨v, hv, rename_of_ne hvo⟩

theorem Tidy.foldInto_nodup (c : BlockId) : ((w.foldInto b old n).body c).Nodup := by
  rw [h.foldInto_body ht hold]
  refine List.Nodup.map_on (fun x hx y hy hxy => ?_) (h.nodup c)
  have hx' := ht.ne_of_owner (h.owner_of_body hx)
  have hy' := ht.ne_of_owner (h.owner_of_body hy)
  unfold rename at hxy
  split at hxy <;> split at hxy <;> simp_all

end

theorem foldInto_op_ne_none (hv : w.op v ≠ none) : (w.foldInto b old n).op v ≠ none := by
  have hadd : (w.add (.const n) none).op v ≠ none := by
    show (if v = ⟨w.values⟩ then some (.const n) else w.op v) ≠ none
    split
    · simp
    · exact hv
  by_cases hu : w.user old v
  · rw [foldInto_op_user hu]
    simpa using hadd
  · rw [foldInto_op_other hu]
    exact hadd

theorem Tidy.foldInto (h : w.Tidy) (ht : w.Tables) (hold : old ∈ w.body b) :
    (w.foldInto b old n).Tidy := by
  refine
    { listed := h.foldInto_listed ht hold
      nodup := h.foldInto_nodup ht hold
      phi_of_phis := fun v c hv => ?_
      not_phi_of_body := fun v c hv => ?_
      present := fun v c hv => ?_
      operand_op := fun u c v hu hv => ?_
      reads_user := fun u c v hu hv => ?_
      sole := fun c u v o o' hu hv hou hov hto hto' => ?_
      branch := fun v c k t f hv hop => ?_ }
  · rw [h.foldInto_phis hold] at hv
    obtain ⟨x, os, hop⟩ := h.phi_of_phis v c hv
    have howner := h.owner_of_phis hv
    exact ⟨x, _, by rw [h.foldInto_op howner (ht.ne_of_owner howner), hop]; rfl⟩
  · rcases h.foldInto_at ht hold hv with hop | ⟨op, hv', hop, hop'⟩
    · exact ⟨_, hop, rfl⟩
    · obtain ⟨o, ho, hno⟩ := h.not_phi_of_body v c hv'
      obtain rfl := Option.some.inj (hop.symm.trans ho)
      exact ⟨_, hop', by simpa using hno⟩
  · obtain ⟨-, ⟨-, rfl⟩ | hv⟩ := foldInto_owner_cases hv
    · exact h.present old c (h.owner_of_body hold)
    · exact h.present v c hv
  · obtain ⟨-, ⟨rfl, -⟩ | hu⟩ := foldInto_owner_cases hu
    · rw [operands, foldInto_fresh] at hv
      cases hv
    · rw [h.foldInto_operands hu (ht.ne_of_owner hu)] at hv
      obtain ⟨x, hx, rfl⟩ := List.mem_map.1 hv
      by_cases hxo : x = old
      · rw [hxo, rename_old, foldInto_fresh]
        simp
      · rw [rename_of_ne hxo]
        exact foldInto_op_ne_none (h.operand_op u c x hu hx)
  · obtain ⟨huo, ⟨rfl, -⟩ | hu⟩ := foldInto_owner_cases hu
    · rw [operands, foldInto_fresh] at hv
      cases hv
    · rw [h.foldInto_operands hu (ht.ne_of_owner hu)] at hv
      obtain ⟨x, hx, rfl⟩ := List.mem_map.1 hv
      have huser := h.reads_user u c x hu hx
      rw [foldInto_user]
      by_cases hxo : x = old
      · subst hxo
        rw [rename_old]
        exact ⟨(ht.ne_of_owner (h.owner_of_body hold)).symm, Or.inr ⟨rfl, huser⟩, fun h => huo h.1⟩
      · rw [rename_of_ne hxo]
        exact ⟨hxo, Or.inl huser, fun h => huo h.1⟩
  · rcases h.foldInto_at ht hold hu with hop | ⟨op, hu', hop, hop'⟩
    · rw [hop] at hou
      obtain rfl := Option.some.inj hou
      cases hto
    · rcases h.foldInto_at ht hold hv with hov' | ⟨opv, hv', hopv, hopv'⟩
      · rw [hov'] at hov
        obtain rfl := Option.some.inj hov
        cases hto'
      · obtain rfl := Option.some.inj (hop'.symm.trans hou)
        obtain rfl := Option.some.inj (hopv'.symm.trans hov)
        exact h.sole c u v op opv hu' hv' hop hopv (by simpa using hto) (by simpa using hto')
  · rcases h.foldInto_at ht hold hv with hop' | ⟨op, hv', hop', hop''⟩
    · cases hop'.symm.trans hop
    · have hmap := Option.some.inj (hop''.symm.trans hop)
      cases op with
      | branch k' t' f' =>
          obtain ⟨-, rfl, rfl⟩ := Op.branch.inj hmap
          exact h.branch v c k' _ _ hv' hop'
      | _ => cases hmap

end

/-! ## A branch that takes one way -/

/-- Let the branch `v` of block `b` go to `taken`, and take the edge to
`dropped` away. -/
def follow (w : View) (b : BlockId) (v : ValueId) (taken dropped : BlockId) : View :=
  (w.becomeJump v taken).unlink b dropped

section

variable {a taken dropped : BlockId}

theorem becomeJump_op (u : ValueId) :
    (w.becomeJump v taken).op u = if u = v then some (.jump taken) else w.op u := rfl

theorem Tidy.becomeJump (h : w.Tidy) (hv : v ∈ w.body b) {o : Op} (hop : w.op v = some o)
    (hterm : o.isTerminator = true) : (w.becomeJump v taken).Tidy := by
  have hother {u : ValueId} {p : Op} (hu : u ≠ v) (hp : (w.becomeJump v taken).op u = some p) :
      w.op u = some p := (if_neg hu).symm.trans hp
  -- A terminator after the change was one before it.
  have hold {u : ValueId} {p : Op} (hp : (w.becomeJump v taken).op u = some p)
      (hpt : p.isTerminator = true) : ∃ p', w.op u = some p' ∧ p'.isTerminator = true := by
    by_cases hu : u = v
    · exact ⟨o, hu ▸ hop, hterm⟩
    · exact ⟨p, hother hu hp, hpt⟩
  have hreads {u x : ValueId} (hx : x ∈ (w.becomeJump v taken).operands u) :
      u ≠ v ∧ x ∈ w.operands u := by
    rw [operands, becomeJump_op] at hx
    split at hx
    · cases hx
    · next hu => exact ⟨hu, hx⟩
  refine { h with
    phi_of_phis := fun u c hu => ?_
    not_phi_of_body := fun u c hu => ?_
    operand_op := fun u c x hu hx => ?_
    reads_user := fun u c x hu hx => ?_
    sole := fun c u x p p' hu hx hp hp' hpt hpt' => ?_
    branch := fun u c k t f hu hp => ?_ }
  · obtain ⟨x, os, hphi⟩ := h.phi_of_phis u c hu
    refine ⟨x, os, (if_neg ?_).trans hphi⟩
    rintro rfl
    exact h.not_phis hv hu
  · by_cases huv : u = v
    · exact ⟨_, if_pos huv, rfl⟩
    · obtain ⟨p, hp, hno⟩ := h.not_phi_of_body u c hu
      exact ⟨p, (if_neg huv).trans hp, hno⟩
  · rw [becomeJump_op]
    split
    · simp
    · exact h.operand_op u c x hu (hreads hx).2
  · obtain ⟨huv, hx⟩ := hreads hx
    exact ⟨h.reads_user u c x hu hx, fun hxu => huv hxu.1⟩
  · obtain ⟨q, hq, hqt⟩ := hold hp hpt
    obtain ⟨q', hq', hqt'⟩ := hold hp' hpt'
    exact h.sole c u x q q' hu hx hq hq' hqt hqt'
  · by_cases huv : u = v
    · rw [becomeJump_op, if_pos huv] at hp
      cases hp
    · exact h.branch u c k t f hu (hother huv hp)

theorem dropOperand_rest (w : View) (a : BlockId) (v : ValueId) : w.dropOperand a v
    = { w with op := (w.dropOperand a v).op, user := (w.dropOperand a v).user } := by
  unfold dropOperand
  split <;> rfl

theorem dropOperand_user {x u : ValueId} (hx : x ∈ (w.dropOperand a v).operands u)
    (hu : w.user x u) : (w.dropOperand a v).user x u := by
  unfold dropOperand at hx ⊢
  split at hx
  · next y os hop =>
      by_cases huv : u = v
      · subst huv
        refine Or.inr ⟨rfl, ?_⟩
        simpa [operands, setPhi, Op.operands] using hx
      · exact Or.inl ⟨hu, fun h => huv h.1⟩
  · exact hu

theorem Tidy.dropOperand (h : w.Tidy) : (w.dropOperand a v).Tidy := by
  have hop (u : ValueId) : (w.dropOperand a v).op u = (w.op u).map (·.without a)
      ∨ (w.dropOperand a v).op u = w.op u := by
    rw [dropOperand_op]
    split
    · next hu => exact Or.inl (hu ▸ rfl)
    · exact Or.inr rfl
  have hreads {u x : ValueId} (hx : x ∈ (w.dropOperand a v).operands u) : x ∈ w.operands u := by
    rw [operands] at hx ⊢
    rcases hop u with hu | hu
    · rw [hu] at hx
      cases hw : w.op u with
      | none => simp [hw] at hx
      | some o => exact operands_without (by simpa [hw] using hx)
    · rwa [hu] at hx
  -- Only phis change, so what is none is as it was.
  have hkept {u : ValueId} {o : Op} (ho : (w.dropOperand a v).op u = some o)
      (hno : o.isPhi = false) : w.op u = some o := by
    rcases hop u with hu | hu
    · rw [hu] at ho
      obtain ⟨o', ho', rfl⟩ := Option.map_eq_some_iff.1 ho
      rw [Op.isPhi_without] at hno
      rw [ho', Op.without_of_not_phi hno]
    · rw [← hu, ho]
  have hne {u : ValueId} (hu : w.op u ≠ none) : (w.dropOperand a v).op u ≠ none := by
    rcases hop u with h' | h' <;> rw [h']
    · simpa using hu
    · exact hu
  rw [w.dropOperand_rest a v]
  refine { h with
    phi_of_phis := fun u c hu => ?_
    not_phi_of_body := fun u c hu => ?_
    operand_op := fun u c x hu hx => hne (h.operand_op u c x hu (hreads hx))
    reads_user := fun u c x hu hx => dropOperand_user hx (h.reads_user u c x hu (hreads hx))
    sole := fun c u x o o' hu hx ho ho' ht ht' =>
      h.sole c u x o o' hu hx (hkept ho (Op.isPhi_of_isTerminator ht))
        (hkept ho' (Op.isPhi_of_isTerminator ht')) ht ht'
    branch := fun u c k t f hu ho => h.branch u c k t f hu (hkept ho rfl) }
  · obtain ⟨x, os, hphi⟩ := h.phi_of_phis u c hu
    rcases hop u with h' | h'
    · exact ⟨x, _, by rw [h', hphi]; rfl⟩
    · exact ⟨x, os, by rw [h', hphi]⟩
  · obtain ⟨o, ho, hno⟩ := h.not_phi_of_body u c hu
    rcases hop u with h' | h'
    · refine ⟨o, ?_, hno⟩
      rw [h', ho, Option.map_some, Op.without_of_not_phi hno]
    · exact ⟨o, by rw [h', ho], hno⟩

theorem Tidy.dropEdge (h : w.Tidy) : (w.dropEdge a b).Tidy := { h with }

theorem Tidy.unlink (h : w.Tidy) : (w.unlink a b).Tidy := by
  have hfold (vs : List ValueId) : ∀ {w : View}, w.Tidy →
      (vs.foldl (fun w v => w.dropOperand a v) w).Tidy := by
    induction vs with
    | nil => exact id
    | cons v vs ih => exact fun hw => ih hw.dropOperand
  exact hfold _ h.dropEdge

theorem foldl_dropOperand_rest (a : BlockId) : ∀ (vs : List ValueId) (w : View), ∃ op user,
    vs.foldl (fun w v => w.dropOperand a v) w = { w with op := op, user := user }
  | [], w => ⟨w.op, w.user, rfl⟩
  | v :: vs, w => by
      obtain ⟨op, user, h⟩ := foldl_dropOperand_rest a vs (w.dropOperand a v)
      refine ⟨op, user, h.trans ?_⟩
      rw [w.dropOperand_rest a v]

theorem Tidy.follow (h : w.Tidy) (hv : v ∈ w.body b) {o : Op} (hop : w.op v = some o)
    (hterm : o.isTerminator = true) : (w.follow b v taken dropped).Tidy :=
  (h.becomeJump hv hop hterm).unlink

/-- What instructions do once a branch takes one way: that branch jumps, and
the phis where it no longer goes lose an operand. -/
theorem follow_op (u : ValueId) : (w.follow b v taken dropped).op u
    = if u ∈ w.phis dropped then ((w.becomeJump v taken).op u).map (·.without b)
      else (w.becomeJump v taken).op u :=
  foldl_dropOperand_op b u _ _

/-- Only instructions, use-lists and edges change. -/
theorem follow_rest (w : View) (b : BlockId) (v : ValueId) (taken dropped : BlockId) :
    ∃ op user succs preds, w.follow b v taken dropped
      = { w with op := op, user := user, succs := succs, preds := preds } := by
  obtain ⟨op, user, h⟩ := foldl_dropOperand_rest b ((w.becomeJump v taken).phis dropped)
    ((w.becomeJump v taken).dropEdge b dropped)
  exact ⟨op, user, _, _, h⟩

end

end View

end StructuredSsa
