import StructuredSsa.Proofs.Machine
import StructuredSsa.Proofs.Tidy

/-!
# Folding keeps what can be seen

A visit of folding leaves a program alone, puts a constant in the place of an
instruction, or lets a branch take one way. After either, a run shows at every
step what it showed before: the same instructions are executed in the same
order, but for the one that became a constant or a jump, and that one does the
same. So there is no need to compare anything but the two programs step by
step, and the passes follow by induction.
-/

namespace StructuredSsa

open Machine

namespace View

/-- Runs from `e` show the same in both programs, where they do not break. -/
def Alike (w z : View) (e : BlockId) : Prop :=
  ∀ env, (∀ n, (w.code.run env n (w.code.start e)).status ≠ .broken) →
    ∀ n, (z.code.run env n (z.code.start e)).seen = (w.code.run env n (w.code.start e)).seen

theorem Alike.refl (w : View) (e : BlockId) : Alike w w e := fun _ _ _ => rfl

theorem Alike.trans {w z y : View} {e : BlockId} (h : Alike w z e) (k : Alike z y e) :
    Alike w y e := by
  intro env hok n
  have hsame := h env hok
  have hok' (n : Nat) : (z.code.run env n (z.code.start e)).status ≠ .broken := by
    have := congrArg Prod.snd (hsame n)
    exact fun hbroken => hok n (this.symm.trans hbroken)
  exact (k env hok' n).trans (hsame n)

/-- The word an instruction comes to because its operands are constants. -/
inductive Evaluates (w : View) (v : ValueId) : Int64 → Prop where
  | arith {op : ArithOp} {lhs rhs : ValueId} {x y n : Int64} :
      w.op v = some (.arith op lhs rhs) → w.op lhs = some (.const x) → w.op rhs = some (.const y) →
      op.eval? x y = some n → Evaluates w v n
  | compare {op : RelOp} {lhs rhs : ValueId} {x y : Int64} :
      w.op v = some (.compare op lhs rhs) → w.op lhs = some (.const x) →
      w.op rhs = some (.const y) → Evaluates w v (op.eval x y)

/-- A constant has its own word where it has one. -/
theorem constant_eq {w : View} {s : State} (h : w.code.Orderly s) {v : ValueId} {n x : Int64}
    (hv : w.op v = some (.const n)) (hx : s.regs v = some x) : x = n := by
  rcases h.constant v n hv with hnone | hsome
  · rw [hnone] at hx
    cases hx
  · exact Option.some.inj (hx.symm.trans hsome)

/-- An instruction on constants comes to its word when it is executed. -/
theorem Evaluates.act {w : View} {v : ValueId} {n : Int64} (h : w.Evaluates v n) {s : State}
    (hs : w.code.Orderly s) {env : Env} {op : Op} {action : Action} (hop : w.op v = some op)
    (haction : op.act? env s.trace s.regs = some action) : action = .next (some n) [] := by
  cases h with
  | arith hv hl hr hn =>
      obtain rfl := Option.some.inj (hop.symm.trans hv)
      simp only [Op.act?, Option.bind_eq_bind, Option.bind_eq_some_iff] at haction
      obtain ⟨x, hx, y, hy, haction⟩ := haction
      obtain rfl := constant_eq hs hl hx
      obtain rfl := constant_eq hs hr hy
      rw [hn] at haction
      exact (Option.some.inj haction).symm
  | compare hv hl hr =>
      obtain rfl := Option.some.inj (hop.symm.trans hv)
      simp only [Op.act?, Option.bind_eq_bind, Option.bind_eq_some_iff] at haction
      obtain ⟨x, hx, y, hy, haction⟩ := haction
      obtain rfl := constant_eq hs hl hx
      obtain rfl := constant_eq hs hr hy
      exact (Option.some.inj haction).symm

theorem lookup_map_snd (f : ValueId → ValueId) (q : BlockId) (os : List (BlockId × ValueId)) :
    (os.map fun p => (p.1, f p.2)).lookup q = (os.lookup q).map f := by
  induction os with
  | nil => rfl
  | cons p os ih =>
      rw [List.map_cons, List.lookup_cons, List.lookup_cons, ih]
      split <;> rfl

theorem lookup_filter_ne {q b : BlockId} (h : q ≠ b) (os : List (BlockId × ValueId)) :
    (os.filter (·.1 ≠ b)).lookup q = os.lookup q := by
  induction os with
  | nil => rfl
  | cons p os ih =>
      by_cases hp : p.1 = b
      · have hqp : (q == p.1) = false := beq_false_of_ne (hp ▸ h)
        rw [List.filter_cons_of_neg (by simpa using hp), ih, List.lookup_cons, hqp]
      · rw [List.filter_cons_of_pos (by simpa using hp), List.lookup_cons, List.lookup_cons, ih]

/-! ## A constant in the place of an instruction -/

/-- Two states in step, where the second program has the constant `c` for `old`. -/
structure Folded (w : View) (old c : ValueId) (s s' : State) : Prop where
  orderly : w.code.Orderly s
  status : s'.status = s.status
  block : s'.block = s.block
  trace : s'.trace = s.trace
  rest : s'.rest = s.rest.map (rename old c)
  regs : ∀ v, v ≠ c → s'.regs (rename old c v) = s.regs v

section

variable {w : View} {b : BlockId} {old : ValueId} {n : Int64} {s s' : State} {env : Env}

/-- Giving a value a word keeps two states in step. -/
theorem Folded.regs_set {c : ValueId} (h : Folded w old c s s') {v : ValueId} (hv : v ≠ c)
    (value : Option Int64) (u : ValueId) (hu : u ≠ c) :
    (if rename old c u = rename old c v then value else s'.regs (rename old c u))
      = if u = v then value else s.regs u := by
  have hinj : rename old c u = rename old c v ↔ u = v := by
    refine ⟨fun heq => ?_, fun heq => heq ▸ rfl⟩
    unfold rename at heq
    split at heq <;> split at heq <;> simp_all
  rw [h.regs u hu]
  by_cases huv : u = v
  · rw [if_pos huv, if_pos (hinj.2 huv)]
  · rw [if_neg huv, if_neg (mt hinj.1 huv)]

section

variable (h : Folded w old ⟨w.values⟩ s s') (hw : w.Tidy) (ht : w.Tables)
include h hw ht

theorem Folded.incoming {v : ValueId} {t : BlockId} (hv : v ∈ w.phis t) :
    (w.foldInto b old n).code.incoming s'.block s'.regs v
      = w.code.incoming s.block s.regs v := by
  obtain ⟨x, os, hop⟩ := hw.phi_of_phis v t hv
  have howner := hw.owner_of_phis hv
  have hop' : (w.foldInto b old n).code.op v
      = some (.phi x (os.map fun q => (q.1, rename old ⟨w.values⟩ q.2))) := by
    show (w.foldInto b old n).op v = _
    rw [hw.foldInto_op howner (ht.ne_of_owner howner), hop]
    rfl
  have hop'' : w.code.op v = some (.phi x os) := hop
  simp only [Code.incoming, hop', hop'', lookup_map_snd, h.block]
  cases hl : os.lookup s.block with
  | none => rfl
  | some u =>
      obtain ⟨before, behind, hsplit, -⟩ := List.lookup_eq_some_iff.1 hl
      have hu : u ∈ w.operands v := by simp [operands, hop, Op.operands, hsplit]
      exact h.regs u (ht.ne_fresh (hw.operand_op v t u howner hu))

theorem Folded.enter (hold : old ∈ w.body b) {target : BlockId} {t : State}
    (horderly : w.code.Orderly t) (hs : w.code.enter? s target = some t) :
    ∃ t', (w.foldInto b old n).code.enter? s' target = some t'
      ∧ Folded w old ⟨w.values⟩ t t' := by
  have hphis : (w.foldInto b old n).code.phis target = w.code.phis target :=
    hw.foldInto_phis hold target
  simp only [Code.enter?] at hs ⊢
  split at hs
  · next hready =>
      obtain rfl := Option.some.inj hs
      rw [if_pos]
      · refine ⟨_, rfl, horderly, h.status, rfl, h.trace, hw.foldInto_body ht hold target, ?_⟩
        intro v hv
        have hregs := h.regs v hv
        dsimp only
        rw [hphis]
        by_cases hvo : v = old
        · have hfresh : (⟨w.values⟩ : ValueId) ∉ w.code.phis target := fun hmem =>
            ht.ne_of_owner (hw.owner_of_phis hmem) rfl
          have hnot : v ∉ w.code.phis target := hw.not_phis (hvo ▸ hold)
          rw [if_neg hnot, ← hregs, hvo, rename_old, if_neg hfresh]
        · rw [rename_of_ne hvo] at hregs ⊢
          split
          · next hmem => exact h.incoming hw ht hmem
          · exact hregs
      · intro v hv
        rw [hphis] at hv
        rw [h.incoming hw ht hv]
        exact hready v hv
  · cases hs

theorem Folded.next (hold : old ∈ w.body b) (heval : w.Evaluates old n) {t : State}
    (hs : w.code.next? env s = some t) :
    ∃ t', (w.foldInto b old n).code.next? env s' = some t' ∧ Folded w old ⟨w.values⟩ t t' := by
  have horderly : w.code.Orderly t := h.orderly.next hw.phi_of_phis hs
  obtain ⟨v, rest, op, action, hrest, hop, haction, hperform⟩ := Code.next?_eq_some.1 hs
  have hop' : w.op v = some op := hop
  have hv : v ∈ w.body s.block := h.orderly.inside v (by simp [hrest])
  have howner := hw.owner_of_body hv
  have hfresh := ht.ne_of_owner howner
  have hrest' : s'.rest = rename old ⟨w.values⟩ v :: rest.map (rename old ⟨w.values⟩) := by
    rw [h.rest, hrest, List.map_cons]
  -- The instruction in the place of `v` comes to the same.
  obtain ⟨op', hnew, haction'⟩ : ∃ op', (w.foldInto b old n).code.op (rename old ⟨w.values⟩ v)
      = some op' ∧ op'.act? env s'.trace s'.regs = some action := by
    by_cases hvo : v = old
    · subst hvo
      obtain rfl := heval.act h.orderly hop' haction
      exact ⟨.const n, by rw [rename_old]; exact foldInto_fresh, rfl⟩
    · refine ⟨op.mapOperands (rename old ⟨w.values⟩), ?_, ?_⟩
      · rw [rename_of_ne hvo]
        show (w.foldInto b old n).op v = _
        rw [hw.foldInto_op howner hfresh, hop', Option.map_some]
      · rw [Op.act?_mapOperands, h.trace, ← haction]
        refine Op.act?_congr fun u hu => h.regs u (ht.ne_fresh ?_)
        exact hw.operand_op v s.block u howner (by simpa [operands, hop'] using hu)
  have hstep {t' : State} (hperform' : (w.foldInto b old n).code.perform? s'
      (rename old ⟨w.values⟩ v) (rest.map (rename old ⟨w.values⟩)) action = some t') :
      (w.foldInto b old n).code.next? env s' = some t' :=
    Code.next?_eq_some.2 ⟨_, _, op', action, hrest', hnew, haction', hperform'⟩
  cases action with
  | next value events =>
      obtain rfl := Option.some.inj hperform
      refine ⟨_, hstep rfl, horderly, h.status, h.block, by simp [h.trace], rfl, fun u hu => ?_⟩
      exact h.regs_set hfresh value u hu
  | goto target =>
      obtain ⟨t', ht', hfolded⟩ := h.enter (n := n) hw ht hold horderly hperform
      exact ⟨t', hstep ht', hfolded⟩
  | finish value =>
      obtain rfl := Option.some.inj hperform
      exact ⟨_, hstep rfl, horderly, rfl, h.block, h.trace, h.rest, h.regs⟩
  | stuck =>
      obtain rfl := Option.some.inj hperform
      exact ⟨_, hstep rfl, horderly, rfl, h.block, h.trace, h.rest, h.regs⟩

end

theorem alike_foldInto (hw : w.Tidy) (ht : w.Tables) (hold : old ∈ w.body b)
    (heval : w.Evaluates old n) (e : BlockId) : Alike w (w.foldInto b old n) e := by
  intro env hok
  refine Code.seen_of_simulation (R := Folded w old ⟨w.values⟩) (fun s s' h => ?_)
    (fun s s' t h hs => h.next hw ht hold heval hs) ?_ hok
  · rw [State.seen, State.seen, h.trace, h.status]
  · exact ⟨Code.orderly_start _ e, rfl, rfl, rfl, hw.foldInto_body ht hold e, fun _ _ => rfl⟩

end

/-! ## A branch that takes one way -/

section

variable {w : View} {b taken dropped : BlockId} {v : ValueId} {s : State} {env : Env}

/-- Where the branch goes does not change what phis take along other edges. -/
theorem Tidy.follow_incoming (hw : w.Tidy) (hv : v ∈ w.body b) {target : BlockId}
    (hother : s.block ≠ b ∨ target ≠ dropped) {u : ValueId} (hu : u ∈ w.phis target) :
    (w.follow b v taken dropped).code.incoming s.block s.regs u
      = w.code.incoming s.block s.regs u := by
  obtain ⟨x, os, hop⟩ := hw.phi_of_phis u target hu
  have huv : u ≠ v := by
    rintro rfl
    exact hw.not_phis hv hu
  have hjump : (w.becomeJump v taken).op u = some (.phi x os) := (if_neg huv).trans hop
  have hfollow : (w.follow b v taken dropped).code.op u = some
      (if u ∈ w.phis dropped then .phi x (os.filter (·.1 ≠ b)) else .phi x os) := by
    show (w.follow b v taken dropped).op u = _
    rw [follow_op, hjump]
    split <;> rfl
  have hop' : w.code.op u = some (.phi x os) := hop
  simp only [Code.incoming, hfollow, hop']
  by_cases hmem : u ∈ w.phis dropped
  · have hne : s.block ≠ b := hother.resolve_right fun hne => hne
      (Option.some.inj ((hw.owner_of_phis hu).symm.trans (hw.owner_of_phis hmem)))
    rw [if_pos hmem]
    simp only [lookup_filter_ne hne]
  · rw [if_neg hmem]

theorem follow_phis : (w.follow b v taken dropped).code.phis = w.code.phis := by
  obtain ⟨op, user, succs, preds, h⟩ := w.follow_rest b v taken dropped
  rw [h]
  rfl

theorem follow_body : (w.follow b v taken dropped).code.body = w.code.body := by
  obtain ⟨op, user, succs, preds, h⟩ := w.follow_rest b v taken dropped
  rw [h]
  rfl

/-- Following an edge that stays is the same as before. -/
theorem Tidy.follow_enter (hw : w.Tidy) (hv : v ∈ w.body b) {target : BlockId}
    (hother : s.block ≠ b ∨ target ≠ dropped) {t : State} (hs : w.code.enter? s target = some t) :
    (w.follow b v taken dropped).code.enter? s target = some t := by
  have hincoming {u : ValueId} (hu : u ∈ w.code.phis target) :
      (w.follow b v taken dropped).code.incoming s.block s.regs u
        = w.code.incoming s.block s.regs u := hw.follow_incoming hv hother hu
  simp only [Code.enter?, follow_phis, follow_body] at hs ⊢
  split at hs
  · next hready =>
      rw [if_pos fun u hu => hincoming hu ▸ hready u hu, ← hs]
      congr 2
      funext u
      split
      · next hu => exact hincoming hu
      · rfl
  · cases hs

/-- A branch on a constant and what it comes to. -/
structure Decided (w : View) (v : ValueId) (taken dropped : BlockId) : Prop where
  branch : ∃ c n t f, w.op v = some (.branch c t f) ∧ w.op c = some (.const n)
    ∧ (taken, dropped) = if n = 0 then (f, t) else (t, f)

theorem Tidy.follow_next (hw : w.Tidy) (hv : v ∈ w.body b) (hd : w.Decided v taken dropped)
    (horderly : w.code.Orderly s) {t : State} (hs : w.code.next? env s = some t) :
    (w.follow b v taken dropped).code.next? env s = some t := by
  obtain ⟨c, n, onTrue, onFalse, hbranch, hc, htaken⟩ := hd.branch
  obtain ⟨u, rest, op, action, hrest, hop, haction, hperform⟩ := Code.next?_eq_some.1 hs
  have hop' : w.op u = some op := hop
  have hu : u ∈ w.body s.block := horderly.inside u (by simp [hrest])
  have hnot : u ∉ w.phis dropped := hw.not_phis hu
  by_cases huv : u = v
  · -- The branch itself: its condition has the word of the constant.
    subst huv
    obtain rfl := Option.some.inj (hop'.symm.trans hbranch)
    simp only [Op.act?, Option.bind_eq_bind, Option.bind_eq_some_iff, Option.some.injEq] at haction
    obtain ⟨x, hx, rfl⟩ := haction
    obtain rfl := constant_eq horderly hc hx
    have hgoto : (if x = 0 then onFalse else onTrue) = taken := by
      split at htaken <;> simp_all
    have hne : taken ≠ dropped := by
      have hdistinct := (hw.branch u b c onTrue onFalse hv hbranch).1
      split at htaken
      · obtain ⟨rfl, rfl⟩ := Prod.mk.inj htaken
        exact hdistinct.symm
      · obtain ⟨rfl, rfl⟩ := Prod.mk.inj htaken
        exact hdistinct
    rw [hgoto] at hperform
    have hjump : (w.follow b u taken dropped).code.op u = some (.jump taken) := by
      show (w.follow b u taken dropped).op u = _
      rw [follow_op, if_neg hnot, becomeJump_op, if_pos rfl]
    exact Code.next?_eq_some.2 ⟨u, rest, _, .goto taken, hrest, hjump, rfl,
      hw.follow_enter hv (Or.inr hne) hperform⟩
  · have hsame : (w.follow b v taken dropped).code.op u = some op := by
      show (w.follow b v taken dropped).op u = _
      rw [follow_op, if_neg hnot, becomeJump_op, if_neg huv, hop']
    refine Code.next?_eq_some.2 ⟨u, rest, op, action, hrest, hsame, haction, ?_⟩
    cases action with
    | goto target =>
        refine hw.follow_enter hv (Or.inl ?_) hperform
        -- Another terminator cannot stand beside the branch.
        intro hblock
        have hterm : op.isTerminator = true := by
          by_contra hno
          rcases Op.act?_inside haction (Bool.eq_false_iff.2 hno) with h | ⟨_, _, h, -⟩ <;> cases h
        exact huv (hw.sole b u v op _ (hblock ▸ hu) hv hop' hbranch hterm rfl)
    | next | finish | stuck => exact hperform

theorem alike_follow (hw : w.Tidy) (hv : v ∈ w.body b) (hd : w.Decided v taken dropped)
    (e : BlockId) : Alike w (w.follow b v taken dropped) e := by
  intro env hok
  refine Code.seen_of_simulation (R := fun s s' => s' = s ∧ w.code.Orderly s) (fun s s' h => ?_)
    (fun s s' t h hs => ?_) ?_ hok
  · rw [h.1]
  · obtain ⟨rfl, horderly⟩ := h
    exact ⟨t, hw.follow_next hv hd horderly hs, rfl, horderly.next hw.phi_of_phis hs⟩
  · refine ⟨?_, Code.orderly_start _ e⟩
    rw [Code.start, Code.start, follow_body]

end

end View

end StructuredSsa
