import StructuredSsa.Proofs.FoldSteps
import StructuredSsa.Proofs.Passes

/-!
# Passes over any program

What one visit comes to on a program whose tables agree (`Fold.Outcome`), and what
a pass and repeated passes come to. A run of visits is a sequence of steps
(`Fold.Steps`), counted as folding counts them; it ends well, at a division by
zero, or with a fault. A pass without a step has found nothing to do, in any block
(`Program.Quiet`), and repeated passes end with such a pass unless they ran out.
-/

namespace StructuredSsa

namespace View

/-- A constant is divided by the constant zero. -/
def DividesByZero (w : View) (v : ValueId) : Prop :=
  ∃ lhs rhs x, w.op v = some (.arith .div lhs rhs) ∧ w.op lhs = some (.const x)
    ∧ w.op rhs = some (.const 0)

/-- There is nothing that folding does at an instruction. -/
structure Unfoldable (w : View) (v : ValueId) : Prop where
  value : ∀ n, ¬w.Evaluates v n
  way : ∀ taken dropped, ¬w.Decided v taken dropped
  division : ¬w.DividesByZero v

/-- An instruction whose operands are not all constants. -/
theorem unfoldable_of_operand {w : View} {v u : ValueId} (hu : u ∈ w.operands v)
    (hno : ∀ n, w.op u ≠ some (.const n)) : w.Unfoldable v := by
  have hread {o : Op} (hop : w.op v = some o) : u ∈ o.operands := by simpa [operands, hop] using hu
  refine ⟨fun n hn => ?_, fun taken dropped hd => ?_, ?_⟩
  · cases hn with
    | arith hop hl hr _ =>
        rcases (by simpa [Op.operands] using hread hop : u = _ ∨ u = _) with rfl | rfl
        · exact hno _ hl
        · exact hno _ hr
    | compare hop hl hr =>
        rcases (by simpa [Op.operands] using hread hop : u = _ ∨ u = _) with rfl | rfl
        · exact hno _ hl
        · exact hno _ hr
  · obtain ⟨c, n, t, f, hop, hc, -⟩ := hd.branch
    obtain rfl : u = c := by simpa [Op.operands] using hread hop
    exact hno _ hc
  · rintro ⟨lhs, rhs, x, hop, hl, hr⟩
    rcases (by simpa [Op.operands] using hread hop : u = _ ∨ u = _) with rfl | rfl
    · exact hno _ hl
    · exact hno _ hr

end View

namespace Program

variable {p q : Program}

theorem FoldedAt.body {b : BlockId} {old : ValueId} {n : Int64} {line : Nat}
    (h : p.FoldedAt q b old n line) (a : BlockId) :
    q.view.body a = (p.view.body a).map (rename old ⟨p.values.size⟩) := by
  simp only [view, h.block]
  cases p.block? a <;> rfl

theorem FollowedAt.body {b taken dropped : BlockId} {v : ValueId}
    (h : p.FollowedAt q b v taken dropped) (a : BlockId) : q.view.body a = p.view.body a := by
  simp only [view, h.block]
  cases p.block? a <;> rfl

theorem listedBlocks_of_bare (h : q.methods.map Method.bare = p.methods.map Method.bare) :
    q.listedBlocks = p.listedBlocks := by
  have hbare (p : Program) : p.listedBlocks
      = ((p.methods.map Method.bare).toList).flatMap (·.blocks) := by
    rw [listedBlocks, Array.toList_map, List.flatMap_map]
    rfl
  rw [hbare, hbare, h]

/-- There is nothing that a pass does. -/
def Quiet (p : Program) : Prop :=
  ∀ b ∈ p.listedBlocks, ∀ v ∈ p.view.body b, p.view.Unfoldable v

end Program

namespace Fold

open Program

variable {p q : Program} {b : BlockId} {v : ValueId} {count : FoldCount}

/-! ## One visit -/

/-- Everything a visit of the instruction `v` of block `b` can come to. -/
inductive Outcome (p : Program) (b : BlockId) (v : ValueId) (count : FoldCount) :
    EStateM.Result Stop Program FoldCount → Prop where
  | kept : p.view.Unfoldable v → Outcome p b v count (.ok count p)
  | folded {n : Int64} {i : Instr} {q : Program} : p.instr? v = some i → p.view.Evaluates v n →
      p.FoldedAt q b v n i.line →
      Outcome p b v count (.ok { count with folded := count.folded + 1 } q)
  | followed {taken dropped : BlockId} {q : Program} : p.view.Decided v taken dropped →
      p.FollowedAt q b v taken dropped →
      Outcome p b v count (.ok { count with simplified := count.simplified + 1 } q)
  | divided {i : Instr} : p.instr? v = some i → p.view.DividesByZero v →
      Outcome p b v count (.error (.error (.divisionByZero i.line)) p)
  | refused (f : Fault) (q : Program) : Outcome p b v count (.error (.fault f) q)

theorem constant_cases (p : Program) (u : ValueId) :
    (∃ o, p.view.op u = some o ∧ constant u p = .ok o.constant? p)
      ∨ constant u p = .error (.fault (.noValue u)) p := by
  cases hu : p.instr? u with
  | none =>
      right
      simp [constant, look, getInstr, hu, bind, Except.bind]
  | some i =>
      have hop : p.view.op u = some i.op := (view_of_instr hu).1
      exact Or.inl ⟨i.op, hop, constant_ok hop⟩

theorem eval?_eq_none {op : ArithOp} {x y : Int64} (h : op.eval? x y = none) : op = .div ∧ y = 0 := by
  cases op with
  | div =>
      refine ⟨rfl, ?_⟩
      by_contra hy
      simp [ArithOp.eval?, hy] at h
  | _ => cases h

theorem outcome_replace (h : p.Consistent) (hv : v ∈ p.view.body b) (count : FoldCount) {n : Int64}
    {i : Instr} (hi : p.instr? v = some i) (hn : p.view.Evaluates v n) :
    Outcome p b v count ((do
      replaceByConstant v n i.line
      return { count with folded := count.folded + 1 }) p) := by
  have hself : v ∉ p.operands v := by
    rw [← view_operands]
    intro hread
    cases hn with
    | arith hop hl hr _ =>
        rcases (by simpa [View.operands, hop, Op.operands] using hread : v = _ ∨ v = _) with rfl | rfl
        · cases hop.symm.trans hl
        · cases hop.symm.trans hr
    | compare hop hl hr =>
        rcases (by simpa [View.operands, hop, Op.operands] using hread : v = _ ∨ v = _) with rfl | rfl
        · cases hop.symm.trans hl
        · cases hop.symm.trans hr
  obtain ⟨q, hq, hfolded⟩ := exists_foldedAt h hv hself n i.line
  simp only [bind, EStateM.bind, hq]
  exact .folded hi hn hfolded

theorem outcome_follow (h : p.Consistent) (count : FoldCount) {taken dropped : BlockId}
    (hd : p.view.Decided v taken dropped) :
    Outcome p b v count ((do
      edit fun p => p.becomeJump v taken
      edit fun p => p.unlink b dropped
      return { count with simplified := count.simplified + 1 }) p) := by
  simp only [bind, EStateM.bind, edit]
  cases hjump : p.becomeJump v taken with
  | error f => exact .refused f p
  | ok s =>
      dsimp only
      cases hunlink : s.unlink b dropped with
      | error f => exact .refused f s
      | ok q => exact .followed hd (followedAt_of_unlink h hjump hunlink)

/-- Both operands of an instruction, where folding looks them up. -/
theorem outcome_constants {lhs rhs : ValueId} {f : Int64 → Int64 → FoldM FoldCount}
    (hlhs : lhs ∈ p.view.operands v) (hrhs : rhs ∈ p.view.operands v)
    (hf : ∀ x y, p.view.op lhs = some (.const x) → p.view.op rhs = some (.const y) →
      Outcome p b v count (f x y p)) :
    Outcome p b v count ((do
      match ← constant lhs, ← constant rhs with
      | some x, some y => f x y
      | _, _ => return count) p) := by
  simp only [bind, EStateM.bind]
  rcases constant_cases p lhs with ⟨l, hl, hlrun⟩ | hlrun
  · rcases constant_cases p rhs with ⟨r, hr, hrrun⟩ | hrrun
    · simp only [hlrun, hrrun]
      have hother {u : ValueId} {o : Op} (hu : u ∈ p.view.operands v) (ho : p.view.op u = some o)
          (hnone : o.constant? = none) : p.view.Unfoldable v := by
        refine View.unfoldable_of_operand hu fun n hn => ?_
        obtain rfl := Option.some.inj (ho.symm.trans hn)
        cases hnone
      cases hx : l.constant? with
      | none => exact .kept (hother hlhs hl hx)
      | some x =>
          cases hy : r.constant? with
          | none => exact .kept (hother hrhs hr hy)
          | some y =>
              rw [constant_eq_some] at hx hy
              subst hx hy
              exact hf x y hl hr
    · simp only [hlrun, hrrun]
      exact .refused _ _
  · simp only [hlrun]
    exact .refused _ _

theorem visit_outcome (h : p.Consistent) (hv : v ∈ p.view.body b) (count : FoldCount) :
    Outcome p b v count (visit b count v p) := by
  obtain ⟨i, hi, -⟩ := h.exists_instr (mem_contents_of_body hv)
  have hop : p.view.op v = some i.op := (view_of_instr hi).1
  have hvisit : look (fun p => p.getInstr v) p = .ok i p := by simp [look, getInstr_ok hi]
  have hother (hno : ∀ op l r, i.op ≠ .arith op l r) (hno' : ∀ op l r, i.op ≠ .compare op l r)
      (hno'' : ∀ c t f, i.op ≠ .branch c t f) : p.view.Unfoldable v := by
    refine ⟨fun n hn => ?_, fun taken dropped hd => ?_, ?_⟩
    · cases hn with
      | arith hop' => exact hno _ _ _ (Option.some.inj (hop.symm.trans hop'))
      | compare hop' => exact hno' _ _ _ (Option.some.inj (hop.symm.trans hop'))
    · obtain ⟨c, n, t, f, hop', -⟩ := hd.branch
      exact hno'' _ _ _ (Option.some.inj (hop.symm.trans hop'))
    · rintro ⟨l, r, x, hop', -⟩
      exact hno _ _ _ (Option.some.inj (hop.symm.trans hop'))
  have hread {u : ValueId} (hu : u ∈ i.op.operands) : u ∈ p.view.operands v := by
    simpa [View.operands, hop] using hu
  simp only [visit, bind, EStateM.bind, hvisit]
  cases hcase : i.op with
  | arith o lhs rhs =>
      rw [hcase] at hop hread
      refine outcome_constants (hread (by simp [Op.operands])) (hread (by simp [Op.operands]))
        fun x y hl hr => ?_
      cases hn : o.eval? x y with
      | none =>
          obtain ⟨rfl, rfl⟩ := eval?_eq_none hn
          exact .divided hi ⟨lhs, rhs, x, hop, hl, hr⟩
      | some n => exact outcome_replace h hv count hi (.arith hop hl hr hn)
  | compare o lhs rhs =>
      rw [hcase] at hop hread
      exact outcome_constants (hread (by simp [Op.operands])) (hread (by simp [Op.operands]))
        fun x y hl hr => outcome_replace h hv count hi (.compare hop hl hr)
  | branch c t f =>
      rw [hcase] at hop hread
      rcases constant_cases p c with ⟨o, ho, horun⟩ | horun
      · simp only [EStateM.bind, horun]
        cases hn : o.constant? with
        | none =>
            refine .kept (View.unfoldable_of_operand (u := c) (hread (by simp [Op.operands])) fun n hc => ?_)
            obtain rfl := Option.some.inj (ho.symm.trans hc)
            cases hn
        | some n =>
            rw [constant_eq_some] at hn
            subst hn
            exact outcome_follow h count ⟨c, n, t, f, hop, ho, rfl⟩
      · simp only [EStateM.bind, horun]
        exact .refused _ _
  | _ => exact .kept (hother (by simp [hcase]) (by simp [hcase]) (by simp [hcase]))

/-- What stands behind the visited instruction stays in the block. -/
theorem Outcome.stays {count' : FoldCount} (h : Outcome p b v count (.ok count' q)) {u : ValueId}
    (hu : u ∈ p.view.body b) (hne : u ≠ v) : u ∈ q.view.body b := by
  cases h with
  | kept _ => exact hu
  | folded _ _ hfolded =>
      rw [hfolded.body]
      exact List.mem_map.2 ⟨u, hu, rename_of_ne hne⟩
  | followed _ hfollowed =>
      rw [hfollowed.body]
      exact hu

/-! ## Sequences of steps -/

/-- `Steps p j k q`: from `p` to `q` with `j` instructions of listed blocks folded and
`k` branches simplified. -/
inductive Steps (p : Program) : Nat → Nat → Program → Prop where
  | refl : Steps p 0 0 p
  | folded {j k : Nat} {q q' : Program} {b : BlockId} {v : ValueId} {n : Int64} {i : Instr} :
      Steps p j k q → b ∈ q.listedBlocks → v ∈ q.view.body b → q.instr? v = some i →
      q.view.Evaluates v n → q.FoldedAt q' b v n i.line → Steps p (j + 1) k q'
  | followed {j k : Nat} {q q' : Program} {b taken dropped : BlockId} {v : ValueId} :
      Steps p j k q → b ∈ q.listedBlocks → v ∈ q.view.body b → q.view.Decided v taken dropped →
      q.FollowedAt q' b v taken dropped → Steps p j (k + 1) q'

section

variable {j k j' k' : Nat} {s : Program}

section

variable (h : Steps p j k q)
include h

theorem Steps.trans (h' : Steps q j' k' s) : Steps p (j + j') (k + k') s := by
  induction h' with
  | refl => exact h
  | folded _ hb hv hi hn hfolded ih => exact .folded ih hb hv hi hn hfolded
  | followed _ hb hv hd hfollowed ih => exact .followed ih hb hv hd hfollowed

theorem Steps.consistent (hp : p.Consistent) : q.Consistent := by
  cases h with
  | refl => exact hp
  | folded _ _ _ _ _ hfolded => exact hfolded.consistent
  | followed _ _ _ _ hfollowed => exact hfollowed.consistent

theorem Steps.methods : q.methods.map Method.bare = p.methods.map Method.bare := by
  induction h with
  | refl => rfl
  | folded _ _ _ _ _ hfolded ih => rw [hfolded.methods, ih]
  | followed _ _ _ _ hfollowed ih => rw [hfollowed.methods, ih]

theorem Steps.listedBlocks : q.listedBlocks = p.listedBlocks :=
  listedBlocks_of_bare h.methods

/-- Without a step nothing is changed. -/
theorem Steps.eq_of_zero (hj : j = 0) (hk : k = 0) : q = p := by
  cases h with
  | refl => rfl
  | folded => cases hj
  | followed => cases hk

end

end

/-! ## Runs of visits -/

/-- Everything a run of visits can come to, from a count on. `Q` is what is known of
the program if the run takes no step. -/
inductive Ran (Q : Program → Prop) (p : Program) (count : FoldCount) :
    EStateM.Result Stop Program FoldCount → Prop where
  | done {j k : Nat} {q : Program} : Steps p j k q → (j = 0 → k = 0 → Q p) →
      Ran Q p count (.ok ⟨count.folded + j, count.simplified + k, count.passes⟩ q)
  | divided {j k : Nat} {q : Program} {b : BlockId} {v : ValueId} (line : Nat) : Steps p j k q →
      b ∈ q.listedBlocks → v ∈ q.view.body b → q.view.DividesByZero v →
      Ran Q p count (.error (.error (.divisionByZero line)) q)
  | refused (f : Fault) (q : Program) : Ran Q p count (.error (.fault f) q)

variable {Q R S : Program → Prop}

theorem Ran.mono {result : EStateM.Result Stop Program FoldCount} (h : Ran Q p count result)
    (hQR : Q p → R p) : Ran R p count result := by
  cases h with
  | done hsteps hquiet => exact .done hsteps fun hj hk => hQR (hquiet hj hk)
  | divided line hsteps hb hv hzero => exact .divided line hsteps hb hv hzero
  | refused f q => exact .refused f q

/-- One run after another. -/
theorem Ran.bind {x : FoldM FoldCount} {f : FoldCount → FoldM FoldCount} (hx : Ran Q p count (x p))
    (hf : ∀ {j k q}, x p = .ok ⟨count.folded + j, count.simplified + k, count.passes⟩ q →
      Steps p j k q → Ran R q ⟨count.folded + j, count.simplified + k, count.passes⟩
        (f ⟨count.folded + j, count.simplified + k, count.passes⟩ q))
    (hS : Q p → R p → S p) : Ran S p count ((x >>= f) p) := by
  simp only [Bind.bind, EStateM.bind]
  generalize hrun : x p = result at hx hf
  cases hx with
  | refused g q => exact .refused g q
  | divided line hsteps hb hv hzero => exact .divided line hsteps hb hv hzero
  | @done j k q hsteps hquiet =>
      have hthen := hf rfl hsteps
      dsimp only
      generalize f ⟨count.folded + j, count.simplified + k, count.passes⟩ q = result at hthen
      cases hthen with
      | refused g q => exact .refused g q
      | divided line hrest hb hv hzero => exact .divided line (hsteps.trans hrest) hb hv hzero
      | done hrest hquiet' =>
          have hall := hsteps.trans hrest
          rw [Nat.add_assoc, Nat.add_assoc]
          refine .done hall fun hj hk => ?_
          obtain ⟨rfl, rfl⟩ := Nat.add_eq_zero_iff.1 hj
          obtain ⟨rfl, rfl⟩ := Nat.add_eq_zero_iff.1 hk
          obtain rfl := hsteps.eq_of_zero rfl rfl
          exact hS (hquiet rfl rfl) (hquiet' rfl rfl)

theorem visit_ran (h : p.Consistent) (hb : b ∈ p.listedBlocks) (hv : v ∈ p.view.body b)
    (count : FoldCount) : Ran (·.view.Unfoldable v) p count (visit b count v p) := by
  have houtcome := visit_outcome h hv count
  generalize visit b count v p = result at houtcome
  cases houtcome with
  | kept hno => exact .done .refl fun _ _ => hno
  | folded hi hn hfolded => exact .done (.folded .refl hb hv hi hn hfolded) fun hj _ => nomatch hj
  | followed hd hfollowed => exact .done (.followed .refl hb hv hd hfollowed) fun _ hk => nomatch hk
  | divided hi hzero => exact .divided _ .refl hb hv hzero
  | refused f q => exact .refused f q

theorem visits_ran : ∀ {vs : List ValueId} {p : Program} {count : FoldCount}, p.Consistent →
    b ∈ p.listedBlocks → vs.Nodup → (∀ v ∈ vs, v ∈ p.view.body b) →
    Ran (fun p => ∀ v ∈ vs, p.view.Unfoldable v) p count (vs.foldlM (visit b) count p)
  | [], _, _, _, _, _, _ => .done .refl fun _ _ _ hv => nomatch hv
  | v :: vs, p, count, h, hb, hnodup, hvs => by
      rw [List.foldlM_cons]
      obtain ⟨hnot, hnodup⟩ := List.nodup_cons.1 hnodup
      have hv := hvs v (List.mem_cons_self ..)
      refine (visit_ran h hb hv count).bind (R := fun p => ∀ v ∈ vs, p.view.Unfoldable v)
        (fun {j k q} hrun hsteps => ?_) fun hno hrest => List.forall_mem_cons.2 ⟨hno, hrest⟩
      refine visits_ran (hsteps.consistent h) (hsteps.listedBlocks ▸ hb) hnodup fun u hu => ?_
      have houtcome := visit_outcome h hv count
      rw [hrun] at houtcome
      exact houtcome.stays (hvs u (List.mem_cons_of_mem _ hu)) (by rintro rfl; exact hnot hu)

theorem visitBlock_ran (h : p.Consistent) (hb : b ∈ p.listedBlocks) (count : FoldCount) :
    Ran (fun p => ∀ v ∈ p.view.body b, p.view.Unfoldable v) p count (visitBlock count b p) := by
  cases hr : p.block? b with
  | none =>
      simp only [visitBlock, bind, EStateM.bind, look, getBlock, hr]
      exact .refused _ _
  | some r =>
      obtain ⟨-, -, -, hbody, -⟩ := view_of_block hr
      have hrun : visitBlock count b p = (p.view.body b).foldlM (visit b) count p := by
        simp [visitBlock, bind, EStateM.bind, look, getBlock_ok hr, hbody]
      rw [hrun]
      exact (visits_ran h hb (hbody ▸ (h.body_nodup hr).1) fun v hv => hv).mono id

theorem visitBlocks_ran : ∀ {bs : List BlockId} {p : Program} {count : FoldCount}, p.Consistent →
    (∀ b ∈ bs, b ∈ p.listedBlocks) →
    Ran (fun p => ∀ b ∈ bs, ∀ v ∈ p.view.body b, p.view.Unfoldable v) p count
      (bs.foldlM visitBlock count p)
  | [], _, _, _, _ => .done .refl fun _ _ _ hb => nomatch hb
  | b :: bs, p, count, h, hbs => by
      rw [List.foldlM_cons]
      refine (visitBlock_ran h (hbs b (List.mem_cons_self ..)) count).bind
        (R := fun p => ∀ b ∈ bs, ∀ v ∈ p.view.body b, p.view.Unfoldable v)
        (fun _ hsteps => visitBlocks_ran (hsteps.consistent h) fun c hc => ?_)
        fun hno hrest => List.forall_mem_cons.2 ⟨hno, hrest⟩
      rw [hsteps.listedBlocks]
      exact hbs c (List.mem_cons_of_mem _ hc)

theorem pass_ran (h : p.Consistent) : Ran Program.Quiet p ⟨0, 0, 1⟩ (pass p) := by
  have hrun : pass p = p.listedBlocks.foldlM visitBlock ⟨0, 0, 1⟩ p := rfl
  rw [hrun]
  exact (visitBlocks_ran h fun b hb => hb).mono id

/-! ## Repeated passes -/

/-- Everything that up to `n + 1` passes can come to. Where they end well, the last of
them found nothing to do, or each of them took a step and they ran out. -/
inductive Repeated (n : Nat) (p : Program) : EStateM.Result Stop Program FoldCount → Prop where
  | done {j k passes : Nat} {q : Program} : Steps p j k q → 1 ≤ passes → passes ≤ n + 1 →
      passes ≤ 1 + j + k →
      ((∃ count, pass q = .ok count q ∧ count.changed = false) ∧ q.Quiet
        ∨ passes = n + 1 ∧ passes ≤ j + k) →
      Repeated n p (.ok ⟨j, k, passes⟩ q)
  | divided {j k : Nat} {q : Program} {b : BlockId} {v : ValueId} (line : Nat) : Steps p j k q →
      b ∈ q.listedBlocks → v ∈ q.view.body b → q.view.DividesByZero v →
      Repeated n p (.error (.error (.divisionByZero line)) q)
  | refused (f : Fault) (q : Program) : Repeated n p (.error (.fault f) q)

/-- A pass that counts no change has made none. -/
theorem unchanged_of_pass (h : p.Consistent) {count : FoldCount} (hrun : pass p = .ok count q)
    (hno : count.changed = false) : q = p ∧ p.Quiet := by
  have hran := pass_ran h
  rw [hrun] at hran
  cases hran with
  | done hsteps hquiet =>
      simp only [FoldCount.changed, Nat.zero_add, Bool.or_eq_false_iff, decide_eq_false_iff_not,
        Nat.not_lt, Nat.le_zero] at hno
      exact ⟨hsteps.eq_of_zero hno.1 hno.2, hquiet hno.1 hno.2⟩

/-- The only pass that is made, if it takes no step or is all that is allowed. -/
theorem repeated_of_pass (h : p.Consistent) {j k n : Nat} (hsteps : Steps p j k q)
    (hrun : pass p = .ok ⟨j, k, 1⟩ q) (hlast : j + k = 0 ∨ n = 0) :
    Repeated n p (.ok ⟨j, k, 1⟩ q) := by
  refine .done hsteps (Nat.le_refl 1) (by omega) (by omega) ?_
  by_cases hno : j + k = 0
  · have hchanged : FoldCount.changed ⟨j, k, 1⟩ = false := by
      simpa [FoldCount.changed] using Nat.add_eq_zero_iff.1 hno
    obtain ⟨rfl, hquiet⟩ := unchanged_of_pass h hrun hchanged
    exact Or.inl ⟨⟨_, hrun, hchanged⟩, hquiet⟩
  · exact Or.inr (by omega)

theorem repeated_cases : ∀ (n : Nat) {p : Program}, p.Consistent → Repeated n p (repeated n p)
  | 0, p, h => by
      have hran := pass_ran h
      show Repeated 0 p (pass p)
      generalize hrun : pass p = result at hran
      cases hran with
      | refused f q => exact .refused f q
      | divided line hsteps hb hv hzero => exact .divided line hsteps hb hv hzero
      | done hsteps _ =>
          simp only [Nat.zero_add] at hrun ⊢
          exact repeated_of_pass h hsteps hrun (Or.inr rfl)
  | n + 1, p, h => by
      have hran := pass_ran h
      simp only [repeated, bind, EStateM.bind]
      generalize hrun : pass p = result at hran
      cases hran with
      | refused f q => exact .refused f q
      | divided line hsteps hb hv hzero => exact .divided line hsteps hb hv hzero
      | @done j k q hsteps _ =>
          simp only [Nat.zero_add] at hrun ⊢
          split
          · next hchanged =>
              have hmoved : 0 < j ∨ 0 < k := by simpa [FoldCount.changed] using hchanged
              have hrest := repeated_cases n (hsteps.consistent h)
              simp only [EStateM.bind]
              generalize repeated n q = result at hrest
              cases hrest with
              | refused f q => exact .refused f q
              | divided line hrest hb hv hzero => exact .divided line (hsteps.trans hrest) hb hv hzero
              | @done j' k' passes s hrest hone hbound hsum hend =>
                  show Repeated (n + 1) p (.ok ⟨j + j', k + k', 1 + passes⟩ s)
                  refine .done (hsteps.trans hrest) (by omega) (by omega) (by omega) ?_
                  exact hend.imp_right fun hlast => by omega
          · next hchanged =>
              have hstill : ¬(0 < j ∨ 0 < k) := by simpa [FoldCount.changed] using hchanged
              exact repeated_of_pass h hsteps hrun (Or.inl (by omega))

end Fold

end StructuredSsa
