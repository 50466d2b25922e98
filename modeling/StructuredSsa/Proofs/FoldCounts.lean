import StructuredSsa.Proofs.FoldRuns
import StructuredSsa.Proofs.Requests

/-!
# What folding counts

The numbers that folding reports are differences: so many computations and
comparisons fewer in the listed blocks, so many branches fewer. Both are told of one
kind of operation at a time (`Op.OnlyLost`), since a step takes away the instruction at
which it is made and leaves every other one of its kind.
-/

namespace StructuredSsa

namespace Op

/-- A computation or a comparison. -/
def isComputed : Op → Bool
  | arith .. | compare .. => true
  | _ => false

/-- A branch on a condition. -/
def isBranch : Op → Bool
  | branch .. => true
  | _ => false

/-- A kind of operation that folding may take away and never adds: what is read does
not matter to it, and neither constants nor jumps are of it. -/
structure OnlyLost (kind : Op → Bool) : Prop where
  mapOperands : ∀ op f, kind (op.mapOperands f) = kind op
  without : ∀ op a, kind (op.without a) = kind op
  const : ∀ n, kind (const n) = false
  jump : ∀ t, kind (jump t) = false

theorem onlyLost_isComputed : OnlyLost isComputed where
  mapOperands op f := by cases op <;> rfl
  without op a := by cases op <;> rfl
  const _ := rfl
  jump _ := rfl

theorem onlyLost_isBranch : OnlyLost isBranch where
  mapOperands op f := by cases op <;> rfl
  without op a := by cases op <;> rfl
  const _ := rfl
  jump _ := rfl

end Op

/-- Two counts over a list without repetitions that differ at one of its elements. -/
theorem countP_of_eq_off {α : Type} [DecidableEq α] {l : List α} (hl : l.Nodup) {a : α} (ha : a ∈ l)
    {P Q : α → Bool} (hQ : Q a = false) (h : ∀ x ∈ l, x ≠ a → Q x = P x) :
    l.countP P = l.countP Q + (P a).toNat := by
  have hperm := List.perm_cons_erase ha
  have hrest : (l.erase a).countP Q = (l.erase a).countP P :=
    List.countP_congr fun x hx => by
      obtain ⟨hne, hx⟩ := (hl.mem_erase_iff).1 hx
      rw [h x hx hne]
  rw [hperm.countP_eq, hperm.countP_eq, List.countP_cons, List.countP_cons, hrest, hQ]
  cases P a <;> simp

namespace Program

variable {p q : Program}

/-- The instructions of the listed blocks. -/
def listedValues (p : Program) : List ValueId := p.listedBlocks.flatMap p.contents

/-- How many instructions of the listed blocks are of a kind. -/
def countOps (p : Program) (kind : Op → Bool) : Nat := (p.opsOf p.listedValues).countP kind

/-- Whether an instruction is of a kind. -/
def isOf (p : Program) (kind : Op → Bool) (v : ValueId) : Bool := (p.view.op v).any kind

theorem countOps_eq (p : Program) (kind : Op → Bool) :
    p.countOps kind = p.listedValues.countP (p.isOf kind) := by
  rw [countOps, opsOf, List.countP_filterMap]
  refine List.countP_congr fun v _ => ?_
  cases hi : p.instr? v <;> simp [isOf, view, hi]

theorem Consistent.listedValues_nodup (h : p.Consistent) (hlisted : p.listedBlocks.Nodup) :
    p.listedValues.Nodup := by
  refine List.nodup_flatMap.2 ⟨fun b _ => h.housed.contents_nodup b, ?_⟩
  refine hlisted.imp fun {a b} hne v ha hb => hne (h.eq_of_contents ha hb)

theorem mem_listedValues {b : BlockId} {v : ValueId} (hb : b ∈ p.listedBlocks)
    (hv : v ∈ p.view.body b) : v ∈ p.listedValues :=
  List.mem_flatMap.2 ⟨b, hb, mem_contents_of_body hv⟩

/-- The constant stands where the instruction stood. -/
theorem FoldedAt.contents (hp : p.Consistent) {b : BlockId} {old : ValueId} {n : Int64} {line : Nat}
    (h : p.FoldedAt q b old n line) (hold : old ∈ p.view.body b) (a : BlockId) :
    q.contents a = (p.contents a).map (rename old ⟨p.values.size⟩) := by
  rw [Program.contents, Program.contents, h.block]
  cases hr : p.block? a with
  | none => rfl
  | some r =>
      have hphis : r.phis.map (rename old ⟨p.values.size⟩) = r.phis := by
        refine (List.map_congr_left fun v hv => rename_of_ne ?_).trans (List.map_id _)
        rintro rfl
        have hmem : v ∈ p.contents a := by simp [Program.contents, hr, Block.contents, hv]
        obtain rfl := hp.eq_of_contents hmem (mem_contents_of_body hold)
        have hbody : v ∈ r.body := by simpa [view, hr] using hold
        exact (hp.body_nodup hr).2 v hbody hv
      simp [Block.contents, Block.substitute, hphis]

theorem FollowedAt.contents {b taken dropped : BlockId} {v : ValueId}
    (h : p.FollowedAt q b v taken dropped) (a : BlockId) : q.contents a = p.contents a := by
  rw [Program.contents, Program.contents, h.block]
  cases p.block? a <;> rfl

/-! ## One step -/

variable {kind : Op → Bool} (hkind : Op.OnlyLost kind) (hp : p.Consistent) (hlisted : p.listedBlocks.Nodup)
  {b : BlockId} (hb : b ∈ p.listedBlocks)

include hkind hp hlisted hb

theorem FoldedAt.countOps {old : ValueId} {n : Int64} {line : Nat} (h : p.FoldedAt q b old n line)
    (hold : old ∈ p.view.body b) : p.countOps kind = q.countOps kind + (p.isOf kind old).toNat := by
  obtain ⟨us, hconst, -⟩ := h.constant
  have hvalues : q.listedValues = p.listedValues.map (rename old ⟨p.values.size⟩) := by
    have hblocks : q.listedBlocks = p.listedBlocks := by rw [listedBlocks, listedBlocks, h.methods]
    rw [listedValues, listedValues, hblocks, List.map_flatMap]
    exact congrArg (p.listedBlocks.flatMap ·) (funext (h.contents hp hold))
  rw [countOps_eq, countOps_eq, hvalues, List.countP_map]
  refine countP_of_eq_off (hp.listedValues_nodup hlisted) (mem_listedValues hb hold) ?_
    fun x hx hne => ?_
  · simp [isOf, view, hconst, hkind.const]
  · obtain ⟨a, -, hxa⟩ := List.mem_flatMap.1 hx
    obtain ⟨i, hi, -⟩ := hp.exists_instr hxa
    have hfresh : x ≠ ⟨p.values.size⟩ := by
      rintro rfl
      cases p.instr?_fresh.symm.trans hi
    simp only [Function.comp_apply, rename_of_ne hne, isOf, view, h.other x hfresh hne, hi,
      Option.map_some, Option.any_some]
    split
    · exact hkind.mapOperands ..
    · rfl

theorem FollowedAt.countOps {taken dropped : BlockId} {v : ValueId}
    (h : p.FollowedAt q b v taken dropped) (hv : v ∈ p.view.body b) :
    p.countOps kind = q.countOps kind + (p.isOf kind v).toNat := by
  have hvalues : q.listedValues = p.listedValues := by
    rw [listedValues, listedValues, listedBlocks_of_bare h.methods]
    exact congrArg (p.listedBlocks.flatMap ·) (funext h.contents)
  have hop (x : ValueId) : q.isOf kind x = ((p.view.op x).map fun op =>
      if x = v then .jump taken else if x ∈ p.phis dropped then op.without b else op).any kind := by
    rw [isOf, (h.instr x).view_op]
  rw [countOps_eq, countOps_eq, hvalues]
  refine countP_of_eq_off (hp.listedValues_nodup hlisted) (mem_listedValues hb hv) ?_
    fun x _ hne => ?_
  · rw [hop]
    cases p.view.op v <;> simp [hkind.jump]
  · rw [hop, isOf]
    cases p.view.op x with
    | none => rfl
    | some op =>
        simp only [Option.map_some, Option.any_some, if_neg hne]
        split
        · exact hkind.without ..
        · rfl

end Program

/-! ## Whole runs -/

namespace Fold

open Program

variable {p q : Program} {count : FoldCount}

/-- Each step takes away one instruction, of the kind that is counted for it. -/
theorem Steps.countOps {j k : Nat} (h : Steps p j k q) (hp : p.Consistent)
    (hlisted : p.listedBlocks.Nodup) :
    p.countOps Op.isComputed = q.countOps Op.isComputed + j
      ∧ p.countOps Op.isBranch = q.countOps Op.isBranch + k := by
  induction h with
  | refl => exact ⟨rfl, rfl⟩
  | @folded j k q q' b v n i hsteps hb hv hi hn hfolded ih =>
      have hq := hsteps.consistent hp
      have honce := hsteps.listedBlocks ▸ hlisted
      have hcomputed := hfolded.countOps Op.onlyLost_isComputed hq honce hb hv
      have hbranch := hfolded.countOps Op.onlyLost_isBranch hq honce hb hv
      have hof : q.isOf Op.isComputed v = true ∧ q.isOf Op.isBranch v = false := by
        cases hn with
        | arith hop => simp [isOf, hop, Op.isComputed, Op.isBranch]
        | compare hop => simp [isOf, hop, Op.isComputed, Op.isBranch]
      rw [hof.1, Bool.toNat_true] at hcomputed
      rw [hof.2, Bool.toNat_false] at hbranch
      omega
  | @followed j k q q' b taken dropped v hsteps hb hv hd hfollowed ih =>
      have hq := hsteps.consistent hp
      have honce := hsteps.listedBlocks ▸ hlisted
      have hcomputed := hfollowed.countOps Op.onlyLost_isComputed hq honce hb hv
      have hbranch := hfollowed.countOps Op.onlyLost_isBranch hq honce hb hv
      obtain ⟨c, n, t, f, hop, -⟩ := hd.branch
      have hof : q.isOf Op.isComputed v = false ∧ q.isOf Op.isBranch v = true := by
        simp [isOf, hop, Op.isComputed, Op.isBranch]
      rw [hof.1, Bool.toNat_false] at hcomputed
      rw [hof.2, Bool.toNat_true] at hbranch
      omega

/-- A run that ends well is a sequence of steps with the numbers that it reports. -/
theorem steps_of_run (hp : p.Consistent) {level maxPasses : Nat} (hlevel : 1 ≤ level)
    (hrun : run level maxPasses p = .ok count q) : Steps p count.folded count.simplified q := by
  match level, hlevel with
  | 1, _ =>
      have hran := pass_ran hp
      rw [show pass p = .ok count q from hrun] at hran
      cases hran with
      | done hsteps _ => simpa using hsteps
  | level + 2, _ =>
      have hrepeated := repeated_cases (maxPasses - 1) hp
      rw [show repeated (maxPasses - 1) p = .ok count q from hrun] at hrepeated
      cases hrepeated with
      | done hsteps _ _ _ _ => exact hsteps

/-- At the lowest level there is one pass. -/
theorem passes_of_pass (hp : p.Consistent) (hrun : pass p = .ok count q) : count.passes = 1 := by
  have hran := pass_ran hp
  rw [hrun] at hran
  cases hran with
  | done => rfl

/-- Repeated passes are bounded by what is allowed and by what there was to do, and
where there could have been more of them, another one changes nothing. -/
theorem passes_of_repeated (hp : p.Consistent) {n : Nat} (hrun : repeated n p = .ok count q) :
    1 ≤ count.passes ∧ count.passes ≤ n + 1
      ∧ count.passes ≤ 1 + count.folded + count.simplified
      ∧ (count.passes < n + 1 → ∃ again, pass q = .ok again q ∧ again.changed = false) := by
  have hrepeated := repeated_cases n hp
  rw [hrun] at hrepeated
  cases hrepeated with
  | done _ hone hbound hsum hend =>
      refine ⟨hone, hbound, hsum, fun hfew => ?_⟩
      rcases hend with ⟨hquiet, -⟩ | ⟨hall, -⟩
      · exact hquiet
      · exact absurd hall (Nat.ne_of_lt hfew)

/-- The report and the program of a run that ends well. -/
def ended? : EStateM.Result Stop Program FoldCount → Option (FoldCount × Program)
  | .ok count q => some (count, q)
  | .error .. => none

/-- What folding reports of a program that requests make, if both go well. -/
def report? (requests : List Request) (level maxPasses : Nat) : Option FoldCount :=
  (afterRequests requests).toOption.bind fun p => (ended? (run level maxPasses p)).map (·.1)

theorem exists_of_report? {requests : List Request} {level maxPasses : Nat}
    (h : report? requests level maxPasses = some count) :
    ∃ p q, afterRequests requests = .ok p ∧ run level maxPasses p = .ok count q := by
  unfold report? at h
  cases hp : afterRequests requests with
  | error f => simp [hp, Except.toOption] at h
  | ok p =>
      rw [hp] at h
      cases hrun : run level maxPasses p with
      | error e q => simp [Except.toOption, ended?, hrun] at h
      | ok result q =>
          obtain rfl : result = count := by simpa [Except.toOption, ended?, hrun] using h
          exact ⟨p, q, rfl, hrun⟩

/-- What can be computed of the program that requests make. -/
theorem of_afterRequests {requests : List Request} (h : afterRequests requests = .ok p)
    {P : Program → Bool} (hall : (afterRequests requests).toOption.all P = true) : P p = true := by
  rw [h] at hall
  exact hall

end Fold

/-- Folding that ends well reports how many computations and comparisons and how many
branches the listed blocks have lost. It reports a change exactly if the program is
another one. There is one pass at the lowest level; at the others, where passes were
left, one more finds nothing to change. -/
theorem afterRequests_fold_counts {requests : List Request} {p q : Program}
    (h : Program.afterRequests requests = .ok p) {level maxPasses : Nat} {count : FoldCount}
    (hlevel : 1 ≤ level) (hrun : Fold.run level maxPasses p = .ok count q) :
    p.countOps Op.isComputed = q.countOps Op.isComputed + count.folded
      ∧ p.countOps Op.isBranch = q.countOps Op.isBranch + count.simplified
      ∧ (count.changed = false ↔ q = p)
      ∧ (level = 1 → count.passes = 1)
      ∧ (2 ≤ level → 1 ≤ count.passes ∧ count.passes ≤ max 1 maxPasses
        ∧ count.passes ≤ 1 + count.folded + count.simplified
        ∧ (count.passes < max 1 maxPasses →
          ∃ again, Fold.pass q = .ok again q ∧ again.changed = false)) := by
  obtain ⟨hp, hlisted, -⟩ := Program.afterRequests_tables h
  have hsteps := Fold.steps_of_run hp hlevel hrun
  obtain ⟨hcomputed, hbranch⟩ := hsteps.countOps hp hlisted.nodup
  refine ⟨hcomputed, hbranch, ⟨fun hno => ?_, ?_⟩, ?_, fun htwo => ?_⟩
  · have hzero : count.folded = 0 ∧ count.simplified = 0 := by
      simpa [FoldCount.changed] using hno
    exact hsteps.eq_of_zero hzero.1 hzero.2
  · rintro rfl
    have hzero : count.folded = 0 ∧ count.simplified = 0 := by omega
    simp [FoldCount.changed, hzero]
  · rintro rfl
    exact Fold.passes_of_pass hp hrun
  · obtain ⟨level, rfl⟩ := Nat.exists_eq_add_of_le' htwo
    have hmax : max 1 maxPasses = maxPasses - 1 + 1 := by omega
    rw [hmax]
    exact Fold.passes_of_repeated hp hrun

/-- A computation that an earlier block reads from a later one, so that three passes
are made: one folds the operand, one the reader and the branch, one nothing. -/
def readAhead : List Request :=
  [.addMethod "main" .main, .newBlock ⟨0⟩ .plain, .newBlock ⟨0⟩ .plain, .emit ⟨2⟩ (.const 2) 1,
    .emit ⟨2⟩ (.arith .add ⟨0⟩ ⟨0⟩) 2, .emit ⟨1⟩ (.compare .lt ⟨0⟩ ⟨1⟩) 3,
    .emit ⟨1⟩ (.branch ⟨2⟩ ⟨2⟩ ⟨0⟩) 3, .link ⟨1⟩ ⟨2⟩, .link ⟨1⟩ ⟨0⟩].filterMap Request.ofEdit?

theorem readAhead_fold_counts : ∃ p q, Program.afterRequests readAhead = .ok p
    ∧ Fold.run 2 5 p = .ok ⟨2, 1, 3⟩ q
    ∧ p.countOps Op.isComputed = q.countOps Op.isComputed + 2
    ∧ p.countOps Op.isBranch = q.countOps Op.isBranch + 1
    ∧ ∃ again, Fold.pass q = .ok again q ∧ again.changed = false := by
  obtain ⟨p, q, h, hrun⟩ := Fold.exists_of_report? (by decide +kernel :
    Fold.report? readAhead 2 5 = some ⟨2, 1, 3⟩)
  obtain ⟨hcomputed, hbranch, -, -, htwo⟩ := afterRequests_fold_counts h (by decide) hrun
  exact ⟨p, q, h, hrun, hcomputed, hbranch, (htwo (by decide)).2.2.2 (by decide)⟩

end StructuredSsa
