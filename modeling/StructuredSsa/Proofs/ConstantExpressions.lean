import StructuredSsa.Proofs.Assembled
import StructuredSsa.Proofs.FoldFrame
import StructuredSsa.Proofs.FoldedPrograms

/-!
# Folding finds the constant expressions

`View.AmountsTo`: an instruction is a constant, or a computation or comparison of
instructions that amount to constants. It says nothing of blocks or of the order of
instructions, and it is about the program before folding only.

Folding with enough passes comes to the same. What it puts in place of an
instruction is what the instruction amounts to (`Program.Worked`, kept by every
step); and where a last pass finds nothing to do, all that amounts to a constant has
one in its place (`Worked.complete`).
-/

namespace StructuredSsa

namespace View

/-- The constant that an instruction amounts to, if it does. -/
inductive AmountsTo (w : View) : ValueId → Int64 → Prop where
  | const {v : ValueId} {n : Int64} : w.op v = some (.const n) → AmountsTo w v n
  | arith {v : ValueId} {op : ArithOp} {lhs rhs : ValueId} {x y n : Int64} :
      w.op v = some (.arith op lhs rhs) → AmountsTo w lhs x → AmountsTo w rhs y →
      op.eval? x y = some n → AmountsTo w v n
  | compare {v : ValueId} {op : RelOp} {lhs rhs : ValueId} {x y : Int64} :
      w.op v = some (.compare op lhs rhs) → AmountsTo w lhs x → AmountsTo w rhs y →
      AmountsTo w v (op.eval x y)

theorem AmountsTo.unique {w : View} {v : ValueId} {n m : Int64} (h : w.AmountsTo v n)
    (k : w.AmountsTo v m) : n = m := by
  induction h generalizing m with
  | const hop =>
      cases k with
      | const hop' => cases hop.symm.trans hop'; rfl
      | arith hop' => cases hop.symm.trans hop'
      | compare hop' => cases hop.symm.trans hop'
  | arith hop _ _ hn ihl ihr =>
      cases k with
      | const hop' => cases hop.symm.trans hop'
      | compare hop' => cases hop.symm.trans hop'
      | arith hop' hl hr hm =>
          cases hop.symm.trans hop'
          obtain rfl := ihl hl
          obtain rfl := ihr hr
          exact Option.some.inj (hn.symm.trans hm)
  | compare hop _ _ ihl ihr =>
      cases k with
      | const hop' => cases hop.symm.trans hop'
      | arith hop' => cases hop.symm.trans hop'
      | compare hop' hl hr =>
          cases hop.symm.trans hop'
          obtain rfl := ihl hl
          obtain rfl := ihr hr
          rfl

/-- A division of what amounts to a constant by what amounts to zero. -/
def NullDivision (w : View) (v : ValueId) : Prop :=
  ∃ lhs rhs x, w.op v = some (.arith .div lhs rhs) ∧ w.AmountsTo lhs x ∧ w.AmountsTo rhs 0

/-- Such a division amounts to nothing. -/
theorem NullDivision.not_amountsTo {w : View} {v : ValueId} (h : w.NullDivision v) (n : Int64) :
    ¬w.AmountsTo v n := by
  obtain ⟨lhs, rhs, x, hop, -, hzero⟩ := h
  intro hn
  cases hn with
  | const hop' => cases hop.symm.trans hop'
  | compare hop' => cases hop.symm.trans hop'
  | arith hop' _ hr hn =>
      cases hop.symm.trans hop'
      obtain rfl := hr.unique hzero
      simp [ArithOp.eval?] at hn

end View

namespace Op

variable {op : Op} {σ : ValueId → ValueId}

theorem eq_arith_of_mapOperands {o : ArithOp} {l r : ValueId} (h : op.mapOperands σ = .arith o l r) :
    ∃ l' r', op = .arith o l' r' ∧ l = σ l' ∧ r = σ r' := by
  cases op <;> simp [mapOperands] at h
  next l' r' => exact ⟨l', r', by rw [h.1], h.2.1.symm, h.2.2.symm⟩

theorem eq_compare_of_mapOperands {o : RelOp} {l r : ValueId}
    (h : op.mapOperands σ = .compare o l r) :
    ∃ l' r', op = .compare o l' r' ∧ l = σ l' ∧ r = σ r' := by
  cases op <;> simp [mapOperands] at h
  next l' r' => exact ⟨l', r', by rw [h.1], h.2.1.symm, h.2.2.symm⟩

theorem eq_const_of_mapOperands {n : Int64} (h : op.mapOperands σ = .const n) : op = .const n := by
  cases op <;> simp [mapOperands] at h
  rw [h]

/-- Only phis lose operands. -/
theorem trim_of_isPhi (h : op.isPhi = false) (cuts : List (BlockId × BlockId)) (b : BlockId) :
    op.trim cuts b = op := by
  cases op with
  | phi => cases h
  | _ => rfl

end Op

namespace Program

variable {p q q' : Program} {b : BlockId} {o : Op} {v : ValueId}
  {cuts : List (BlockId × BlockId)} {σ : ValueId → ValueId}

/-- The instructions that stand in blocks stand in listed blocks and read each other
only, and their operands list them. -/
structure SelfContained (p : Program) : Prop where
  consistent : p.Consistent
  once : p.listedBlocks.Nodup
  listed : ∀ {v b}, p.owner? v = some b → b ∈ p.listedBlocks
  phi : ∀ {v b}, v ∈ p.phis b → ∃ x os, p.view.op v = some (.phi x os)
  reads : ∀ {u b v}, p.owner? u = some b → v ∈ p.operands u → ∃ c, p.owner? v = some c
  heard : p.Heard Set.univ

/-- An instruction that is no phi stands in the body of its block. -/
theorem SelfContained.mem_body (hp : p.SelfContained) (howner : p.owner? v = some b)
    (hop : p.view.op v = some o) (hphi : o.isPhi = false) : v ∈ p.view.body b := by
  have hmem := (hp.consistent.housed.owner v b).1 howner
  cases hr : p.block? b with
  | none => simp [contents, hr] at hmem
  | some r =>
      obtain ⟨-, -, -, hbody, -⟩ := view_of_block hr
      simp only [contents, hr, Option.map_some, Option.getD_some, Block.contents,
        List.mem_append] at hmem
      rcases hmem with hmem | hmem
      · obtain ⟨x, os, hop'⟩ := hp.phi (show v ∈ p.phis b by simpa [phis, hr] using hmem)
        cases hop.symm.trans hop'
        cases hphi
      · exact hbody ▸ hmem

/-- An operand of an instruction that stands in a block stands in a block. -/
theorem SelfContained.exists_owner (hp : p.SelfContained) {u : ValueId}
    (howner : p.owner? u = some b) (hop : p.view.op u = some o) (hv : v ∈ o.operands) :
    ∃ c, p.owner? v = some c := by
  refine hp.reads howner ?_
  rw [← view_operands]
  simpa [View.operands, hop] using hv

/-! ## Instructions that stayed -/

section

variable (h : Refolded p q σ cuts) (howner : p.owner? v = some b) (hσ : σ v = v)
  (hop : p.view.op v = some o) (hphi : o.isPhi = false)
include h howner hσ hop hphi

/-- What an instruction that is no phi has become, if no constant came for it. -/
theorem Refolded.op :
    q.owner? v = some b ∧ (q.view.op v = some (o.mapOperands σ)
      ∨ ∃ d o', q.view.op v = some o' ∧ o.FollowedTo d o') := by
  obtain ⟨i, hi, hib⟩ := Option.bind_eq_some_iff.1 howner
  obtain ⟨i', hi', hib', -, hkept⟩ := h.kept hi hib hσ
  obtain rfl : i.op = o := Option.some.inj ((view_of_instr hi).1.symm.trans hop)
  have hop' : q.view.op v = some i'.op := (view_of_instr hi').1
  refine ⟨by simp [owner?, hi', hib'], ?_⟩
  rcases hkept with hkept | ⟨d, -, hfollowed⟩
  · rw [Op.trim_of_isPhi hphi, ite_self] at hkept
    exact Or.inl (hkept ▸ hop')
  · exact Or.inr ⟨d, i'.op, hop', hfollowed⟩

/-- The same of an instruction that is no branch either. -/
theorem Refolded.op_eq (hbranch : o.isBranch = false) : q.view.op v = some (o.mapOperands σ) := by
  rcases (h.op howner hσ hop hphi).2 with hsame | ⟨d, o', -, c, t, f, rfl, -⟩
  · exact hsame
  · cases hbranch

end

/-- What is no phi and no jump now was no phi, and it reads what it read. -/
theorem Refolded.exists_op (h : Refolded p q σ cuts) {o' : Op} (howner : p.owner? v = some b)
    (hσ : σ v = v) (hop' : q.view.op v = some o') (hphi : o'.isPhi = false)
    (hjump : ∀ t, o' ≠ .jump t) : ∃ o, p.view.op v = some o ∧ o' = o.mapOperands σ := by
  obtain ⟨i, hi, hib⟩ := Option.bind_eq_some_iff.1 howner
  obtain ⟨i', hi', -, -, hkept⟩ := h.kept hi hib hσ
  obtain rfl : i'.op = o' := Option.some.inj ((view_of_instr hi').1.symm.trans hop')
  refine ⟨i.op, (view_of_instr hi).1, ?_⟩
  rcases hkept with hkept | ⟨d, -, hfollowed⟩
  · rw [hkept]
    split
    · next hmem =>
        rw [hkept, if_pos hmem] at hphi
        refine congrArg (Op.mapOperands σ) (Op.trim_of_isPhi ?_ _ _)
        cases hcase : i.op with
        | phi => rw [hcase] at hphi; cases hphi
        | _ => rfl
    · rfl
  · obtain ⟨t, ht⟩ := hfollowed.exists_jump
    exact absurd ht (hjump t)

/-! ## What the steps work out -/

/-- A constant that has come for an instruction is what the instruction amounts to,
and a branch that has become a jump goes where its condition says. -/
structure Worked (p q : Program) (σ : ValueId → ValueId) : Prop where
  folded : ∀ {v}, σ v ≠ v → ∃ n, p.view.AmountsTo v n ∧ q.view.op (σ v) = some (.const n)
  followed : ∀ {v c t f d}, p.view.op v = some (.branch c t f) → q.view.op v = some (.jump d) →
    ∃ n, p.view.AmountsTo c n ∧ d = if n = 0 then f else t

/-- Where there is a constant now, there was something that amounts to it. -/
theorem Worked.amountsTo (h : Worked p q σ) (k : Refolded p q σ cuts) {n : Int64}
    (howner : p.owner? v = some b) (hn : q.view.op (σ v) = some (.const n)) :
    p.view.AmountsTo v n := by
  by_cases hσ : σ v = v
  · rw [hσ] at hn
    obtain ⟨o, hop, heq⟩ := k.exists_op howner hσ hn rfl (by simp)
    obtain rfl := Op.eq_const_of_mapOperands heq.symm
    exact .const hop
  · obtain ⟨m, hm, hconst⟩ := h.folded hσ
    cases hn.symm.trans hconst
    exact hm

section

section

variable (h : Worked p q σ) (k : Refolded p q σ cuts) (hp : p.SelfContained)
  (howner : p.owner? v = some b)
include h k hp howner

/-- Both operands of an instruction, where they are constants now. -/
theorem Worked.operands_amountTo (hop : p.view.op v = some o) {u : ValueId} (hu : u ∈ o.operands)
    {n : Int64} (hn : q.view.op (σ u) = some (.const n)) : p.view.AmountsTo u n := by
  obtain ⟨c, hc⟩ := hp.exists_owner howner hop hu
  exact h.amountsTo k hc hn

/-- What a step can evaluate amounts to the value that it finds. -/
theorem Worked.evaluates (hσ : σ v = v) {n : Int64} (hn : q.view.Evaluates v n) :
    p.view.AmountsTo v n := by
  cases hn with
  | arith hop hl hr hn =>
      obtain ⟨o, hop₀, heq⟩ := k.exists_op howner hσ hop rfl (by simp)
      obtain ⟨l, r, rfl, rfl, rfl⟩ := Op.eq_arith_of_mapOperands heq.symm
      exact .arith hop₀ (h.operands_amountTo k hp howner hop₀ (by simp [Op.operands]) hl)
        (h.operands_amountTo k hp howner hop₀ (by simp [Op.operands]) hr) hn
  | compare hop hl hr =>
      obtain ⟨o, hop₀, heq⟩ := k.exists_op howner hσ hop rfl (by simp)
      obtain ⟨l, r, rfl, rfl, rfl⟩ := Op.eq_compare_of_mapOperands heq.symm
      exact .compare hop₀ (h.operands_amountTo k hp howner hop₀ (by simp [Op.operands]) hl)
        (h.operands_amountTo k hp howner hop₀ (by simp [Op.operands]) hr)

theorem Worked.divides (hσ : σ v = v) (hn : q.view.DividesByZero v) : p.view.NullDivision v := by
  obtain ⟨l', r', x, hop, hl, hr⟩ := hn
  obtain ⟨o, hop₀, heq⟩ := k.exists_op howner hσ hop rfl (by simp)
  obtain ⟨l, r, rfl, rfl, rfl⟩ := Op.eq_arith_of_mapOperands heq.symm
  exact ⟨l, r, x, hop₀, h.operands_amountTo k hp howner hop₀ (by simp [Op.operands]) hl,
    h.operands_amountTo k hp howner hop₀ (by simp [Op.operands]) hr⟩

end

/-- A step that folds changes the operands of other instructions at most. -/
theorem FoldedAt.view_op {n : Int64} {line : Nat} (h : q.FoldedAt q' b v n line) {u : ValueId}
    (hop : q.view.op u = some o) (hu : u ≠ v) : ∃ f, q'.view.op u = some (o.mapOperands f) := by
  obtain ⟨i, hi, rfl⟩ := Option.map_eq_some_iff.1 hop
  obtain ⟨i', hi', -, -, hop'⟩ := h.instr hi hu
  rw [(view_of_instr hi').1, hop']
  split
  · exact ⟨_, by rw [Op.substitute_eq]⟩
  · exact ⟨fun x => x, by rw [Op.mapOperands_id fun _ _ => rfl]⟩

theorem Worked.fold (h : Worked p q σ) (k : Refolded p q σ cuts) (hp : p.SelfContained)
    (hv : v ∈ q.view.body b) {n : Int64} {line : Nat} (hn : q.view.Evaluates v n)
    (hfold : q.FoldedAt q' b v n line) :
    Worked p q' fun u => rename v ⟨q.values.size⟩ (σ u) := by
  have hno (m : Int64) : q.view.op v ≠ some (.const m) := by
    cases hn with
    | arith hop => simp [hop]
    | compare hop => simp [hop]
  obtain ⟨hvp, hσv⟩ := k.mem_body hv hno
  have howner := (hp.consistent.housed.owner v b).2 (mem_contents_of_body hvp)
  refine ⟨fun {u} hu => ?_, fun {u c t f d} hop hjump => ?_⟩
  · by_cases huv : σ u = v
    · have hσu : σ u = u := k.fixed (huv.symm ▸ hno)
      obtain rfl : u = v := hσu.symm.trans huv
      obtain ⟨us, hconst, -⟩ := hfold.constant
      refine ⟨n, h.evaluates k hp howner hσv hn, ?_⟩
      rw [huv, rename_old]
      exact (view_of_instr hconst).1
    · rw [rename_of_ne huv] at hu ⊢
      obtain ⟨m, hm, hconst⟩ := h.folded hu
      obtain ⟨f, hop⟩ := hfold.view_op hconst huv
      exact ⟨m, hm, hop⟩
  · have huv : u ≠ v := by
      rintro rfl
      have hsame : q'.view.op u = q.view.op u := by
        simp only [view, hfold.removed, Option.map_map, Function.comp_def]
      rw [hsame] at hjump
      cases hn with
      | arith hop' => cases hop'.symm.trans hjump
      | compare hop' => cases hop'.symm.trans hjump
    have hfresh : u ≠ ⟨q.values.size⟩ := by
      obtain ⟨i, hi, -⟩ := Option.map_eq_some_iff.1 hop
      exact k.ne_fresh hi
    cases hopq : q.view.op u with
    | none =>
        obtain ⟨i, hi, -⟩ := Option.map_eq_some_iff.1 hjump
        have hnone : q.instr? u = none := by simpa [view] using hopq
        simp [hfold.other u hfresh huv, hnone] at hi
    | some o =>
        obtain ⟨g, hop'⟩ := hfold.view_op hopq huv
        obtain ⟨d', rfl⟩ : ∃ d', o = .jump d' := by
          have heq := Option.some.inj (hop'.symm.trans hjump)
          cases o <;> simp [Op.mapOperands] at heq
          exact ⟨_, rfl⟩
        cases hop'.symm.trans hjump
        exact h.followed hop hopq

theorem Worked.follow (h : Worked p q σ) (k : Refolded p q σ cuts) (hp : p.SelfContained)
    (hv : v ∈ q.view.body b) {taken dropped : BlockId} (hd : q.view.Decided v taken dropped)
    (hfollow : q.FollowedAt q' b v taken dropped) : Worked p q' σ := by
  obtain ⟨c', n, t', f', hopv, hcv, hways⟩ := hd.branch
  obtain ⟨hvp, hσv⟩ := k.mem_body hv (by simp [hopv])
  have howner := (hp.consistent.housed.owner v b).2 (mem_contents_of_body hvp)
  refine ⟨fun {u} hu => ?_, fun {u c t f d} hop hjump => ?_⟩
  · obtain ⟨m, hm, hconst⟩ := h.folded hu
    refine ⟨m, hm, ?_⟩
    have hne : σ u ≠ v := by
      intro heq
      rw [heq, hopv] at hconst
      cases hconst
    rw [(hfollow.instr (σ u)).view_op, hconst, Option.map_some, if_neg hne]
    exact congrArg some (ite_self _)
  · rw [(hfollow.instr u).view_op] at hjump
    obtain ⟨o, hopq, heq⟩ := Option.map_eq_some_iff.1 hjump
    by_cases huv : u = v
    · subst huv
      rw [if_pos rfl] at heq
      cases heq
      obtain ⟨o₀, hop₀, hmap⟩ := k.exists_op howner hσv hopv rfl (by simp)
      cases hop.symm.trans hop₀
      cases hmap
      refine ⟨n, h.operands_amountTo k hp howner hop (by simp [Op.operands]) hcv, ?_⟩
      split at hways
      · next hzero => rw [if_pos hzero]; exact (Prod.mk.inj hways).1
      · next hzero => rw [if_neg hzero]; exact (Prod.mk.inj hways).1
    · rw [if_neg huv] at heq
      have hjump' : o = .jump d := by
        split at heq
        · cases o <;> simp [Op.without] at heq
          rw [heq]
        · exact heq
      exact h.followed hop (hjump' ▸ hopq)

end

/-! ## Where nothing is left to do -/

/-- Everything that amounts to a constant and stands in a block has that constant in
its place. The induction is on why it amounts to it: if the operands have their
constants, then a pass would have found the instruction. -/
theorem Worked.complete (h : Worked p q σ) (k : Refolded p q σ cuts) (hp : p.SelfContained)
    (hquiet : q.Quiet) (hblocks : q.listedBlocks = p.listedBlocks) {n : Int64}
    (hn : p.view.AmountsTo v n) :
    ∀ {b}, p.owner? v = some b → q.view.op (σ v) = some (.const n) := by
  have hunfoldable {v : ValueId} {b : BlockId} {o : Op} (howner : p.owner? v = some b)
      (hop : p.view.op v = some o) (hphi : o.isPhi = false) (hσ : σ v = v) :
      q.view.Unfoldable v := by
    refine hquiet b (hblocks ▸ hp.listed howner) v ?_
    rw [k.body]
    exact List.mem_map.2 ⟨v, hp.mem_body howner hop hphi, hσ⟩
  have hmoved {v : ValueId} {n : Int64} (hn : p.view.AmountsTo v n) (hσ : σ v ≠ v) :
      q.view.op (σ v) = some (.const n) := by
    obtain ⟨m, hm, hconst⟩ := h.folded hσ
    rw [hconst, hm.unique hn]
  induction hn with
  | @const v n hop =>
      intro b howner
      by_cases hσ : σ v = v
      · rw [hσ]
        exact k.op_eq howner hσ hop rfl rfl
      · exact hmoved (.const hop) hσ
  | @arith v op lhs rhs x y n hop hl hr heval ihl ihr =>
      intro b howner
      refine hmoved (.arith hop hl hr heval) fun hσ => ?_
      obtain ⟨c, hc⟩ := hp.exists_owner howner hop (v := lhs) (by simp [Op.operands])
      obtain ⟨d, hd⟩ := hp.exists_owner howner hop (v := rhs) (by simp [Op.operands])
      have hop' := k.op_eq howner hσ hop rfl rfl
      exact (hunfoldable howner hop rfl hσ).value n (.arith hop' (ihl hc) (ihr hd) heval)
  | @compare v op lhs rhs x y hop hl hr ihl ihr =>
      intro b howner
      refine hmoved (.compare hop hl hr) fun hσ => ?_
      obtain ⟨c, hc⟩ := hp.exists_owner howner hop (v := lhs) (by simp [Op.operands])
      obtain ⟨d, hd⟩ := hp.exists_owner howner hop (v := rhs) (by simp [Op.operands])
      have hop' := k.op_eq howner hσ hop rfl rfl
      exact (hunfoldable howner hop rfl hσ).value _ (.compare hop' (ihl hc) (ihr hd))

/-- The program `q` is `p` with its constant expressions worked out: `σ` says which
constant stands where an instruction stood, `cuts` which edges are gone. -/
structure ConstantsFolded (p q : Program) (σ : ValueId → ValueId) (cuts : List (BlockId × BlockId)) :
    Prop where
  refolded : p.Refolded q σ cuts
  /-- What amounts to a constant stands nowhere, and the constant stands for it. -/
  gone : ∀ {v o n}, p.view.op v = some o → o.isComputed = true → p.view.AmountsTo v n →
    q.owner? v = none
  constant : ∀ {v b n}, p.owner? v = some b → p.view.AmountsTo v n →
    q.view.op (σ v) = some (.const n)
  /-- An instruction that still stands has `σ` of what it had, slot by slot; phis have
  lost the slots of edges that are gone, a branch that is a jump has none. -/
  slots : ∀ {u o a}, p.view.op u = some o → q.owner? u = some a → p.owner? u = some a
    ∧ (q.view.op u = some ((if u ∈ p.phis a then o.trim cuts a else o).mapOperands σ)
      ∨ ∃ d o', (a, d) ∈ cuts ∧ q.view.op u = some o' ∧ o.FollowedTo d o')
  /-- What amounts to nothing stays where it was. -/
  stays : ∀ {v o b}, p.view.op v = some o → o.isComputed = true → p.owner? v = some b →
    (∀ n, ¬p.view.AmountsTo v n) → σ v = v ∧ q.owner? v = some b
      ∧ q.view.op v = some (o.mapOperands σ)
  decided : ∀ {v b c t f n}, p.view.op v = some (.branch c t f) → p.owner? v = some b →
    p.view.AmountsTo c n → q.owner? v = some b ∧ q.view.op v = some (.jump (if n = 0 then f else t))
  undecided : ∀ {v b c t f}, p.view.op v = some (.branch c t f) → p.owner? v = some b →
    (∀ n, ¬p.view.AmountsTo c n) → q.owner? v = some b ∧ q.view.op v = some (.branch (σ c) t f)

/-- No constant comes for a branch. -/
theorem Reframed.fixed_branch (h : Reframed p q σ cuts) {c : ValueId} {t f : BlockId}
    (hop : p.view.op v = some (.branch c t f)) : σ v = v := by
  by_contra hσ
  obtain ⟨b, i, n, us, -, hi, hcomputed, -⟩ := h.folded hσ
  obtain hop' : i.op = .branch c t f := Option.some.inj ((view_of_instr hi).1.symm.trans hop)
  rw [hop'] at hcomputed
  cases hcomputed

theorem Worked.constantsFolded (h : Worked p q σ) (k : Refolded p q σ cuts) (hp : p.SelfContained)
    (hquiet : q.Quiet) (hblocks : q.listedBlocks = p.listedBlocks)
    (hdetached : ∀ {v o}, p.view.op v = some o → p.owner? v = none → q.owner? v = none) :
    p.ConstantsFolded q σ cuts where
  refolded := k
  constant howner hn := h.complete k hp hquiet hblocks hn howner
  gone {v o n} hop hcomputed hn := by
    cases howner : p.owner? v with
    | none => exact hdetached hop howner
    | some b =>
        have hconst := h.complete k hp hquiet hblocks hn howner
        have hσ : σ v ≠ v := by
          intro hσ
          rw [hσ] at hconst
          cases o with
          | arith | compare =>
              cases (k.op_eq howner hσ hop rfl rfl).symm.trans hconst
          | _ => cases hcomputed
        obtain ⟨-, -, -, -, -, -, -, hgone, -⟩ := k.folded hσ
        exact hgone
  slots {u o a} hop ha := by
    have hσ : σ u = u := by
      by_contra hσ
      obtain ⟨-, -, -, -, -, -, -, hgone, -⟩ := k.folded hσ
      cases hgone.symm.trans ha
    cases howner : p.owner? u with
    | none => cases (hdetached hop howner).symm.trans ha
    | some b =>
        obtain ⟨i, hi, hib⟩ := Option.bind_eq_some_iff.1 howner
        obtain ⟨i', hi', hib', -, hkept⟩ := k.kept hi hib hσ
        obtain rfl : i.op = o := Option.some.inj ((view_of_instr hi).1.symm.trans hop)
        obtain rfl : b = a := by simpa [owner?, hi', hib'] using ha
        have hop' : q.view.op u = some i'.op := (view_of_instr hi').1
        rcases hkept with hsame | ⟨d, hd, hfollowed⟩
        · exact ⟨rfl, Or.inl (hsame ▸ hop')⟩
        · exact ⟨rfl, Or.inr ⟨d, i'.op, hd, hop', hfollowed⟩⟩
  stays {v o b} hop hcomputed howner hno := by
    have hσ : σ v = v := by
      by_contra hσ
      obtain ⟨n, hn, -⟩ := h.folded hσ
      exact hno n hn
    refine ⟨hσ, ?_⟩
    cases o with
    | arith | compare =>
        exact ⟨(k.op howner hσ hop rfl).1, k.op_eq howner hσ hop rfl rfl⟩
    | _ => cases hcomputed
  decided {v b c t f n} hop howner hn := by
    have hσ := k.fixed_branch hop
    obtain ⟨howner', hop' | ⟨d, o', hop', hfollowed⟩⟩ := k.op howner hσ hop rfl
    · -- A branch on a constant would have been found by the last pass.
      obtain ⟨a, ha⟩ := hp.exists_owner howner hop (v := c) (by simp [Op.operands])
      have hc := h.complete k hp hquiet hblocks hn ha
      have hmem : v ∈ q.view.body b := by
        rw [k.body]
        exact List.mem_map.2 ⟨v, hp.mem_body howner hop rfl, hσ⟩
      have hway := (hquiet b (hblocks ▸ hp.listed howner) v hmem).way
      exact absurd ⟨σ c, n, t, f, hop', hc, rfl⟩ (hway _ _)
    · obtain ⟨d', rfl⟩ := hfollowed.exists_jump
      obtain ⟨m, hm, rfl⟩ := h.followed hop hop'
      rw [hm.unique hn] at hop'
      exact ⟨howner', hop'⟩
  undecided {v b c t f} hop howner hno := by
    obtain ⟨howner', hop' | ⟨d, o', hop', hfollowed⟩⟩ := k.op howner (k.fixed_branch hop) hop rfl
    · exact ⟨howner', hop'⟩
    · obtain ⟨d', rfl⟩ := hfollowed.exists_jump
      obtain ⟨m, hm, -⟩ := h.followed hop hop'
      exact absurd hm (hno m)

end Program

/-! ## Whole runs -/

namespace Fold

open Program

variable {p q : Program} {j k : Nat}

theorem Steps.worked (h : Steps p j k q) (hp : p.SelfContained) :
    ∃ σ cuts, Tracked Set.univ p q σ cuts ∧ q.Heard Set.univ ∧ Worked p q σ := by
  induction h with
  | refl =>
      refine ⟨id, [], tracked_refl _ p, hp.heard, fun hσ => absurd rfl hσ, fun hop hop' => ?_⟩
      cases hop.symm.trans hop'
  | folded hsteps hb hv hi hn hfolded ih =>
      obtain ⟨σ, cuts, htracked, hheard, hworked⟩ := ih
      exact ⟨_, cuts, htracked.fold hp.consistent hheard hv hi hn hfolded, hheard.folded hfolded,
        hworked.fold htracked.refolded hp hv hn hfolded⟩
  | followed hsteps hb hv hd hfollowed ih =>
      obtain ⟨σ, cuts, htracked, hheard, hworked⟩ := ih
      exact ⟨σ, _, htracked.follow hp.consistent hv hd hfollowed, hheard.followed hfollowed,
        hworked.follow htracked.refolded hp hv hd hfollowed⟩

/-- What stands in no block is put into none. -/
theorem Steps.detached (h : Steps p j k q) {v : ValueId} {i : Instr} (hi : p.instr? v = some i)
    (howner : i.owner = none) : ∃ i', q.instr? v = some i' ∧ i'.owner = none := by
  induction h with
  | refl => exact ⟨i, hi, howner⟩
  | @folded j k q q' b u n l hsteps hb hu hl hn hfolded ih =>
      obtain ⟨i', hi', howner'⟩ := ih
      by_cases hvu : v = u
      · subst hvu
        exact ⟨_, by rw [hfolded.removed, hi']; rfl, rfl⟩
      · obtain ⟨i'', hi'', howner'', -⟩ := hfolded.instr hi' hvu
        exact ⟨i'', hi'', howner''.trans howner'⟩
  | followed hsteps hb hu hd hfollowed ih =>
      obtain ⟨i', hi', howner'⟩ := ih
      obtain ⟨i'', hi'', -, howner'', -⟩ := (hfollowed.instr v).exists_instr hi'
      exact ⟨i'', hi'', howner''.trans howner'⟩

/-- With more passes than there are steps to take, the last one takes none. -/
theorem quiet_of_repeated (hp : p.SelfContained) {n : Nat} {count : FoldCount}
    (hmany : p.countOps Op.isComputed + p.countOps Op.isBranch ≤ n)
    (hrun : repeated n p = .ok count q) : ∃ j k, Steps p j k q ∧ q.Quiet := by
  have hrepeated := repeated_cases n hp.consistent
  rw [hrun] at hrepeated
  cases hrepeated with
  | @done j k passes _ hsteps _ _ _ hend =>
      refine ⟨j, k, hsteps, ?_⟩
      obtain ⟨hcomputed, hbranch⟩ := hsteps.countOps hp.consistent hp.once
      rcases hend with ⟨-, hquiet⟩ | ⟨hall, hfew⟩
      · exact hquiet
      · omega

end Fold

/-! ## Built programs -/

theorem Program.listedBlocks_nodup {p : Program} (h : p.view.Wired) : p.listedBlocks.Nodup := by
  have hmethod (i : Nat) (hi : i < p.methods.size) :
      p.view.owned ⟨i⟩ = p.methods[i].blocks := by
    exact (view_of_method (m := ⟨i⟩) (Array.getElem?_eq_getElem hi)).2.2.2.1
  refine List.nodup_flatMap.2 ⟨fun m hm => ?_, ?_⟩
  · obtain ⟨i, hi, rfl⟩ := Array.mem_iff_getElem.1 (Array.mem_toList_iff.1 hm)
    exact hmethod i hi ▸ h.owned_nodup ⟨i⟩
  · -- A block names its method, so that two methods have none in common.
    refine List.pairwise_iff_getElem.2 fun i j hi hj hlt b hbi hbj => ?_
    simp only [Array.length_toList, Array.getElem_toList] at hi hj hbi hbj
    have hhome := h.owned_home b ⟨i⟩ (hmethod i hi ▸ hbi)
    rw [h.owned_home b ⟨j⟩ (hmethod j hj ▸ hbj)] at hhome
    have : j = i := congrArg MethodId.index (Option.some.inj hhome)
    omega

theorem Program.mem_listedBlocks_of_owned {p : Program} {m : MethodId} {b : BlockId}
    (h : b ∈ p.view.owned m) : b ∈ p.listedBlocks := by
  have hb : b ∈ p.blocksOf m := h
  cases hm : p.method? m with
  | none => simp [blocksOf, hm] at hb
  | some r =>
      rw [blocksOf, hm] at hb
      exact List.mem_flatMap.2 ⟨r, Array.mem_toList_iff.2 (Array.mem_of_getElem? hm), hb⟩

theorem selfContained_of_built {tokens : List Token} {earlier : List Diagnostic} {built : Built}
    (h : buildTokens tokens earlier = .ok built) : built.program.SelfContained := by
  obtain ⟨hsound, hclosed⟩ := buildTokens_sound h
  have hformed := formed_of_built h
  refine
    { consistent := buildTokens_consistent h
      once := Program.listedBlocks_nodup hsound.wired
      listed := fun {v b} howner => ?_
      phi := fun {v b} hv => hsound.wired.phi_of_phis v b hv
      reads := fun {u b v} howner hv => ?_
      heard := fun {u b} howner _ v hv => ?_ }
  · have ht := built.program.view_tables
    obtain ⟨hkind, -⟩ := hsound.live_of_owner ht hclosed howner
    obtain ⟨m, hm⟩ := Option.ne_none_iff_exists'.1 (mt ht.home_none.1 hkind)
    exact Program.mem_listedBlocks_of_owned (hsound.wired.owner_owned v b m howner hm)
  · rw [← Program.view_operands] at hv
    exact Option.ne_none_iff_exists'.1 (hformed.defined u b v howner hv)
  · rw [← Program.view_operands] at hv
    obtain ⟨i, hi, hu⟩ := hformed.reads_user u b v howner hv
    simpa [Program.users, hi] using hu

/-- With more passes than a built program has computations, comparisons and branches,
folding finds exactly the constant expressions. It stops at a division by zero if and
only if there is one whose operands amount to constants; otherwise it ends well, and
every computation, comparison and branch is as its constant expressions say. -/
theorem buildTokens_fold_constants {tokens : List Token} {earlier ds : List Diagnostic} {p : Program}
    (h : buildTokens tokens earlier = .ok ⟨p, ds⟩) {level maxPasses : Nat} (hlevel : 2 ≤ level)
    (hpasses : p.countOps Op.isComputed + p.countOps Op.isBranch < maxPasses) :
    ((∃ line q, Fold.run level maxPasses p = .error (.error (.divisionByZero line)) q)
        ↔ ∃ b ∈ p.listedBlocks, ∃ v ∈ p.contents b, p.view.NullDivision v)
      ∧ ((¬∃ b ∈ p.listedBlocks, ∃ v ∈ p.contents b, p.view.NullDivision v) →
        ∃ count q σ cuts, Fold.run level maxPasses p = .ok count q ∧ p.ConstantsFolded q σ cuts) := by
  have hp : p.SelfContained := selfContained_of_built h
  have hrun : Fold.run level maxPasses p = Fold.repeated (maxPasses - 1) p := by
    obtain ⟨level, rfl⟩ := Nat.exists_eq_add_of_le' hlevel
    rfl
  have hfolded {count : FoldCount} {q : Program}
      (hq : Fold.repeated (maxPasses - 1) p = .ok count q) :
      ∃ σ cuts, p.ConstantsFolded q σ cuts ∧ ∀ v b, p.owner? v = some b → ¬p.view.NullDivision v := by
    obtain ⟨j, k, hsteps, hquiet⟩ := Fold.quiet_of_repeated hp (by omega) hq
    obtain ⟨σ, cuts, htracked, -, hworked⟩ := hsteps.worked hp
    have hrefolded := htracked.refolded
    have hall : p.ConstantsFolded q σ cuts :=
      hworked.constantsFolded hrefolded hp hquiet hsteps.listedBlocks fun {v o} hop howner => by
        obtain ⟨i, hi, rfl⟩ := Option.map_eq_some_iff.1 hop
        obtain ⟨i', hi', howner'⟩ := hsteps.detached hi (by simpa [Program.owner?, hi] using howner)
        simp [Program.owner?, hi', howner']
    refine ⟨σ, cuts, hall, fun v b howner hnull => ?_⟩
    obtain ⟨l, r, x, hop, hl, hr⟩ := id hnull
    -- The division amounts to nothing, so it stays, and the last pass divides by zero.
    obtain ⟨hσ, -, hop'⟩ := hall.stays hop rfl howner hnull.not_amountsTo
    obtain ⟨c, hc⟩ := hp.exists_owner howner hop (v := l) (by simp [Op.operands])
    obtain ⟨d, hd⟩ := hp.exists_owner howner hop (v := r) (by simp [Op.operands])
    have hmem : v ∈ q.view.body b := by
      rw [hrefolded.body]
      exact List.mem_map.2 ⟨v, hp.mem_body howner hop rfl, hσ⟩
    exact (hquiet b (hsteps.listedBlocks ▸ hp.listed howner) v hmem).division
      ⟨σ l, σ r, x, hop', hall.constant hc hl, hall.constant hd hr⟩
  have hsettles := Fold.run_settles level maxPasses (formed_of_built h)
  have hcases := Fold.repeated_cases (maxPasses - 1) hp.consistent
  rw [hrun] at hsettles ⊢
  cases hq : Fold.repeated (maxPasses - 1) p with
  | ok count q =>
      obtain ⟨σ, cuts, hall, hno⟩ := hfolded hq
      refine ⟨⟨fun herror => ?_, fun hnull => ?_⟩, fun _ => ⟨count, q, σ, cuts, rfl, hall⟩⟩
      · obtain ⟨line, q', hq'⟩ := herror
        cases hq'
      · obtain ⟨b, -, v, hv, hnull⟩ := hnull
        exact absurd hnull (hno v b ((hp.consistent.housed.owner v b).2 hv))
  | error stop q =>
      rw [hq] at hcases hsettles
      cases hcases with
      | refused f q => cases hsettles
      | @divided j k q b v line hsteps hb hv hzero =>
          obtain ⟨σ, cuts, htracked, -, hworked⟩ := hsteps.worked hp
          obtain ⟨l, r, x, hop, -⟩ := id hzero
          obtain ⟨hvp, hσ⟩ := htracked.mem_body hv (by simp [hop])
          have hcontents := Program.mem_contents_of_body hvp
          have howner := (hp.consistent.housed.owner v b).2 hcontents
          have hnull := hworked.divides htracked.refolded hp howner hσ hzero
          have hexists : ∃ b ∈ p.listedBlocks, ∃ v ∈ p.contents b, p.view.NullDivision v :=
            ⟨b, hp.listed howner, v, hcontents, hnull⟩
          exact ⟨⟨fun _ => hexists, fun _ => ⟨line, q, rfl⟩⟩, fun hno => absurd hexists hno⟩

/-- A product before a loop, and behind the loop a comparison of a sum that decides a
branch; what the loop compares and adds amounts to nothing. -/
def climbed : List Token :=
  [.keyword .main, .keyword .var, .ident "x", .punct .semicolon, .punct .lbrace,
    .keyword .let_, .ident "x", .punct .arrow, .number 2, .punct .star, .number 3, .punct .semicolon,
    .keyword .while_, .ident "x", .punct .lt, .number 9, .keyword .do_,
    .keyword .let_, .ident "x", .punct .arrow, .ident "x", .punct .plus, .number 1,
    .keyword .od, .punct .semicolon,
    .keyword .if_, .number 1, .punct .plus, .number 1, .punct .lt, .number 2, .keyword .then_,
    .keyword .call, .ident "OutputNewLine", .punct .lparen, .punct .rparen, .keyword .fi,
    .punct .rbrace, .punct .period, .eof].map fun k => ⟨k, k.text, .start⟩

theorem climbed_fold_constants : ∃ p q σ cuts, buildTokens climbed [] = .ok ⟨p, []⟩
    ∧ p.countOps Op.isComputed + p.countOps Op.isBranch < 8
    ∧ Fold.run 2 8 p = .ok ⟨3, 1, 2⟩ q ∧ p.ConstantsFolded q σ cuts
    ∧ p.view.AmountsTo ⟨17⟩ 0 ∧ q.owner? ⟨17⟩ = none ∧ q.view.op ⟨18⟩ = some (.jump ⟨7⟩) := by
  have hops : (buildTokens climbed []).toOption.map (fun built =>
      (built.diagnostics, built.program.owner? ⟨18⟩,
        [13, 14, 15, 16, 17, 18].map fun n => built.program.view.op ⟨n⟩))
      = some ([], some ⟨5⟩,
        [some (.const 1), some (.const 1), some (.arith .add ⟨13⟩ ⟨14⟩), some (.const 2),
          some (.compare .lt ⟨15⟩ ⟨16⟩), some (.branch ⟨17⟩ ⟨6⟩ ⟨7⟩)]) := by
    decide +kernel
  have hcounts : (buildTokens climbed []).toOption.map (fun built =>
      ((Fold.ended? (Fold.run 2 8 built.program)).map (·.1),
        built.program.countOps Op.isComputed + built.program.countOps Op.isBranch))
      = some (some ⟨3, 1, 2⟩, 7) := by
    decide +kernel
  cases hbuilt : buildTokens climbed [] with
  | error e => rw [hbuilt] at hops; cases hops
  | ok built =>
      obtain ⟨p, ds⟩ := built
      simp only [hbuilt, Except.toOption, Option.map_some, Option.some.injEq, Prod.mk.injEq,
        List.map_cons, List.map_nil, List.cons.injEq, and_true] at hops hcounts
      obtain ⟨rfl, howner, h13, h14, h15, h16, h17, h18⟩ := hops
      obtain ⟨hended, hcount⟩ := hcounts
      obtain ⟨q, hrun⟩ : ∃ q, Fold.run 2 8 p = .ok ⟨3, 1, 2⟩ q := by
        cases h : Fold.run 2 8 p with
        | error e s => rw [h] at hended; cases hended
        | ok count s => rw [h] at hended; exact ⟨s, congrArg (EStateM.Result.ok · s) (Option.some.inj hended)⟩
      have hfew : p.countOps Op.isComputed + p.countOps Op.isBranch < 8 := by omega
      obtain ⟨hdivides, hfolds⟩ := buildTokens_fold_constants hbuilt (Nat.le_refl 2) hfew
      obtain ⟨count, q', σ, cuts, hrun', hfolded⟩ := hfolds fun hnull => by
        obtain ⟨line, s, hs⟩ := hdivides.2 hnull
        cases hrun.symm.trans hs
      cases hrun.symm.trans hrun'
      have hzero : p.view.AmountsTo ⟨17⟩ 0 :=
        .compare (x := 2) (y := 2) h17 (.arith h15 (.const h13) (.const h14) (by decide)) (.const h16)
      exact ⟨p, q, σ, cuts, rfl, hfew, hrun, hfolded, hzero, hfolded.gone h17 rfl hzero,
        (hfolded.decided h18 howner hzero).2⟩

end StructuredSsa
