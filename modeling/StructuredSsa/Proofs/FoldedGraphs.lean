import StructuredSsa.Proofs.FoldFrame
import StructuredSsa.Proofs.FoldedForm

/-!
# Verified graphs after a pass

A pass over a program that verification finds nothing wrong with keeps all the rules
but one. The edge to the target that a branch gives up is removed even if the branch
has the same target on both ways, so the jump that is left goes where no edge goes
(`Program.LostWay`). `afterRequests_pass_verifies` says that nothing else happens:
verification finds nothing wrong afterwards exactly if no such branch has become a
jump, and the targets are right in every other block.
-/

namespace StructuredSsa

namespace Op

theorem isTerminator_trim (op : Op) (cuts : List (BlockId × BlockId)) (b : BlockId) :
    (op.trim cuts b).isTerminator = op.isTerminator := by
  cases op <;> rfl

theorem targets_trim (op : Op) (cuts : List (BlockId × BlockId)) (b : BlockId) :
    (op.trim cuts b).targets = op.targets := by
  cases op <;> rfl

theorem eq_jump_of_mapOperands {op : Op} {f : ValueId → ValueId} {x : BlockId}
    (h : op.mapOperands f = .jump x) : op = .jump x := by
  cases op <;> first | exact h | cases h

theorem eq_jump_of_trim {op : Op} {cuts : List (BlockId × BlockId)} {b x : BlockId}
    (h : op.trim cuts b = .jump x) : op = .jump x := by
  cases op <;> first | exact h | cases h

theorem isTerminator_of_isComputed {op : Op} (h : op.isComputed = true) : op.isTerminator = false := by
  cases op <;> first | rfl | cases h

/-- The two ends of a branch that has become a jump, whichever way it went. -/
theorem FollowedTo.ways {d : BlockId} {op op' : Op} (h : op.FollowedTo d op') :
    ∃ c t, op' = .jump t ∧ (op = .branch c t d ∨ op = .branch c d t) := by
  obtain ⟨c, t, f, hop, ⟨hjump, rfl⟩ | ⟨hjump, rfl⟩⟩ := h
  · exact ⟨c, t, hjump, Or.inl hop⟩
  · exact ⟨c, f, hjump, Or.inr hop⟩

end Op

namespace Program

variable {p q : Program}

/-- A branch of the block with the same target on both ways has become a jump. -/
def LostWay (p q : Program) (b : BlockId) : Prop :=
  ∃ v ∈ p.view.body b, ∃ c t, p.view.op v = some (.branch c t t) ∧ q.view.op v = some (.jump t)

/-- A block has one terminator, at its end, with the successors as its targets. -/
def TargetsAgree (p : Program) (b : BlockId) : Prop :=
  ∃ r, p.block? b = some r ∧ ∃ init op, p.opsOf r.body = init ++ [op] ∧ op.isTerminator = true
    ∧ (∀ o ∈ init, o.isTerminator = false) ∧ ∀ s, s ∈ op.targets ↔ s ∈ r.succs

theorem verify_valid_iff : (∃ report, p.verify false = .ok report ∧ report.valid = true)
    ↔ p.WellFormed := by
  rw [← verify_findings_iff false]
  refine exists_congr fun report => and_congr_right fun hreport => ?_
  rw [(verify_report hreport).2]
  simp

/-! ## The end of a block -/

/-- What a block with the right terminator has in its body. -/
theorem BlockFormed.body {b : BlockId} {r : Block} (h : p.BlockFormed b r) (hp : p.Consistent)
    (hr : p.block? b = some r) : ∃ ws t op, p.view.body b = ws ++ [t] ∧ p.view.op t = some op
      ∧ op.isTerminator = true ∧ (∀ w ∈ ws, ∀ o, p.view.op w = some o → o.isTerminator = false)
      ∧ ∀ s, s ∈ op.targets ↔ s ∈ r.succs := by
  obtain ⟨init, op, hops, hterm, hinit, htargets⟩ := h.terminator
  obtain ⟨-, -, -, hbody, -⟩ := view_of_block hr
  rcases List.eq_nil_or_concat r.body with hnil | ⟨ws, t, hlast⟩
  · simp [opsOf, hnil] at hops
  · rw [List.concat_eq_append] at hlast
    have ht : t ∈ p.contents b := mem_contents_of_body (by rw [hbody, hlast]; simp)
    obtain ⟨i, hi, -⟩ := hp.exists_instr ht
    have hsplit : p.opsOf (ws ++ [t]) = p.opsOf ws ++ [i.op] := by simp [opsOf, hi]
    rw [hlast, hsplit] at hops
    obtain ⟨rfl, hop⟩ := List.append_inj' hops rfl
    obtain rfl := List.singleton_inj.1 hop
    refine ⟨ws, t, i.op, hbody.trans hlast, (view_of_instr hi).1, hterm, fun w hw o ho => ?_, htargets⟩
    exact hinit o (List.mem_filterMap.2 ⟨w, hw, by simpa [view] using ho⟩)

section

variable {S : Set BlockId} {σ : ValueId → ValueId} {cuts : List (BlockId × BlockId)}
  (h : Tracked S p q σ cuts) (hp : p.Consistent) {b : BlockId} {r : Block}
  (hr : p.block? b = some r)

include h hp

/-- Instructions that end no block do not come to end one. -/
theorem Tracked.not_terminator {w : ValueId} (hw : w ∈ p.view.body b)
    (hno : ∀ o, p.view.op w = some o → o.isTerminator = false) {o : Op}
    (ho : q.view.op (σ w) = some o) : o.isTerminator = false := by
  by_cases hσ : σ w = w
  · obtain ⟨i, hi, howner⟩ := hp.exists_instr (mem_contents_of_body hw)
    obtain ⟨i', f, hi', -, -, -, hop⟩ := h.kept hi howner hσ
    have hnot := hno i.op (view_of_instr hi).1
    rw [hσ, (view_of_instr hi').1] at ho
    obtain rfl := Option.some.inj ho
    rcases hop with hop | ⟨d, -, hfollowed⟩
    · rw [hop, Op.isTerminator_mapOperands]
      split
      · rwa [Op.isTerminator_trim]
      · exact hnot
    · obtain ⟨c, t, -, hbranch | hbranch⟩ := hfollowed.ways <;> rw [hbranch] at hnot <;> cases hnot
  · obtain ⟨a, i, n, us, -, -, -, -, -, hconst⟩ := h.folded hσ
    rw [(view_of_instr hconst).1] at ho
    obtain rfl := Option.some.inj ho
    rfl

include hr in
/-- What stands at the end of a block whose terminator was right: the same terminator
and the same edges, or a jump with one edge less. -/
theorem Tracked.terminator (hformed : p.BlockFormed b r) :
    ∃ ws t op op', q.view.body b = ws.map σ ++ [t] ∧ p.view.body b = ws ++ [t]
      ∧ p.view.op t = some op ∧ q.view.op t = some op' ∧ op'.isTerminator = true
      ∧ (∀ o ∈ q.opsOf (ws.map σ), o.isTerminator = false)
      ∧ (∀ v ∈ p.view.body b, ∀ c x y, p.view.op v = some (.branch c x y) → v = t)
      ∧ (∀ s, s ∈ op.targets ↔ s ∈ r.succs)
      ∧ (op'.targets = op.targets ∧ (∀ x, op' = .jump x → op = .jump x) ∧ (∀ s, (b, s) ∉ cuts)
        ∨ ∃ d, op.FollowedTo d op' ∧ ∀ s, (b, s) ∈ cuts ↔ s = d) := by
  obtain ⟨ws, t, op, hbody, hop, hterm, hothers, htargets⟩ := hformed.body hp hr
  have ht : t ∈ p.view.body b := by rw [hbody]; simp
  obtain ⟨i, hi, howner⟩ := hp.exists_instr (mem_contents_of_body ht)
  obtain rfl := Option.some.inj ((view_of_instr hi).1.symm.trans hop)
  have hσ : σ t = t := by
    by_contra hne
    obtain ⟨-, j, -, -, -, hj, hcomputed, -⟩ := h.folded hne
    obtain rfl := Option.some.inj (hi.symm.trans hj)
    rw [Op.isTerminator_of_isComputed hcomputed] at hterm
    cases hterm
  have honly (v : ValueId) (hv : v ∈ p.view.body b) (c : ValueId) (x y : BlockId)
      (hbranch : p.view.op v = some (.branch c x y)) : v = t := by
    rw [hbody] at hv
    rcases List.mem_append.1 hv with hv | hv
    · cases hothers v hv _ hbranch
    · exact List.mem_singleton.1 hv
  obtain ⟨i', f, hi', -, -, -, hkept⟩ := h.kept hi howner hσ
  -- An edge from here is cut only for the terminator.
  have hcut {s : BlockId} (hs : (b, s) ∈ cuts) : i.op.FollowedTo s i'.op := by
    obtain ⟨v, hv, j, j', hj, hj', hfollowed⟩ := h.cut hs
    obtain ⟨c, x, -, hbranch⟩ := hfollowed.ways
    obtain rfl : v = t := by
      rcases hbranch with hbranch | hbranch
      · exact honly v hv _ _ _ ((view_of_instr hj).1.trans (congrArg some hbranch))
      · exact honly v hv _ _ _ ((view_of_instr hj).1.trans (congrArg some hbranch))
    obtain rfl := Option.some.inj (hi.symm.trans hj)
    obtain rfl := Option.some.inj (hi'.symm.trans hj')
    exact hfollowed
  have hinit (o : Op) (ho : o ∈ q.opsOf (ws.map σ)) : o.isTerminator = false := by
    obtain ⟨u, hu, ho⟩ := List.mem_filterMap.1 ho
    obtain ⟨w, hw, rfl⟩ := List.mem_map.1 hu
    exact h.not_terminator hp (by rw [hbody]; simp [hw]) (hothers w hw) (by simpa [view] using ho)
  have hqbody : q.view.body b = ws.map σ ++ [t] := by rw [h.body, hbody]; simp [hσ]
  refine ⟨ws, t, i.op, i'.op, hqbody, hbody, (view_of_instr hi).1, (view_of_instr hi').1, ?_, hinit,
    honly, htargets, ?_⟩
  · rcases hkept with hkept | ⟨d, -, hfollowed⟩
    · rw [hkept, Op.isTerminator_mapOperands]
      split
      · rwa [Op.isTerminator_trim]
      · exact hterm
    · obtain ⟨c, x, hjump, -⟩ := hfollowed.ways
      rw [hjump]
      rfl
  · rcases hkept with hkept | ⟨d, hd, hfollowed⟩
    · have hsame : i'.op.targets = i.op.targets ∧ ∀ x, i'.op = .jump x → i.op = .jump x := by
        rw [hkept]
        rw [Op.targets_mapOperands]
        split
        · exact ⟨Op.targets_trim .., fun x hx => Op.eq_jump_of_trim (Op.eq_jump_of_mapOperands hx)⟩
        · exact ⟨rfl, fun x hx => Op.eq_jump_of_mapOperands hx⟩
      refine Or.inl ⟨hsame.1, hsame.2, fun s hs => ?_⟩
      obtain ⟨c, x, hjump, hbranch | hbranch⟩ := (hcut hs).ways
      · cases hbranch.symm.trans (hsame.2 x hjump)
      · cases hbranch.symm.trans (hsame.2 x hjump)
    · refine Or.inr ⟨d, hfollowed, fun s => ⟨fun hs => ?_, fun hs => hs ▸ hd⟩⟩
      obtain ⟨c, x, hjump, hbranch⟩ := hfollowed.ways
      obtain ⟨c', x', hjump', hbranch'⟩ := (hcut hs).ways
      obtain rfl := Op.jump.inj (hjump.symm.trans hjump')
      rcases hbranch with hbranch | hbranch <;> rcases hbranch' with hbranch' | hbranch' <;>
        obtain ⟨-, h₁, h₂⟩ := Op.branch.inj (hbranch.symm.trans hbranch') <;> simp only [h₁, h₂]

include hr in
/-- The targets of a block are wrong afterwards exactly if it has lost its way. -/
theorem Tracked.targetsAgree_iff (hformed : p.BlockFormed b r) :
    q.TargetsAgree b ↔ ¬p.LostWay q b := by
  obtain ⟨ws, t, op, op', hqbody, hbody, hop, hop', hterm, hinit, honly, htargets, hends⟩ :=
    h.terminator hp hr hformed
  have ht : t ∈ p.view.body b := by rw [hbody]; simp
  obtain ⟨r', hr', hsuccs⟩ : ∃ r', q.block? b = some r'
      ∧ r'.succs = r.succs.filter fun s => (b, s) ∉ cuts := by
    rw [h.block, hr]
    exact ⟨_, rfl, rfl⟩
  have hops : q.opsOf r'.body = q.opsOf (ws.map σ) ++ [op'] := by
    obtain ⟨-, -, -, hbody', -⟩ := view_of_block hr'
    obtain ⟨i', hi', rfl⟩ := exists_instr hop'
    rw [← hbody', hqbody]
    simp [opsOf, hi']
  have hagree : q.TargetsAgree b ↔ ∀ s, s ∈ op'.targets ↔ s ∈ op.targets ∧ (b, s) ∉ cuts := by
    have hmem (s : BlockId) : s ∈ r'.succs ↔ s ∈ op.targets ∧ (b, s) ∉ cuts := by
      rw [hsuccs, List.mem_filter, htargets, decide_eq_true_eq]
    constructor
    · rintro ⟨r'', hr'', init, o, ho, -, -, htargets'⟩
      obtain rfl := Option.some.inj (hr'.symm.trans hr'')
      rw [hops] at ho
      obtain ⟨-, ho⟩ := List.append_inj' ho rfl
      obtain rfl := List.singleton_inj.1 ho
      exact fun s => (htargets' s).trans (hmem s)
    · exact fun hall => ⟨r', hr', _, _, hops, hterm, hinit, fun s => (hall s).trans (hmem s).symm⟩
  rw [hagree]
  rcases hends with ⟨hsame, hjump, hnone⟩ | ⟨d, hfollowed, hcuts⟩
  · refine ⟨fun _ hlost => ?_, fun _ s => by rw [hsame]; simp [hnone]⟩
    obtain ⟨v, hv, c, x, hbranch, hx⟩ := hlost
    obtain rfl := honly v hv c x x hbranch
    obtain rfl := Option.some.inj (hop'.symm.trans hx)
    cases hbranch.symm.trans (hop.trans (congrArg some (hjump x rfl)))
  · obtain ⟨c, x, rfl, hbranch⟩ := hfollowed.ways
    have htarget (s : BlockId) : s ∈ op.targets ↔ s = x ∨ s = d := by
      rcases hbranch with rfl | rfl <;> simp [Op.targets, or_comm]
    have hlost : p.LostWay q b ↔ x = d := by
      constructor
      · rintro ⟨v, hv, c', x', hbranch', -⟩
        obtain rfl := honly v hv c' x' x' hbranch'
        have hop := Option.some.inj (hop.symm.trans hbranch')
        rcases hbranch with hbranch | hbranch
        · obtain ⟨-, hx, hd⟩ := Op.branch.inj (hbranch.symm.trans hop)
          exact hx.trans hd.symm
        · obtain ⟨-, hd, hx⟩ := Op.branch.inj (hbranch.symm.trans hop)
          exact hx.trans hd.symm
      · rintro rfl
        exact ⟨t, ht, c, x, by rcases hbranch with rfl | rfl <;> exact hop, hop'⟩
    rw [hlost]
    have hjump (s : BlockId) : s ∈ (Op.jump x).targets ↔ s = x := List.mem_singleton
    simp only [hjump, htarget, hcuts]
    constructor
    · rintro hall rfl
      exact ((hall x).1 rfl).2 rfl
    · intro hne s
      constructor
      · rintro rfl
        exact ⟨Or.inl rfl, hne⟩
      · rintro ⟨rfl | rfl, hs⟩
        · rfl
        · exact absurd rfl hs

/-! ## The other rules -/

variable (hq : q.Consistent) (hheard : q.Heard S) (hreads : p.ReadsExist)

include hr hq hheard hreads in
/-- Only the targets can come to be wrong. -/
theorem Tracked.blockFormed (hS : b ∈ S) (hformed : p.BlockFormed b r)
    (hphis : ∀ v ∈ r.phis, ∀ x os, p.view.op v = some (.phi x os) → os.map (·.1) = r.preds)
    (hagree : q.TargetsAgree b) : ∃ r', q.block? b = some r' ∧ q.BlockFormed b r' := by
  obtain ⟨r', hr', hterminator⟩ := hagree
  have hrecord := h.block b
  rw [hr, hr', Option.map_some, Option.some.injEq] at hrecord
  have hcontents {u : ValueId} (hu : u ∈ r'.contents) : u ∈ q.contents b := by
    simpa [contents, hr'] using hu
  have howner {u : ValueId} (hu : u ∈ r'.contents) : q.owner? u = some b :=
    (hq.housed.owner u b).2 (hcontents hu)
  refine ⟨r', hr',
    { succ_edge := fun s hs => (hq.linked.edge b s).1 (by simpa [succs, hr'] using hs)
      pred_edge := fun s hs => (hq.linked.edge s b).2 (by simpa [preds, hr'] using hs)
      dominator := ?_
      terminator := hterminator
      phi_arity := fun v hv i x os hi hop => ?_
      owner := fun v hv i hi => ?_
      operand := fun u hu v hv i hi => ?_
      user := fun v hv i hi u hu => hq.registered.user_reads v u (by simpa [users, hi] using hu) }⟩
  · rw [hrecord]
    exact hformed.dominator
  · have hvphi : v ∈ r.phis := by rw [hrecord] at hv; exact hv
    have hvp : v ∈ p.phis b := by simpa [Program.phis, hr] using hvphi
    obtain ⟨j, hj, hjowner⟩ := hp.exists_instr (mem_contents_of_phi hvp)
    obtain ⟨i', f, hi', -, -, -, hkept⟩ := h.kept hj hjowner (h.fixed_phi hp hvp)
    obtain rfl := Option.some.inj (hi.symm.trans hi')
    rw [if_pos hvp, hop] at hkept
    rcases hkept with hkept | ⟨d, -, hfollowed⟩
    · cases hjop : j.op with
      | phi y ys =>
          have hys := hphis v hvphi y ys ((view_of_instr hj).1.trans (congrArg some hjop))
          rw [hjop] at hkept
          obtain ⟨-, rfl⟩ := Op.phi.inj hkept
          rw [List.length_map, hrecord]
          dsimp only
          rw [← hys, List.filter_map, List.length_map]
          rfl
      | _ => rw [hjop] at hkept; cases hkept
    · obtain ⟨c, t, hjump, -⟩ := hfollowed.ways
      cases hjump
  · have hv := howner hv
    simpa [owner?, hi] using hv
  · have hlisted := hheard (howner hu) hS v hv
    refine ⟨fun hnone => ?_, by simpa [users, hi] using hlisted⟩
    -- Something detached would have to come from something attached.
    obtain ⟨w, hw, rfl⟩ : ∃ w ∈ p.contents b, σ w = u := by
      rw [hrecord] at hu
      rcases List.mem_append.1 hu with hu | hu
      · have hup : u ∈ p.phis b := by simpa [Program.phis, hr] using hu
        exact ⟨u, mem_contents_of_phi hup, h.fixed_phi hp hup⟩
      · obtain ⟨w, hw, rfl⟩ := List.mem_map.1 hu
        exact ⟨w, mem_contents_of_body (by simpa [view, hr] using hw), rfl⟩
    by_cases hσ : σ w = w
    · rw [hσ] at hu hv hlisted
      obtain ⟨j, hj, hjowner⟩ := hp.exists_instr hw
      obtain ⟨j', f, hj', -, -, hf, hkept⟩ := h.kept hj hjowner hσ
      obtain rfl := hf hS
      obtain ⟨y, hy, rfl⟩ : ∃ y ∈ p.operands w, f y = v := by
        rcases hkept with hkept | ⟨d, -, hfollowed⟩
        · have hv : v ∈ j'.op.operands := by simpa [operands, hj'] using hv
          rw [hkept, Op.operands_mapOperands] at hv
          obtain ⟨y, hy, rfl⟩ := List.mem_map.1 hv
          refine ⟨y, ?_, rfl⟩
          have hread : y ∈ j.op.operands := by
            split at hy
            · exact Op.operands_trim _ _ hy
            · exact hy
          simpa [operands, hj] using hread
        · obtain ⟨c, t, hjump, -⟩ := hfollowed.ways
          simp [operands, hj', hjump, Op.operands] at hv
      obtain ⟨k, hk⟩ := Option.ne_none_iff_exists'.1 (hreads w y hy)
      have hwr : w ∈ r.contents := by simpa [contents, hr] using hw
      obtain ⟨e, hkowner⟩ := Option.ne_none_iff_exists'.1 (hformed.operand w hwr y hy k hk).1
      by_cases hσy : f y = y
      · obtain ⟨k', -, hk', hkowner', -⟩ := h.kept hk hkowner hσy
        rw [hσy] at hi
        obtain rfl := Option.some.inj (hi.symm.trans hk')
        rw [hnone] at hkowner'
        cases hkowner'
      · obtain ⟨a, k, n, us, -, -, -, -, -, hconst⟩ := h.folded hσy
        obtain rfl := Option.some.inj (hi.symm.trans hconst)
        cases hnone
    · obtain ⟨a, k, n, us, -, -, -, -, -, hconst⟩ := h.folded hσ
      simp [operands, hconst, Op.operands] at hv

end

/-! ## Programs -/

theorem mem_listedBlocks {b : BlockId} : b ∈ p.listedBlocks ↔ ∃ m ∈ p.methods, b ∈ m.blocks := by
  simp [listedBlocks]

/-- A method of the program afterwards, and the same method before. -/
theorem exists_method_of_bare (h : q.methods.map Method.bare = p.methods.map Method.bare) {m : Method}
    (hm : m ∈ q.methods) : ∃ m' ∈ p.methods, m'.entry = m.entry ∧ m'.exit = m.exit
      ∧ m'.blocks = m.blocks := by
  have hbare : m.bare ∈ p.methods.map Method.bare := h ▸ Array.mem_map.2 ⟨m, hm, rfl⟩
  obtain ⟨m', hm', heq⟩ := Array.mem_map.1 hbare
  simp only [Method.bare, Method.mk.injEq] at heq
  exact ⟨m', hm', heq.2.2.2.2.2.1, heq.2.2.2.2.2.2.1, heq.2.2.1⟩

/-- The use-lists of a program that breaks no rule know all readers in listed blocks. -/
theorem WellFormed.heard (h : p.WellFormed) (hp : p.Consistent)
    (hreads : p.ReadsExist) : p.Heard {b | b ∈ p.listedBlocks} := by
  intro u b howner hb v hv
  obtain ⟨m, hm, hbm⟩ := mem_listedBlocks.1 hb
  have hu := (hp.housed.owner u b).1 howner
  obtain ⟨k, hk⟩ : ∃ k, p.block? b = some k := by
    cases hk : p.block? b with
    | none => simp [contents, hk] at hu
    | some k => exact ⟨k, rfl⟩
  obtain ⟨i, hi⟩ := Option.ne_none_iff_exists'.1 (hreads u v hv)
  have := (((h m hm).block b k hbm hk).operand u (by simpa [contents, hk] using hu) v hv i hi).2
  simpa [users, hi] using this

end Program

/-- A pass over a verified program: verification finds nothing wrong afterwards exactly
if no listed block has lost its way, and the terminator of a listed block agrees with
its successors exactly if that block has not. -/
theorem afterRequests_pass_verifies {requests : List Request} {p q : Program}
    (h : Program.afterRequests requests = .ok p)
    (hvalid : ∃ report, p.verify false = .ok report ∧ report.valid = true)
    (hphis : ∀ b, ∀ v ∈ p.phis b, ∀ x os, p.view.op v = some (.phi x os) → os.map (·.1) = p.preds b)
    {count : FoldCount} (hrun : Fold.pass p = .ok count q) :
    ((∃ report, q.verify false = .ok report ∧ report.valid = true)
        ↔ ∀ b ∈ p.listedBlocks, ¬p.LostWay q b)
      ∧ ∀ b ∈ p.listedBlocks, q.TargetsAgree b ↔ ¬p.LostWay q b := by
  obtain ⟨hp, hlisted, hreads⟩ := Program.afterRequests_tables h
  rw [Program.verify_valid_iff] at hvalid ⊢
  have hsteps : Fold.Steps p count.folded count.simplified q :=
    Fold.steps_of_run hp (Nat.le_refl 1) (show Fold.run 1 1 p = .ok count q from hrun)
  have hq := hsteps.consistent hp
  obtain ⟨σ, cuts, htracked, hheard⟩ := hsteps.tracked hp (hvalid.heard hp hreads)
  have hblock (b : BlockId) (hb : b ∈ p.listedBlocks) :
      ∃ m ∈ p.methods, ∃ r, p.block? b = some r ∧ p.BlockFormed b r := by
    obtain ⟨m, hm, hbm⟩ := Program.mem_listedBlocks.1 hb
    obtain ⟨i, hi⟩ := Array.mem_iff_getElem?.1 hm
    obtain ⟨r, hr, -⟩ := hlisted.listed (m := ⟨i⟩) hi hbm
    exact ⟨m, hm, r, hr, (hvalid m hm).block b r hbm hr⟩
  have hagree (b : BlockId) (hb : b ∈ p.listedBlocks) : q.TargetsAgree b ↔ ¬p.LostWay q b := by
    obtain ⟨m, -, r, hr, hformed⟩ := hblock b hb
    exact htracked.targetsAgree_iff hp hr hformed
  refine ⟨⟨fun hformed b hb => (hagree b hb).1 ?_, fun hways m hm => ?_⟩, hagree⟩
  · rw [← hsteps.listedBlocks] at hb
    obtain ⟨m, hm, hbm⟩ := Program.mem_listedBlocks.1 hb
    obtain ⟨-, -, r, hr, -⟩ := hblock b (hsteps.listedBlocks ▸ hb)
    have hr' := htracked.block b
    rw [hr] at hr'
    exact ⟨_, hr', ((hformed m hm).block b _ hbm hr').terminator⟩
  · obtain ⟨m', hm', hentry, hexit, hblocks⟩ := Program.exists_method_of_bare hsteps.methods hm
    obtain ⟨e, r, he, hr, hsuccs⟩ := (hvalid m' hm').exit
    have hr' := htracked.block e
    rw [hr] at hr'
    refine ⟨?_, ⟨e, _, hexit.symm.trans he, hr', by simp [hsuccs]⟩, fun b r' hb hr' => ?_⟩
    · have hpreds := (hvalid m' hm').entry
      rw [hentry] at hpreds
      rw [Program.preds_eq, htracked.block]
      rw [Program.preds_eq] at hpreds
      cases hk : p.block? m.entry with
      | none => rfl
      | some k =>
          rw [hk] at hpreds
          simpa using by simp [show k.preds = [] from hpreds]
    · have hbp : b ∈ p.listedBlocks := Program.mem_listedBlocks.2 ⟨m', hm', hblocks ▸ hb⟩
      obtain ⟨-, -, r, hr, hformed⟩ := hblock b hbp
      have hlabels (v : ValueId) (hv : v ∈ r.phis) (x : String) (os : List (BlockId × ValueId))
          (hop : p.view.op v = some (.phi x os)) : os.map (·.1) = r.preds := by
        have := hphis b v (by simpa [Program.phis, hr] using hv) x os hop
        simpa [Program.preds, hr] using this
      obtain ⟨r'', hr'', hformed'⟩ := htracked.blockFormed hp hr hq hheard hreads hbp hformed hlabels
        ((hagree b hbp).2 (hways b hbp))
      obtain rfl := Option.some.inj (hr'.symm.trans hr'')
      exact hformed'

/-- The way around a block, with all that verification asks for. -/
def detour : List Request :=
  shortcut ++ [.emit ⟨2⟩ (.ret none) 5, .setDominator ⟨1⟩ ⟨0⟩, .setDominator ⟨2⟩ ⟨0⟩].filterMap
    Request.ofEdit? ++ [.setExit ⟨0⟩ (some ⟨2⟩)]

/-- Whether all phis have their operands in the order of the predecessors. -/
def Program.phisInOrder (p : Program) : Bool :=
  (List.range p.blocks.size).all fun n => (p.phis ⟨n⟩).all fun v =>
    match p.instr? v with
    | some ⟨.phi _ os, _, _, _⟩ => os.map (·.1) = p.preds ⟨n⟩
    | _ => true

theorem Program.of_phisInOrder {p : Program} (h : p.phisInOrder = true) (b : BlockId) (v : ValueId)
    (hv : v ∈ p.phis b) (x : String) (os : List (BlockId × ValueId))
    (hop : p.view.op v = some (.phi x os)) : os.map (·.1) = p.preds b := by
  have hb : b.index < p.blocks.size := by
    cases hr : p.block? b with
    | none => simp [Program.phis, hr] at hv
    | some r => exact (Array.getElem?_eq_some_iff.1 hr).1
  have hat := List.all_eq_true.1 (List.all_eq_true.1 h _ (List.mem_range.2 hb)) v hv
  obtain ⟨⟨_, _, _, _⟩, hi, rfl⟩ := exists_instr hop
  simpa [hi] using hat

/-- What a verification that may be lenient reports, if it comes to an end. -/
def Program.reported? (p : Program) : Option Report := (p.verify false).toOption

theorem Program.verify_of_reported? {p : Program} {report : Report}
    (h : p.reported? = some report) : p.verify false = .ok report := by
  unfold reported? at h
  cases hv : p.verify false with
  | error f => simp [hv, Except.toOption] at h
  | ok found => simpa [hv, Except.toOption] using h

/-- The pass follows the branch of `detour`, and verification finds nothing wrong
before or after. -/
theorem detour_pass_verifies : ∃ p q, Program.afterRequests detour = .ok p
    ∧ (∃ report, p.verify false = .ok report ∧ report.valid = true)
    ∧ (∀ b, ∀ v ∈ p.phis b, ∀ x os, p.view.op v = some (.phi x os) → os.map (·.1) = p.preds b)
    ∧ Fold.pass p = .ok ⟨2, 1, 1⟩ q
    ∧ (∃ report, q.verify false = .ok report ∧ report.valid = true)
    ∧ ∀ b ∈ p.listedBlocks, q.TargetsAgree b := by
  obtain ⟨p, q, h, hrun⟩ := Fold.exists_of_report? (by decide +kernel :
    Fold.report? detour 1 1 = some ⟨2, 1, 1⟩)
  have hreported := Fold.of_afterRequests h (P := fun p => p.reported?.any (·.valid))
    (by decide +kernel)
  obtain ⟨report, hreport, hok⟩ := (Option.any_eq_true _ _).1 hreported
  have hphis := Program.of_phisInOrder (Fold.of_afterRequests h (P := Program.phisInOrder)
    (by decide +kernel))
  have htargets := of_decide_eq_true <| Fold.of_afterRequests h (P := fun p =>
    decide (∀ b ∈ p.listedBlocks, ∀ v ∈ p.view.body b, ∀ op ∈ p.view.op v, op.targets.Nodup))
    (by decide +kernel)
  have hvalid : ∃ report, p.verify false = .ok report ∧ report.valid = true :=
    ⟨report, Program.verify_of_reported? hreport, hok⟩
  obtain ⟨hiff, hagree⟩ := afterRequests_pass_verifies h hvalid hphis hrun
  have hways (b : BlockId) (hb : b ∈ p.listedBlocks) : ¬p.LostWay q b := by
    rintro ⟨v, hv, c, t, hop, -⟩
    simpa [Op.targets] using htargets b hb v hv _ hop
  exact ⟨p, q, h, hvalid, hphis, hrun, hiff.2 hways, fun b hb => (hagree b hb).2 (hways b hb)⟩

/-- A branch to the exit on both ways. -/
def doubled : List Request :=
  [.addMethod "main" .main, .newBlock ⟨0⟩ .exit].filterMap Request.ofEdit?
    ++ [.setExit ⟨0⟩ (some ⟨1⟩)]
    ++ [.setDominator ⟨1⟩ ⟨0⟩, .link ⟨0⟩ ⟨1⟩, .emit ⟨0⟩ (.const 1) 1,
      .emit ⟨0⟩ (.branch ⟨0⟩ ⟨1⟩ ⟨1⟩) 1, .emit ⟨1⟩ (.ret none) 2].filterMap Request.ofEdit?

/-- The pass takes the only edge of `doubled` away, and the jump goes where no edge goes. -/
theorem doubled_pass_mismatch : ∃ p q, Program.afterRequests doubled = .ok p
    ∧ (∃ report, p.verify false = .ok report ∧ report.valid = true)
    ∧ (∀ b, ∀ v ∈ p.phis b, ∀ x os, p.view.op v = some (.phi x os) → os.map (·.1) = p.preds b)
    ∧ Fold.pass p = .ok ⟨0, 1, 1⟩ q
    ∧ ∃ report, q.verify false = .ok report ∧ report.valid = false
      ∧ report.findings = [.targetMismatch ⟨0⟩] := by
  obtain ⟨p, q, h, hrun⟩ := Fold.exists_of_report? (by decide +kernel :
    Fold.report? doubled 1 1 = some ⟨0, 1, 1⟩)
  have hreported := Fold.of_afterRequests h (P := fun p => p.reported?.any (·.valid))
    (by decide +kernel)
  obtain ⟨report, hreport, hok⟩ := (Option.any_eq_true _ _).1 hreported
  have hphis := Program.of_phisInOrder (Fold.of_afterRequests h (P := Program.phisInOrder)
    (by decide +kernel))
  have hafter := Fold.of_afterRequests h (P := fun p => (Fold.ended? (Fold.run 1 1 p)).any fun r =>
    r.2.reported?.any fun r => !r.valid && decide (r.findings = [.targetMismatch ⟨0⟩]))
    (by decide +kernel)
  rw [hrun] at hafter
  obtain ⟨found, hfound, hwrong⟩ := (Option.any_eq_true _ _).1 (show q.reported?.any _ = true from hafter)
  rw [Bool.and_eq_true, Bool.not_eq_true', decide_eq_true_eq] at hwrong
  exact ⟨p, q, h, ⟨report, Program.verify_of_reported? hreport, hok⟩, hphis, hrun, found,
    Program.verify_of_reported? hfound, hwrong⟩

end StructuredSsa
