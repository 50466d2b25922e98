import StructuredSsa.Proofs.DepthFirst

/-!
# Removing what cannot be reached

Pruning takes blocks out one after the other, each from a graph that those before it
have changed already. A block that goes takes its edges on both sides along and what
phis read along them. `Program.CutDown` says what taking edges away does to all the
blocks at once, `Program.Dropped` what the removal of some blocks of a method does.

Nothing is assumed about the blocks: they may lead to each other, to themselves and
to blocks that stay. `afterRequests_prune` is about any program that requests can
make, and about the blocks of one method that its entry does not reach.
-/

namespace StructuredSsa

namespace Program

variable {p q s : Program}

/-! ## Fewer edges -/

/-- A phi reads one value along each edge into its block, in the order of the edges. -/
def Aligned (p : Program) (b : BlockId) (v : ValueId) (name : String) : Prop :=
  ∃ os, (p.instr? v).map Instr.op = some (.phi name os) ∧ os.map Prod.fst = p.preds b

/-- The program `q` is `p` without the edges that are gone, and phis do not read along
them. -/
structure CutDown (p q : Program) (gone : BlockId → BlockId → Bool) : Prop where
  methods : q.methods.map Method.bare = p.methods.map Method.bare
  values : q.values.size = p.values.size
  owner : q.owner? = p.owner?
  block : ∀ x, q.block? x = (p.block? x).map fun r =>
    { r with
      succs := r.succs.filter fun y => !gone x y
      preds := r.preds.filter fun y => !gone y x }
  aligned : ∀ {x v name}, (∀ y, v ∈ p.phis y ↔ y = x) → p.Aligned x v name → q.Aligned x v name

theorem CutDown.phis {gone : BlockId → BlockId → Bool} (h : CutDown p q gone) : q.phis = p.phis := by
  funext x
  rw [Program.phis, h.block, Program.phis]
  cases p.block? x <;> rfl

theorem CutDown.refl (p : Program) : CutDown p p fun _ _ => false :=
  ⟨rfl, rfl, rfl, fun x => by simp, fun _ h => h⟩

theorem CutDown.trans {gone gone' : BlockId → BlockId → Bool} (h : CutDown p q gone)
    (k : CutDown q s gone') : CutDown p s fun x y => gone x y || gone' x y := by
  refine ⟨k.methods.trans h.methods, k.values.trans h.values, k.owner.trans h.owner, fun x => ?_,
    fun hv ha => ?_⟩
  · rw [k.block, h.block, Option.map_map]
    simp [Function.comp_def, List.filter_filter, Bool.and_comm]
  · exact k.aligned (by rwa [h.phis]) (h.aligned hv ha)

theorem CutDown.foldl {f : Program → BlockId → Program} {gone : BlockId → BlockId → BlockId → Bool}
    (hf : ∀ p c, CutDown p (f p c) (gone c)) : ∀ (l : List BlockId) (p : Program),
      CutDown p (l.foldl f p) fun x y => l.any fun c => gone c x y
  | [], p => .refl p
  | c :: l, p => by simpa using (hf p c).trans (CutDown.foldl hf l (f p c))

theorem cutDown_removeEdge (p : Program) (a b : BlockId) :
    CutDown p (p.removeEdge a b) fun x y => x = a && y = b := by
  have h := edgeRemoved_removeEdge p a b
  have hblock (x : BlockId) : (p.removeEdge a b).block? x = (p.block? x).map fun r =>
      { r with
        succs := r.succs.filter fun y => !(x = a && y = b)
        preds := r.preds.filter fun y => !(y = a && x = b) } := by
    rw [h.block]
    congr 1
    funext r
    congr 1 <;> split <;> simp [*]
  refine ⟨h.methods, h.values, (fewerEdges_removeEdge p a b).owner, hblock, fun {x v name} hv hos => ?_⟩
  obtain ⟨os, hop, hos⟩ := hos
  obtain ⟨i, hi, hio⟩ := Option.map_eq_some_iff.1 hop
  obtain ⟨i', hi', hop', -⟩ := (h.instr v).exists_instr hi
  have hpreds : (p.removeEdge a b).preds x = (p.preds x).filter fun y => !(y = a && x = b) := by
    rw [preds, hblock, preds]
    cases p.block? x <;> rfl
  by_cases hx : x = b
  · -- the phi loses what it read along the edge
    refine ⟨os.filter (·.1 ≠ a), ?_, ?_⟩
    · rw [hi', Option.map_some, hop', if_pos ((hv b).2 hx.symm), hio]
      rfl
    · rw [hpreds, ← hos, List.filter_map]
      simp [hx, Function.comp_def]
  · refine ⟨os, ?_, ?_⟩
    · rw [hi', Option.map_some, hop', if_neg fun hmem => hx ((hv b).1 hmem).symm, hio]
    · rw [hpreds, hos]
      simp [hx]

/-! ## Fewer blocks -/

/-- What is left of a block when some are gone, or it is one of them. -/
def remains (dead : List BlockId) (b : BlockId) (r : Block) : Block :=
  if b ∈ dead then { r with phis := [], body := [], preds := [], succs := [] }
  else { r with preds := r.preds.filter (· ∉ dead), succs := r.succs.filter (· ∉ dead) }

/-- The program `q` is `p` without some blocks of the method `m`. -/
structure Dropped (p q : Program) (m : MethodId) (dead : List BlockId) : Prop where
  listed : ∀ n, (q.method? n).map (fun r => (r.entry, r.blocks)) = (p.method? n).map fun r =>
    (r.entry, if n = m then r.blocks.filter (· ∉ dead) else r.blocks)
  block : ∀ x, q.block? x = (p.block? x).map (remains dead x)
  values : q.values.size = p.values.size
  owner : ∀ v, q.owner? v = (p.owner? v).filter (· ∉ dead)
  aligned : ∀ {x v name}, x ∉ dead → v ∈ p.phis x → p.Aligned x v name → q.Aligned x v name

section

variable {m : MethodId} {dead dead' : List BlockId} {x : BlockId}

section

variable (h : Dropped p q m dead)
include h

theorem Dropped.succs : q.succs x = if x ∈ dead then [] else (p.succs x).filter (· ∉ dead) := by
  rw [Program.succs, h.block, Program.succs]
  cases p.block? x <;> simp [remains]
  split <;> rfl

theorem Dropped.preds : q.preds x = if x ∈ dead then [] else (p.preds x).filter (· ∉ dead) := by
  rw [Program.preds, h.block, Program.preds]
  cases p.block? x <;> simp [remains]
  split <;> rfl

theorem Dropped.phis : q.phis x = if x ∈ dead then [] else p.phis x := by
  rw [Program.phis, h.block, Program.phis]
  cases p.block? x <;> simp [remains]
  split <;> rfl

theorem Dropped.contents : q.contents x = if x ∈ dead then [] else p.contents x := by
  rw [Program.contents, h.block, Program.contents]
  cases p.block? x <;> simp [remains]
  split <;> rfl

end

theorem Dropped.refl (p : Program) (m : MethodId) : Dropped p p m [] := by
  refine ⟨fun n => by simp, fun x => ?_, rfl, fun v => by cases p.owner? v <;> rfl, fun _ _ h => h⟩
  cases p.block? x <;> simp [remains]

theorem Dropped.trans (h : Dropped p q m dead) (k : Dropped q s m dead') :
    Dropped p s m (dead ++ dead') := by
  have hfilter (l : List BlockId) :
      (l.filter (· ∉ dead)).filter (· ∉ dead') = l.filter (· ∉ dead ++ dead') := by
    simp [List.filter_filter, Bool.and_comm]
  refine ⟨fun n => ?_, fun x => ?_, k.values.trans h.values, fun v => ?_, fun {x v name} hx hv ha => ?_⟩
  · rw [k.listed]
    have hn := h.listed n
    cases hp : p.method? n <;> cases hq : q.method? n <;> simp [hp, hq] at hn ⊢
    rw [hn.1, hn.2]
    split
    · simpa using hfilter _
    · exact ⟨rfl, rfl⟩
  · rw [k.block, h.block, Option.map_map]
    congr 1
    funext r
    by_cases hx : x ∈ dead
    · by_cases hx' : x ∈ dead' <;> simp [remains, hx, hx']
    · by_cases hx' : x ∈ dead'
      · simp [remains, hx, hx']
      · simp only [Function.comp_apply, remains, if_neg hx, if_neg hx',
          if_neg (mt List.mem_append.1 (not_or.2 ⟨hx, hx'⟩)), hfilter]
  · rw [k.owner, h.owner]
    cases p.owner? v with
    | none => rfl
    | some x => by_cases hx : x ∈ dead <;> by_cases hx' : x ∈ dead' <;> simp [Option.filter, hx, hx']
  · obtain ⟨hx, hx'⟩ := not_or.1 (mt List.mem_append.2 hx)
    refine k.aligned hx' ?_ (h.aligned hx hv ha)
    rwa [h.phis, if_neg hx]

end

/-! ## One block -/

/-- The edges at a block are those that it lists on its two sides. -/
theorem Linked.filter_gone (h : p.Linked) {b : BlockId} {r : Block} (hr : p.block? b = some r)
    {x y : BlockId} (hxy : y ∈ p.succs x) :
    ((r.succs.any fun c => x = b && y = c) || r.preds.any fun c => x = c && y = b)
      = decide (x = b ∨ y = b) := by
  have hsuccs : p.succs b = r.succs := by simp [Program.succs, hr]
  have hpreds : p.preds b = r.preds := by simp [Program.preds, hr]
  have hyx := (h.edge x y).1 hxy
  by_cases hx : x = b <;> by_cases hy : y = b
  · subst hx hy
    simp [← hsuccs, hxy]
  · subst hx
    simpa [← hsuccs, hy] using hxy
  · subst hy
    simpa [← hpreds, hx] using hyx
  · simp [hx, hy]

theorem frame_detachAll (vs : List ValueId) (p : Program) : (vs.foldl detach p).frame = p.frame :=
  foldl_keeps (fun p v => (frame_modifyInstr _ v _).trans (frame_dropUses p v)) vs p

theorem op_detachAll (vs : List ValueId) (p : Program) (v : ValueId) :
    ((vs.foldl detach p).instr? v).map Instr.op = (p.instr? v).map Instr.op :=
  congrArg (fun w => View.op w v) (view_detachAll vs p)

theorem Housed.phis_unique (h : p.Housed) {x : BlockId} {v : ValueId} (hv : v ∈ p.phis x)
    (y : BlockId) : v ∈ p.phis y ↔ y = x := by
  have hmem {y : BlockId} (hy : v ∈ p.phis y) : p.owner? v = some y := by
    refine (h.owner v y).2 ?_
    unfold Program.phis at hy
    unfold Program.contents
    cases hr : p.block? y with
    | none => simp [hr] at hy
    | some r => simpa [hr, Block.contents] using Or.inl (by simpa [hr] using hy)
  refine ⟨fun hy => Option.some.inj ((hmem hy).symm.trans (hmem hv)), ?_⟩
  rintro rfl
  exact hv

theorem CutDown.listed {gone : BlockId → BlockId → Bool} (h : CutDown p q gone) (n : MethodId) :
    (q.method? n).map (fun r => (r.entry, r.blocks))
      = (p.method? n).map fun r => (r.entry, r.blocks) := by
  have hbare (p : Program) : (p.method? n).map (fun r => (r.entry, r.blocks))
      = (p.methods.map Method.bare)[n.index]?.map fun r => (r.entry, r.blocks) := by
    simp [method?, Function.comp_def, Method.bare]
  rw [hbare, hbare, h.methods]

/-- A block goes with all its edges. -/
theorem Consistent.dropped (h : p.Consistent) {b : BlockId} {r : Block} (hr : p.block? b = some r) :
    Dropped p (p.dropBlock b) r.method [b] := by
  obtain ⟨t, ht⟩ : ∃ t, t = r.contents.foldl detach p := ⟨_, rfl⟩
  obtain ⟨-, howner, -⟩ := detachAll_kept r.contents p
  have hvalues : t.values.size = p.values.size :=
    ht ▸ congrArg View.values (view_detachAll r.contents p)
  have hframe : t.frame = p.frame := ht ▸ frame_detachAll r.contents p
  have hat : t.block? = p.block? := funext (block?_of_frame hframe)
  have hmethod : t.method? = p.method? := by
    funext n
    rw [method?, method?, show t.methods = p.methods from congrArg (·.1) hframe]
  -- first the edges go, then the lists of the block and its place in the method
  obtain ⟨q, hq, hcut⟩ : ∃ q, q = r.preds.foldl (fun p c => p.removeEdge c b)
      (r.succs.foldl (fun p c => p.removeEdge b c) t) ∧ CutDown t q fun x y =>
        (r.succs.any fun c => x = b && y = c) || r.preds.any fun c => x = c && y = b :=
    ⟨_, rfl, (CutDown.foldl (fun p c => cutDown_removeEdge p b c) ..).trans
      (CutDown.foldl (fun p c => cutDown_removeEdge p c b) ..)⟩
  have hdrop : p.dropBlock b = (q.modifyBlock b fun r => { r with phis := [], body := [] }).modifyMethod
      r.method fun m => { m with blocks := m.blocks.filter (· ≠ b), tree := none } := by
    rw [Program.dropBlock, hr, hq, ht]
  rw [hdrop]
  refine ⟨fun n => ?_, fun x => ?_, hcut.values.trans hvalues, fun v => ?_, fun {x v name} hx hv ha => ?_⟩
  · have hn := hcut.listed n
    rw [hmethod] at hn
    rw [method?_modifyMethod, method?_modifyBlock]
    cases hp : p.method? n <;> cases hqn : q.method? n <;> simp [hp, hqn] at hn ⊢
    by_cases hnm : r.method = n
    · simp [hnm, hn.1, hn.2]
    · simp [hnm, Ne.symm hnm, hn.1, hn.2]
  · rw [block?_modifyMethod, block?_modifyBlock, hcut.block, hat]
    cases hx : p.block? x with
    | none => simp
    | some k =>
        have hsuccs {y : BlockId} (hy : y ∈ k.succs) := h.linked.filter_gone hr (x := x) (y := y)
          (by simpa [Program.succs, hx] using hy)
        have hpreds {y : BlockId} (hy : y ∈ k.preds) := h.linked.filter_gone hr (x := y) (y := x)
          ((h.linked.edge y x).2 (by simpa [Program.preds, hx] using hy))
        simp only [Option.map_some, List.filter_congr fun y hy => congrArg (!·) (hsuccs hy),
          List.filter_congr fun y hy => congrArg (!·) (hpreds hy)]
        by_cases hxb : x = b
        · simp [remains, hxb]
        · simp [remains, hxb, Ne.symm hxb]
  · rw [owner?, instr?_modifyMethod, instr?_modifyBlock, ← owner?, hcut.owner, ht, howner]
    cases hv : p.owner? v with
    | none => simp
    | some x =>
        have hmem : v ∈ r.contents ↔ x = b := by
          have := h.housed.owner v b
          simp only [hv, Program.contents, hr, Option.map_some, Option.getD_some] at this
          rw [← this, Option.some_inj]
        by_cases hxb : x = b <;> simp [hmem, hxb, Option.filter]
  · have hphis : t.phis = p.phis := by funext y; rw [Program.phis, hat, Program.phis]
    have hat' : t.Aligned x v name := by
      obtain ⟨os, hop, hos⟩ := ha
      refine ⟨os, ?_, ?_⟩
      · rw [ht, op_detachAll, hop]
      · rw [hos, Program.preds, Program.preds, hat]
    obtain ⟨os, hop, hos⟩ := hcut.aligned (hphis ▸ h.housed.phis_unique hv) hat'
    refine ⟨os, by rw [instr?_modifyMethod, instr?_modifyBlock, hop], ?_⟩
    rw [hos, Program.preds, Program.preds, block?_modifyMethod, block?_modifyBlock,
      if_neg fun hbx => hx (by simp [hbx])]

/-- The removal of some blocks of one method, each from what those before it leave. -/
theorem Consistent.droppedAll {m : MethodId} : ∀ (bs : List BlockId) {p : Program}, p.Consistent →
    (∀ b ∈ bs, (p.block? b).map Block.method = some m) → Dropped p (bs.foldl Program.dropBlock p) m bs
  | [], p, _, _ => .refl p m
  | b :: bs, p, h, hbs => by
      obtain ⟨r, hr, rfl⟩ := Option.map_eq_some_iff.1 (hbs b List.mem_cons_self)
      have hfirst := h.dropped hr
      refine hfirst.trans (Consistent.droppedAll bs (h.dropBlock b) fun c hc => ?_)
      obtain ⟨k, hk, hkm⟩ := Option.map_eq_some_iff.1 (hbs c (List.mem_cons_of_mem _ hc))
      rw [hfirst.block, hk, Option.map_some, Option.map_some, ← hkm, remains]
      split <;> rfl

section

variable {m : MethodId} {dead : List BlockId} (h : Dropped p q m dead)
include h

theorem Dropped.blocksOf (n : MethodId) :
    q.blocksOf n = if n = m then (p.blocksOf n).filter (· ∉ dead) else p.blocksOf n := by
  have hn := h.listed n
  rw [Program.blocksOf, Program.blocksOf]
  cases hp : p.method? n <;> cases hq : q.method? n <;> simp [hp, hq] at hn ⊢
  exact hn.2

/-- What dropped blocks held is there, and stands nowhere. -/
theorem Dropped.detached (hp : p.Consistent) {b : BlockId} (hb : b ∈ dead) {v : ValueId}
    (hv : v ∈ p.contents b) : ∃ i, q.instr? v = some i ∧ i.owner = none := by
  obtain ⟨i, hi, howner⟩ := hp.exists_instr hv
  obtain ⟨i', hi'⟩ : ∃ i', q.instr? v = some i' := by
    refine ⟨_, Array.getElem?_eq_getElem ?_⟩
    rw [h.values]
    exact (Array.getElem?_eq_some_iff.1 hi).1
  have hq := h.owner v
  rw [owner?, owner?, hi, hi', Option.bind_some, Option.bind_some, howner] at hq
  exact ⟨i', hi', by simpa [Option.filter, hb] using hq⟩

/-- A search that meets no dropped block goes as it did. -/
theorem Dropped.reachableFrom {start : BlockId} (hdead : ∀ b ∈ dead, ¬Reaches p.succs start b) :
    q.reachableFrom start = p.reachableFrom start := by
  have hfound := p.depthFirst_reachableFrom start
  refine (q.depthFirst_reachableFrom start).unique (hfound.congr fun b hb => ?_)
  have hreach := mem_reachableFrom.1 hb
  rw [h.succs, if_neg fun hmem => hdead b hmem hreach, List.filter_eq_self]
  intro c hc
  simpa using fun hmem => hdead c hmem (hreach.step hc)

end

end Program

/-- The program `q` is `p` without the blocks of the method `m` that its entry does not
reach. They keep nothing, and what they held stands nowhere. No other list of blocks
changes, and no edge that has both its ends in other blocks. -/
structure Program.PrunedTo (p q : Program) (m : MethodId) (dead : List BlockId) : Prop where
  nodup : dead.Nodup
  unreached : ∀ r, p.method? m = some r →
    ∀ b, b ∈ dead ↔ b ∈ r.blocks ∧ ¬Reaches p.succs r.entry b
  blocks : ∀ n, q.blocksOf n = if n = m then (p.blocksOf n).filter (· ∉ dead) else p.blocksOf n
  found : q.reachable m = p.reachable m
  succs : ∀ b, q.succs b = if b ∈ dead then [] else (p.succs b).filter (· ∉ dead)
  preds : ∀ b, q.preds b = if b ∈ dead then [] else (p.preds b).filter (· ∉ dead)
  contents : ∀ b, q.contents b = if b ∈ dead then [] else p.contents b
  detached : ∀ b ∈ dead, ∀ v ∈ p.contents b, ∃ i, q.instr? v = some i ∧ i.owner = none
  phis : ∀ b ∉ dead, q.phis b = p.phis b
  aligned : ∀ b ∉ dead, ∀ v ∈ p.phis b, ∀ name, p.Aligned b v name → q.Aligned b v name

/-- After any requests, pruning a method takes out what its entry does not reach and says
how many blocks that was. There is nothing left to prune then. -/
theorem afterRequests_prune {requests : List Request} {p : Program}
    (h : Program.afterRequests requests = .ok p) {m : MethodId} {r : Method}
    (hm : p.method? m = some r) :
    ∃ (dead : List BlockId) (q : Program), p.prune m = .ok (dead.length, q)
      ∧ p.PrunedTo q m dead ∧ q.prune m = .ok (0, q) := by
  obtain ⟨hconsistent, hlisted, -⟩ := Program.afterRequests_tables h
  have hprune {p : Program} {r : Method} (hm : p.method? m = some r) : p.prune m
      = .ok ((p.unreachable r).length, (p.unreachable r).foldl Program.dropBlock p) := by
    rw [Program.prune, Program.getMethod_ok hm]
    rfl
  have hmem (b : BlockId) : b ∈ p.unreachable r ↔ b ∈ r.blocks ∧ ¬Reaches p.succs r.entry b := by
    rw [Program.unreachable, List.mem_filter, decide_eq_true_iff, Program.mem_reachableFrom]
  have hdropped := hconsistent.droppedAll (m := m) (p.unreachable r) fun b hb => by
    obtain ⟨k, hk, hkm⟩ := hlisted.listed hm ((hmem b).1 hb).1
    simp [hk, hkm]
  obtain ⟨s, hs, hsame⟩ : ∃ s, ((p.unreachable r).foldl Program.dropBlock p).method? m = some s
      ∧ (s.entry, s.blocks) = (r.entry, r.blocks.filter (· ∉ p.unreachable r)) :=
    Option.map_eq_some_iff.1 (by rw [hdropped.listed, hm, Option.map_some, if_pos rfl])
  obtain ⟨hentry, hblocks⟩ := Prod.mk.inj hsame
  have hsearch := hdropped.reachableFrom fun b hb => ((hmem b).1 hb).2
  refine ⟨p.unreachable r, _, hprune hm, ⟨(hlisted.once hm).filter _, ?_, hdropped.blocksOf, ?_,
    fun b => hdropped.succs, fun b => hdropped.preds, fun b => hdropped.contents,
    fun b hb v hv => hdropped.detached hconsistent hb hv, fun b hb => ?_,
    fun b hb v hv name => hdropped.aligned hb hv⟩, ?_⟩
  · intro r' hr'
    obtain rfl := Option.some.inj (hm.symm.trans hr')
    exact hmem
  · simp only [Program.reachable, Program.getMethod_ok hm, Program.getMethod_ok hs, hentry, hsearch,
      bind, Except.bind]
  · rw [hdropped.phis, if_neg hb]
  · -- the blocks that are left are those that the search finds
    have hnone : Program.unreachable ((p.unreachable r).foldl Program.dropBlock p) s = [] := by
      rw [Program.unreachable, hentry, hsearch, hblocks, List.filter_eq_nil_iff]
      intro b hb hnot
      obtain ⟨hb, hkept⟩ := List.mem_filter.1 hb
      rw [decide_eq_true_iff, Program.mem_reachableFrom] at hnot
      rw [decide_eq_true_iff, hmem] at hkept
      exact hkept ⟨hb, hnot⟩
    rw [hprune hs, hnone]
    rfl

/-- Two blocks that nothing reaches lead to each other, one of them to itself, and both to
a block that stays. A phi there reads what they compute. -/
def unreachedLoop : List Request :=
  [.addMethod "main" .main, .newBlock ⟨0⟩ (.join false), .newBlock ⟨0⟩ .plain, .newBlock ⟨0⟩ .plain,
    .link ⟨2⟩ ⟨1⟩, .link ⟨0⟩ ⟨1⟩, .link ⟨3⟩ ⟨1⟩, .link ⟨2⟩ ⟨3⟩, .link ⟨3⟩ ⟨2⟩, .link ⟨2⟩ ⟨2⟩,
    .emit ⟨0⟩ (.const 1) 1, .emit ⟨2⟩ (.const 2) 1, .emit ⟨3⟩ (.arith .add ⟨0⟩ ⟨1⟩) 1,
    .addPhi ⟨1⟩ "x" [(⟨2⟩, ⟨1⟩), (⟨0⟩, ⟨0⟩), (⟨3⟩, ⟨2⟩)] 1].filterMap Request.ofEdit?

theorem unreachedLoop_prune : ∃ p r, Program.afterRequests unreachedLoop = .ok p ∧ p.method? ⟨0⟩ = some r
    ∧ p.unreachable r = [⟨2⟩, ⟨3⟩] ∧ p.Aligned ⟨1⟩ ⟨3⟩ "x"
    ∧ ∃ (dead : List BlockId) (q : Program), p.prune ⟨0⟩ = .ok (dead.length, q)
      ∧ p.PrunedTo q ⟨0⟩ dead ∧ q.prune ⟨0⟩ = .ok (0, q) := by
  have hrun : ((Program.afterRequests unreachedLoop).toOption.bind fun p =>
      (p.method? ⟨0⟩).map fun r => (p.unreachable r, (p.instr? ⟨3⟩).map Instr.op, p.preds ⟨1⟩))
        = some ([⟨2⟩, ⟨3⟩], some (.phi "x" [(⟨2⟩, ⟨1⟩), (⟨0⟩, ⟨0⟩), (⟨3⟩, ⟨2⟩)]), [⟨2⟩, ⟨0⟩, ⟨3⟩]) := by
    decide +kernel
  cases h : Program.afterRequests unreachedLoop with
  | error e => rw [h] at hrun; cases hrun
  | ok p =>
      rw [h] at hrun
      obtain ⟨r, hr, hfacts⟩ := Option.map_eq_some_iff.1 hrun
      obtain ⟨hdead, hfacts⟩ := Prod.mk.inj hfacts
      obtain ⟨hop, hpreds⟩ := Prod.mk.inj hfacts
      exact ⟨p, r, rfl, hr, hdead, ⟨_, hop, hpreds.symm⟩, afterRequests_prune h hr⟩

end StructuredSsa
