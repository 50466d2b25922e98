import StructuredSsa.Proofs.FoldCounts

/-!
# What folding leaves alone

A program after some steps of folding is told from the program before by two things:
the values that constants have come for (`σ`), and the edges that were taken away
(`cuts`). `Program.Reframed` says what the two decide of methods, blocks and edges,
`Program.Refolded` what they decide of the instructions that stay.

A constant comes for a value wherever its use-list says. An instruction that its
operands do not list goes on reading what it read, so instructions are followed only
in blocks where this does not happen (`Program.Heard`); `Program.Tracked` is kept by
every step, for any such set of blocks.
-/

namespace StructuredSsa

/-- Other values for the same names. -/
def Bindings.renamed (σ : ValueId → ValueId) (st : Bindings) : Bindings :=
  ⟨st.entries.map fun e => (e.1, σ e.2)⟩

theorem Bindings.renamed_renamed (σ τ : ValueId → ValueId) (st : Bindings) :
    (st.renamed σ).renamed τ = st.renamed fun v => τ (σ v) := by
  simp [renamed]

theorem Bindings.substitute_eq_renamed (st : Bindings) (old new : ValueId) :
    st.substitute old new = st.renamed (rename old new) := rfl

namespace Op

/-- A phi of the block `b` without its operands for edges that are cut. -/
def trim (cuts : List (BlockId × BlockId)) (b : BlockId) : Op → Op
  | phi name os => phi name (os.filter fun o => (o.1, b) ∉ cuts)
  | op => op

/-- A branch has become a jump, and does not go to `dropped` any more. -/
def FollowedTo (dropped : BlockId) (op op' : Op) : Prop :=
  ∃ c t f, op = .branch c t f ∧ (op' = .jump t ∧ dropped = f ∨ op' = .jump f ∧ dropped = t)

theorem FollowedTo.exists_jump {dropped : BlockId} {op op' : Op} (h : op.FollowedTo dropped op') :
    ∃ t, op' = .jump t := by
  obtain ⟨c, t, f, -, ⟨hjump, -⟩ | ⟨hjump, -⟩⟩ := h <;> exact ⟨_, hjump⟩

/-- Nothing that leaves jumps alone makes a difference. -/
theorem FollowedTo.of_jump {dropped : BlockId} {op op' op'' : Op} (h : op.FollowedTo dropped op')
    (hjump : ∀ t, op' = .jump t → op'' = .jump t) : op.FollowedTo dropped op'' := by
  obtain ⟨c, t, f, hop, hways⟩ := h
  exact ⟨c, t, f, hop, hways.imp (.imp_left (hjump t)) (.imp_left (hjump f))⟩

section

variable (op : Op) (cuts : List (BlockId × BlockId)) {a b d : BlockId} (f g : ValueId → ValueId)

theorem trim_nil (b : BlockId) : op.trim [] b = op := by
  cases op <;> simp [trim]

theorem trim_cons_of_ne (h : d ≠ b) : op.trim ((a, d) :: cuts) b = op.trim cuts b := by
  cases op <;> simp [trim, Ne.symm h]

theorem without_mapOperands_trim : ((op.trim cuts b).mapOperands f).without a
    = (op.trim ((a, b) :: cuts) b).mapOperands f := by
  cases op with
  | phi name os =>
      simp only [trim, mapOperands, without, List.filter_map, List.filter_filter]
      congr 3
      funext o
      simp
  | _ => rfl

theorem mapOperands_mapOperands : (op.mapOperands f).mapOperands g
    = op.mapOperands fun v => g (f v) := by
  cases op <;> simp [mapOperands]
  case ret value => cases value <;> rfl

theorem operands_trim {v : ValueId} (hv : v ∈ (op.trim cuts b).operands) : v ∈ op.operands := by
  cases op with
  | phi name os =>
      obtain ⟨o, ho, rfl⟩ := List.mem_map.1 hv
      exact List.mem_map_of_mem (List.mem_filter.1 ho).1
  | _ => exact hv

theorem isComputed_trim (b : BlockId) : (op.trim cuts b).isComputed = op.isComputed := by
  cases op <;> rfl

theorem eq_branch_of_mapOperands {c : ValueId} {t e : BlockId}
    (h : op.mapOperands f = .branch c t e) : ∃ c', op = .branch c' t e := by
  cases op <;> simp [mapOperands] at h
  exact ⟨_, by rw [h.2.1, h.2.2]⟩

theorem eq_branch_of_trim {c : ValueId} {t e : BlockId} (h : op.trim cuts b = .branch c t e) :
    op = .branch c t e := by
  cases op <;> simp_all [trim]

end

end Op

namespace Program

variable {p q q' : Program} {σ : ValueId → ValueId} {cuts : List (BlockId × BlockId)}
  {S : Set BlockId}

/-- The program `q` is `p` with other values where the bodies of its blocks and their
bindings had `v` and `σ v` is another value, and without the edges `cuts`. Only
computations and comparisons have a constant in their place, on the line they had;
only a branch that became a jump has lost an edge. -/
structure Reframed (p q : Program) (σ : ValueId → ValueId) (cuts : List (BlockId × BlockId)) :
    Prop where
  methods : q.methods.map Method.bare = p.methods.map Method.bare
  globals : q.globals = p.globals
  values : p.values.size ≤ q.values.size
  block : ∀ b, q.block? b = (p.block? b).map fun r =>
    { r with
      body := r.body.map σ
      succs := r.succs.filter fun s => (b, s) ∉ cuts
      preds := r.preds.filter fun a => (a, b) ∉ cuts
      before := r.before.map (·.renamed σ)
      after := r.after.map (·.renamed σ) }
  folded : ∀ {v}, σ v ≠ v → ∃ b i n us, v ∈ p.view.body b ∧ p.instr? v = some i
    ∧ i.op.isComputed = true ∧ q.owner? v = none ∧ p.values.size ≤ (σ v).index
    ∧ q.instr? (σ v) = some ⟨.const n, some b, i.line, us⟩
  cut : ∀ {b d}, (b, d) ∈ cuts → ∃ v ∈ p.view.body b, ∃ i i', p.instr? v = some i
    ∧ q.instr? v = some i' ∧ i.op.FollowedTo d i'.op

/-- Moreover every instruction that still stands is what it was, with constants for
what was folded; a phi may have lost operands, and a branch may be a jump. -/
structure Refolded (p q : Program) (σ : ValueId → ValueId) (cuts : List (BlockId × BlockId)) :
    Prop extends Reframed p q σ cuts where
  kept : ∀ {v i b}, p.instr? v = some i → i.owner = some b → σ v = v →
    ∃ i', q.instr? v = some i' ∧ i'.owner = some b ∧ i'.line = i.line
      ∧ (i'.op = (if v ∈ p.phis b then i.op.trim cuts b else i.op).mapOperands σ
        ∨ ∃ d, (b, d) ∈ cuts ∧ i.op.FollowedTo d i'.op)

/-- The same with instructions followed in the blocks `S` only: in other blocks it is
not known which of the folded values they still read. -/
structure Tracked (S : Set BlockId) (p q : Program) (σ : ValueId → ValueId)
    (cuts : List (BlockId × BlockId)) : Prop extends Reframed p q σ cuts where
  kept : ∀ {v i b}, p.instr? v = some i → i.owner = some b → σ v = v →
    ∃ i' f, q.instr? v = some i' ∧ i'.owner = some b ∧ i'.line = i.line ∧ (b ∈ S → f = σ)
      ∧ (i'.op = (if v ∈ p.phis b then i.op.trim cuts b else i.op).mapOperands f
        ∨ ∃ d, (b, d) ∈ cuts ∧ i.op.FollowedTo d i'.op)

/-- The instructions of the blocks `S` are listed by all their operands. -/
def Heard (p : Program) (S : Set BlockId) : Prop :=
  ∀ {u b}, p.owner? u = some b → b ∈ S → ∀ v ∈ p.operands u, u ∈ p.users v

theorem Tracked.refolded (h : Tracked Set.univ p q σ cuts) : Refolded p q σ cuts := by
  refine ⟨h.toReframed, fun hi howner hσ => ?_⟩
  obtain ⟨i', f, hi', howner', hline, hf, hop⟩ := h.kept hi howner hσ
  obtain rfl := hf trivial
  exact ⟨i', hi', howner', hline, hop⟩

theorem tracked_refl (S : Set BlockId) (p : Program) : Tracked S p p id [] where
  methods := rfl
  globals := rfl
  values := Nat.le_refl _
  block b := by
    have hst (o : Option Bindings) : o.map (·.renamed id) = o := by
      cases o <;> simp [Bindings.renamed]
    cases p.block? b <;> simp [hst]
  folded h := absurd rfl h
  cut h := nomatch h
  kept {v i b} hi howner _ := by
    refine ⟨i, id, hi, howner, rfl, fun _ => rfl, Or.inl ?_⟩
    rw [Op.trim_nil, ite_self]
    exact (Op.mapOperands_id fun _ _ => rfl).symm

/-! ## What `σ` and `cuts` say of the lists -/

section

variable (h : Reframed p q σ cuts)
variable {v : ValueId}

include h

theorem Reframed.body (b : BlockId) : q.view.body b = (p.view.body b).map σ := by
  simp only [view, h.block]
  cases p.block? b <;> rfl

theorem Reframed.phis (b : BlockId) : q.phis b = p.phis b := by
  rw [Program.phis, Program.phis, h.block]
  cases p.block? b <;> rfl

/-- Only constants come from elsewhere. -/
theorem Reframed.fixed (hno : ∀ n, q.view.op (σ v) ≠ some (.const n)) : σ v = v := by
  by_contra hne
  obtain ⟨b, i, n, us, -, -, -, -, -, hconst⟩ := h.folded hne
  exact hno n (view_of_instr hconst).1

/-- No constant comes for a phi. -/
theorem Reframed.fixed_phi (hp : p.Consistent) {b : BlockId} (hv : v ∈ p.phis b) : σ v = v := by
  by_contra hne
  obtain ⟨a, i, n, us, hbody, -⟩ := h.folded hne
  obtain rfl := hp.eq_of_contents (mem_contents_of_body hbody) (mem_contents_of_phi hv)
  cases hr : p.block? a with
  | none => simp [Program.phis, hr] at hv
  | some r =>
      obtain ⟨-, -, -, hrbody, -⟩ := view_of_block hr
      exact (hp.body_nodup hr).2 v (hrbody ▸ hbody) (by simpa [Program.phis, hr] using hv)

/-- An instruction of `q` that is no constant stood there before. -/
theorem Reframed.mem_body {b : BlockId} (hv : v ∈ q.view.body b)
    (hno : ∀ n, q.view.op v ≠ some (.const n)) : v ∈ p.view.body b ∧ σ v = v := by
  rw [h.body] at hv
  obtain ⟨w, hw, rfl⟩ := List.mem_map.1 hv
  have hfixed := h.fixed hno
  rw [hfixed]
  exact ⟨hw, hfixed⟩

theorem Reframed.ne_fresh {i : Instr} (hi : p.instr? v = some i) : v ≠ ⟨q.values.size⟩ := by
  rintro rfl
  have hlt := (Array.getElem?_eq_some_iff.1 hi).1
  exact absurd h.values (Nat.not_le.2 hlt)

/-- A rewriting that keeps the jumps keeps the branches that were followed. -/
theorem Reframed.cut_of_jumps (hno : ∀ {i t}, q.instr? v = some i → i.op ≠ .jump t)
    (hjumps : ∀ {w i t}, w ≠ v → q.instr? w = some i → i.op = .jump t →
      ∃ i', q'.instr? w = some i' ∧ i'.op = .jump t) {a d : BlockId} (had : (a, d) ∈ cuts) :
    ∃ w ∈ p.view.body a, ∃ i i', p.instr? w = some i
      ∧ q'.instr? w = some i' ∧ i.op.FollowedTo d i'.op := by
  obtain ⟨w, hw, i, j, hi, hj, hfollowed⟩ := h.cut had
  obtain ⟨t, hjump⟩ := hfollowed.exists_jump
  have hwv : w ≠ v := by
    rintro rfl
    exact hno hj hjump
  obtain ⟨j', hj', hjump'⟩ := hjumps hwv hj hjump
  exact ⟨w, hw, i, j', hi, hj', (hjump'.trans hjump.symm) ▸ hfollowed⟩

end

/-! ## A constant comes -/

section

variable {b : BlockId} {i : Instr} {u v : ValueId} {line : Nat} {n : Int64}

theorem FoldedAt.instr (h : q.FoldedAt q' b v n line) (hi : q.instr? u = some i) (hu : u ≠ v) :
    ∃ i', q'.instr? u = some i' ∧ i'.owner = i.owner ∧ i'.line = i.line
      ∧ i'.op = if u ∈ q.users v then i.op.substitute v ⟨q.values.size⟩ else i.op := by
  have hfresh : u ≠ ⟨q.values.size⟩ := by
    rintro rfl
    cases q.instr?_fresh.symm.trans hi
  have hother := h.other u hfresh hu
  rw [hi, Option.map_some] at hother
  exact ⟨_, hother, rfl, rfl, rfl⟩

theorem FoldedAt.substitute_const (h : q.FoldedAt q' b v n line) {m : Int64} {o : Option BlockId}
    {l : Nat} {us : List ValueId} (hi : q.instr? u = some ⟨.const m, o, l, us⟩) (hu : u ≠ v) :
    ∃ us', q'.instr? u = some ⟨.const m, o, l, us'⟩ := by
  obtain ⟨⟨op, o', l', us'⟩, hi', howner, hline, hop⟩ := h.instr hi hu
  simp only [Op.substitute, Op.mapOperands, ite_self] at howner hline hop
  subst howner hline hop
  exact ⟨us', hi'⟩

/-- Where readers are listed, the constant is read instead. -/
theorem Heard.substitute (hheard : q.Heard S) {a : BlockId} (hi : q.instr? u = some i)
    (howner : i.owner = some a) (ha : a ∈ S) :
    (if u ∈ q.users v then i.op.substitute v ⟨q.values.size⟩ else i.op)
      = i.op.mapOperands (rename v ⟨q.values.size⟩) := by
  have hoperands : q.operands u = i.op.operands := by simp [operands, hi]
  split
  · rw [Op.substitute_eq]
  · next hno =>
      refine (Op.mapOperands_id fun x hx => rename_of_ne ?_).symm
      rintro rfl
      have howner? : q.owner? u = some a := by simp [owner?, hi, howner]
      exact hno (hheard howner? ha x (hoperands ▸ hx))

theorem Heard.folded (hheard : q.Heard S) (h : q.FoldedAt q' b v n line) :
    q'.Heard S := by
  intro u a howner ha x hx
  obtain ⟨i', hi', howner'⟩ := Option.bind_eq_some_iff.1 howner
  obtain ⟨us, hconst, hus⟩ := h.constant
  by_cases hnew : u = ⟨q.values.size⟩
  · subst hnew
    simp [operands, hconst, Op.operands] at hx
  · have huv : u ≠ v := by
      rintro rfl
      rw [h.removed] at hi'
      obtain ⟨i, -, rfl⟩ := Option.map_eq_some_iff.1 hi'
      cases howner'
    obtain ⟨i, hi⟩ : ∃ i, q.instr? u = some i := by
      rw [h.other u hnew huv] at hi'
      obtain ⟨i, hi, -⟩ := Option.map_eq_some_iff.1 hi'
      exact ⟨i, hi⟩
    obtain ⟨j, hj, howner'', -, hop⟩ := h.instr hi huv
    obtain rfl := Option.some.inj (hi'.symm.trans hj)
    rw [howner''] at howner'
    rw [hheard.substitute hi howner' ha] at hop
    have hx : x ∈ i.op.operands.map (rename v ⟨q.values.size⟩) := by
      simpa [operands, hi', hop] using hx
    obtain ⟨y, hy, rfl⟩ := List.mem_map.1 hx
    have hlisted : u ∈ q.users y :=
      hheard (by simp [owner?, hi, howner']) ha y (by simpa [operands, hi] using hy)
    by_cases hyv : y = v
    · subst hyv
      rw [rename_old]
      simpa [users, hconst] using (hus u).2 hlisted
    · rw [rename_of_ne hyv]
      obtain ⟨j, hj⟩ : ∃ j, q.instr? y = some j := by
        cases hj : q.instr? y with
        | none => simp [users, hj] at hlisted
        | some j => exact ⟨j, rfl⟩
      have hfresh : y ≠ ⟨q.values.size⟩ := by
        rintro rfl
        cases q.instr?_fresh.symm.trans hj
      have hlisted : u ∈ j.users := by simpa [users, hj] using hlisted
      simp only [users, h.other y hfresh hyv, hj, Option.map_some, Option.getD_some]
      split
      · simpa using ⟨hlisted, huv⟩
      · exact hlisted

/-- What is computed in a body was computed there from the beginning. -/
theorem Tracked.computed (h : Tracked S p q σ cuts) (hp : p.Consistent) (hv : v ∈ q.view.body b)
    (hi : q.instr? v = some i) (hcomputed : i.op.isComputed = true) :
    v ∈ p.view.body b ∧ σ v = v ∧ ∃ i₀, p.instr? v = some i₀ ∧ i₀.op.isComputed = true
      ∧ i.line = i₀.line := by
  have hno (m : Int64) : q.view.op v ≠ some (.const m) := by
    rw [(view_of_instr hi).1]
    intro hc
    rw [Option.some.inj hc] at hcomputed
    cases hcomputed
  obtain ⟨hvp, hσv⟩ := h.mem_body hv hno
  obtain ⟨i₀, hi₀, howner₀⟩ := hp.exists_instr (mem_contents_of_body hvp)
  obtain ⟨j, f, hj, -, hline, -, hop⟩ := h.kept hi₀ howner₀ hσv
  obtain rfl := Option.some.inj (hi.symm.trans hj)
  refine ⟨hvp, hσv, i₀, hi₀, ?_, hline⟩
  rcases hop with hop | ⟨d, -, hfollowed⟩
  · rw [hop, Op.onlyLost_isComputed.mapOperands] at hcomputed
    split at hcomputed
    · rwa [Op.isComputed_trim] at hcomputed
    · exact hcomputed
  · obtain ⟨t, hjump⟩ := hfollowed.exists_jump
    rw [hjump] at hcomputed
    cases hcomputed

/-- What still stands reads the constant where it is listed as a reader. -/
theorem Tracked.kept_fold (h : Tracked S p q σ cuts) (hheard : q.Heard S)
    (hfold : q.FoldedAt q' b v n line) {k : Instr} {a : BlockId} (hne : u ≠ v)
    (hk : p.instr? u = some k) (hka : k.owner = some a) (hu : σ u = u) :
    ∃ k' f, q'.instr? u = some k' ∧ k'.owner = some a ∧ k'.line = k.line
      ∧ (a ∈ S → f = fun x => rename v ⟨q.values.size⟩ (σ x))
      ∧ (k'.op = (if u ∈ p.phis a then k.op.trim cuts a else k.op).mapOperands f
        ∨ ∃ d, (a, d) ∈ cuts ∧ k.op.FollowedTo d k'.op) := by
  obtain ⟨k', g, hk', hka', hline', hg, hop'⟩ := h.kept hk hka hu
  obtain ⟨k'', hk'', hka'', hline'', hop''⟩ := hfold.instr hk' hne
  rcases hop' with hop' | ⟨d, hd, hfollowed⟩
  · by_cases ha : a ∈ S
    · obtain rfl := hg ha
      rw [hheard.substitute hk' hka' ha, hop', Op.mapOperands_mapOperands] at hop''
      exact ⟨k'', _, hk'', hka''.trans hka', hline''.trans hline', fun _ => rfl, Or.inl hop''⟩
    · -- Which of the two the instruction reads depends on its being listed.
      refine ⟨k'', if u ∈ q.users v then fun x => rename v ⟨q.values.size⟩ (g x) else g, hk'',
        hka''.trans hka', hline''.trans hline', fun h => absurd h ha, Or.inl ?_⟩
      rw [hop'', hop', Op.substitute_eq]
      split
      · exact Op.mapOperands_mapOperands ..
      · rfl
  · exact ⟨k'', _, hk'', hka''.trans hka', hline''.trans hline', fun _ => rfl,
      Or.inr ⟨d, hd, hfollowed.of_jump fun t hjump => by rw [hop'', hjump]; exact ite_self _⟩⟩

theorem Tracked.fold (h : Tracked S p q σ cuts) (hp : p.Consistent) (hheard : q.Heard S)
    (hv : v ∈ q.view.body b) (hi : q.instr? v = some i) (hn : q.view.Evaluates v n)
    (hfold : q.FoldedAt q' b v n i.line) :
    Tracked S p q' (fun u => rename v ⟨q.values.size⟩ (σ u)) cuts := by
  have hcomputed : i.op.isComputed = true := by
    cases hn with
    | arith hop => exact Option.some.inj ((view_of_instr hi).1.symm.trans hop) ▸ rfl
    | compare hop => exact Option.some.inj ((view_of_instr hi).1.symm.trans hop) ▸ rfl
  -- The constant comes for the instruction that has stood there from the beginning.
  obtain ⟨hvp, hσv, i₀, hi₀, hcomputed₀, hline⟩ := h.computed hp hv hi hcomputed
  have hof {u : ValueId} (hu : σ u = v) : u = v := by
    by_contra hne
    obtain ⟨_, _, m, us, -, -, -, -, -, hconst⟩ := h.folded (hu ▸ Ne.symm hne)
    obtain rfl := Option.some.inj (hi.symm.trans (hu ▸ hconst))
    cases hcomputed
  refine ⟨⟨hfold.methods ▸ h.methods, hfold.globals.trans h.globals, ?_, fun a => ?_, fun {u} hu => ?_,
    h.cut_of_jumps (v := v) ?_ ?_⟩, fun {u k a} hk hka hu => ?_⟩
  · rw [hfold.values]
    exact Nat.le_succ_of_le h.values
  · rw [hfold.block, h.block]
    have hst (o : Option Bindings) : (o.map (·.renamed σ)).map (·.substitute v ⟨q.values.size⟩)
        = o.map (·.renamed fun u => rename v ⟨q.values.size⟩ (σ u)) := by
      rw [Option.map_map]
      refine congrArg (Option.map · o) (funext fun st => ?_)
      exact (Bindings.substitute_eq_renamed _ _ _).trans (Bindings.renamed_renamed _ _ st)
    cases p.block? a with
    | none => rfl
    | some r => simp [Block.substitute, hst, Function.comp_def]
  · by_cases huv : σ u = v
    · obtain rfl := hof huv
      obtain ⟨us, hconst, -⟩ := hfold.constant
      refine ⟨b, i₀, n, us, hvp, hi₀, hcomputed₀, ?_, ?_, ?_⟩
      · simp [owner?, hfold.removed, hi]
      · rw [hσv, rename_old]
        exact h.values
      · rw [hσv, rename_old, ← hline]
        exact hconst
    · rw [rename_of_ne huv] at hu ⊢
      obtain ⟨c, k, m, us, hbody, hk, hkind, hgone, hfresh, hconst⟩ := h.folded hu
      obtain ⟨us', hconst'⟩ := hfold.substitute_const hconst huv
      refine ⟨c, k, m, us', hbody, hk, hkind, ?_, hfresh, hconst'⟩
      have hne : u ≠ v := by rintro rfl; exact hu hσv
      have hother := hfold.other u (h.ne_fresh hk) hne
      rw [owner?, hother]
      rw [owner?] at hgone
      cases hq : q.instr? u with
      | none => rfl
      | some o => simpa [hq] using hgone
  · intro j t hj hjump
    obtain rfl := Option.some.inj (hi.symm.trans hj)
    rw [hjump] at hcomputed
    cases hcomputed
  · intro w j t hw hj hjump
    obtain ⟨j', hj', -, -, hop⟩ := hfold.instr hj hw
    exact ⟨j', hj', by rw [hop, hjump]; exact ite_self _⟩
  · have huv : σ u ≠ v := by
      intro huv
      rw [huv, rename_old] at hu
      exact h.ne_fresh hk hu.symm
    rw [rename_of_ne huv] at hu
    exact h.kept_fold hheard hfold (by rintro rfl; exact huv hu) hk hka hu

end

/-! ## A branch is followed -/

section

variable {b taken dropped : BlockId} {v : ValueId}

/-- One more block is left out of a list, where that is to be done. -/
theorem filter_filter_ite {c : Prop} [Decidable c] {P Q : BlockId → Prop} [DecidablePred P]
    [DecidablePred Q] {d : BlockId} (l : List BlockId) (h : ∀ s, Q s ↔ P s ∧ ¬(c ∧ s = d)) :
    (if c then (l.filter (P ·)).filter (· ≠ d) else l.filter (P ·)) = l.filter (Q ·) := by
  split
  · next hc =>
      rw [List.filter_filter]
      exact List.filter_congr fun s _ => by simp [h, hc, Bool.and_comm]
  · next hc => exact List.filter_congr fun s _ => by simp [h, hc]

theorem Heard.followed (hheard : q.Heard S) (h : q.FollowedAt q' b v taken dropped) : q'.Heard S := by
  intro u a howner ha x hx
  obtain ⟨i', hi', howner'⟩ := Option.bind_eq_some_iff.1 howner
  have hredone := h.instr u
  obtain ⟨i, hi⟩ : ∃ i, q.instr? u = some i := by
    cases hi : q.instr? u with
    | some i => exact ⟨i, rfl⟩
    | none =>
        have hnone := hredone.view_op
        simp [view, hi, hi'] at hnone
  obtain ⟨j, hj, hop, hown, -⟩ := hredone.exists_instr hi
  obtain rfl := Option.some.inj (hi'.symm.trans hj)
  have huv : u ≠ v := by
    rintro rfl
    rw [if_pos rfl] at hop
    simp [operands, hi', hop, Op.operands] at hx
  have hread : x ∈ q.operands u := by
    rw [if_neg huv] at hop
    have hx' : x ∈ i'.op.operands := by simpa [operands, hi'] using hx
    rw [hop] at hx'
    simpa [operands, hi] using operands_ite_without i.op x hx'
  exact h.reader x u (hheard (by simp [owner?, hi, ← hown, howner']) ha x hread) huv hx

/-- A branch that is decided was one from the beginning, with the same targets. -/
theorem Tracked.branched (h : Tracked S p q σ cuts) (hp : p.Consistent) (hv : v ∈ q.view.body b)
    (hd : q.view.Decided v taken dropped) : v ∈ p.view.body b ∧ ∃ i₀ i c t f,
      p.instr? v = some i₀ ∧ i₀.owner = some b ∧ i₀.op.FollowedTo dropped (.jump taken)
      ∧ q.instr? v = some i ∧ i.owner = some b ∧ i.line = i₀.line ∧ i.op = .branch c t f := by
  obtain ⟨c, n, t, f, hop, -, hways⟩ := hd.branch
  obtain ⟨hvp, hσv⟩ := h.mem_body hv fun m => by simp [hop]
  obtain ⟨i₀, hi₀, howner₀⟩ := hp.exists_instr (mem_contents_of_body hvp)
  obtain ⟨i, g, hi, howner, hline, -, hkept⟩ := h.kept hi₀ howner₀ hσv
  have hiop : i.op = .branch c t f := Option.some.inj ((view_of_instr hi).1.symm.trans hop)
  obtain ⟨c₀, hbranch⟩ : ∃ c₀, i₀.op = .branch c₀ t f := by
    rcases hkept with hkept | ⟨d, -, hfollowed⟩
    · obtain ⟨c₀, hc₀⟩ := Op.eq_branch_of_mapOperands _ _ (hkept.symm.trans hiop)
      split at hc₀
      · exact ⟨c₀, Op.eq_branch_of_trim _ _ hc₀⟩
      · exact ⟨c₀, hc₀⟩
    · obtain ⟨t', hjump⟩ := hfollowed.exists_jump
      cases hiop.symm.trans hjump
  refine ⟨hvp, i₀, i, c, t, f, hi₀, howner₀, ⟨c₀, t, f, hbranch, ?_⟩, hi, howner, hline, hiop⟩
  split at hways
  · obtain ⟨rfl, rfl⟩ := Prod.mk.inj hways; exact Or.inr ⟨rfl, rfl⟩
  · obtain ⟨rfl, rfl⟩ := Prod.mk.inj hways; exact Or.inl ⟨rfl, rfl⟩

/-- The phis of the block that is not taken lose what they read for the edge, and
no other instruction does. -/
theorem Consistent.without_trim (hp : p.Consistent) {u : ValueId} {k : Instr} {a : BlockId}
    (hk : p.instr? u = some k) (hka : k.owner = some a) (g : ValueId → ValueId) :
    (if u ∈ p.phis dropped
      then ((if u ∈ p.phis a then k.op.trim cuts a else k.op).mapOperands g).without b
      else (if u ∈ p.phis a then k.op.trim cuts a else k.op).mapOperands g)
      = (if u ∈ p.phis a then k.op.trim ((b, dropped) :: cuts) a else k.op).mapOperands g := by
  by_cases hphi : u ∈ p.phis a
  · rw [if_pos hphi, if_pos hphi]
    by_cases hda : dropped = a
    · subst hda
      rw [if_pos hphi]
      exact Op.without_mapOperands_trim ..
    · have hnot : u ∉ p.phis dropped := fun hmem =>
        hda (hp.eq_of_contents (mem_contents_of_phi hmem) (mem_contents_of_phi hphi))
      rw [if_neg hnot, Op.trim_cons_of_ne _ _ hda]
  · have hnot : u ∉ p.phis dropped := fun hmem => by
      have howner : p.owner? u = some a := by simp [owner?, hk, hka]
      have hcontents := (hp.housed.owner u a).1 howner
      obtain rfl := hp.eq_of_contents (mem_contents_of_phi hmem) hcontents
      exact hphi hmem
    rw [if_neg hphi, if_neg hphi, if_neg hnot]

theorem Tracked.follow (h : Tracked S p q σ cuts) (hp : p.Consistent)
    (hv : v ∈ q.view.body b) (hd : q.view.Decided v taken dropped)
    (hfollow : q.FollowedAt q' b v taken dropped) : Tracked S p q' σ ((b, dropped) :: cuts) := by
  obtain ⟨hvp, i₀, i, c, t, f, hi₀, howner₀, hfollowedTo, hi, howner, hline, hiop⟩ :=
    h.branched hp hv hd
  obtain ⟨i', hi', hop', howner', hline'⟩ := (hfollow.instr v).exists_instr hi
  rw [if_pos rfl] at hop'
  refine ⟨⟨hfollow.methods.trans h.methods, hfollow.globals.trans h.globals,
    hfollow.values ▸ h.values, fun a => ?_, fun {u} hu => ?_, fun {a d} had => ?_⟩,
    fun {u k a} hk hka hu => ?_⟩
  · rw [hfollow.block, h.block]
    cases p.block? a with
    | none => rfl
    | some r =>
        have hsuccs := filter_filter_ite (c := a = b) (d := dropped) r.succs
          (P := fun s => (a, s) ∉ cuts) (Q := fun s => (a, s) ∉ (b, dropped) :: cuts) (by simp; tauto)
        have hpreds := filter_filter_ite (c := a = dropped) (d := b) r.preds
          (P := fun s => (s, a) ∉ cuts) (Q := fun s => (s, a) ∉ (b, dropped) :: cuts) (by simp; tauto)
        simp only [Option.map_some, hsuccs, hpreds]
  · obtain ⟨e, k, m, us, hbody, hk, hkind, hgone, hfresh, hconst⟩ := h.folded hu
    have hσu : σ u ≠ v := by
      rintro rfl
      obtain rfl := Option.some.inj (hi.symm.trans hconst)
      cases hiop
    obtain ⟨⟨op, o, l, us'⟩, hj, hjop, hjowner, hjline⟩ := (hfollow.instr (σ u)).exists_instr hconst
    rw [if_neg hσu] at hjop
    simp only [Op.without, ite_self] at hjop hjowner hjline
    subst hjop hjowner hjline
    refine ⟨e, k, m, us', hbody, hk, hkind, ?_, hfresh, hj⟩
    have howners := congrArg (fun o => Option.bind o Instr.owner) (hfollow.instr u)
    simp only [Option.bind_map, Function.comp_def] at howners
    rw [owner?] at hgone ⊢
    exact howners.trans hgone
  · rcases List.mem_cons.1 had with had | had
    · obtain ⟨rfl, rfl⟩ := Prod.mk.inj had
      exact ⟨v, hvp, i₀, i', hi₀, hi', hop' ▸ hfollowedTo⟩
    · refine h.cut_of_jumps (v := v) (fun {j t'} hj hjump => ?_) (fun {w j t'} hw hj hjump => ?_) had
      · obtain rfl := Option.some.inj (hi.symm.trans hj)
        cases hiop.symm.trans hjump
      · obtain ⟨j', hj', hop, -, -⟩ := (hfollow.instr w).exists_instr hj
        rw [if_neg hw, hjump] at hop
        exact ⟨j', hj', hop.trans (ite_self _)⟩
  · by_cases huv : u = v
    · subst huv
      obtain rfl := Option.some.inj (hi₀.symm.trans hk)
      obtain rfl := Option.some.inj (howner₀.symm.trans hka)
      exact ⟨i', σ, hi', howner'.trans howner, hline'.trans hline, fun _ => rfl,
        Or.inr ⟨dropped, List.mem_cons_self, hop' ▸ hfollowedTo⟩⟩
    · obtain ⟨k', g, hk', hka', hkline, hg, hkop⟩ := h.kept hk hka hu
      obtain ⟨k'', hk'', hop'', howner'', hline''⟩ := (hfollow.instr u).exists_instr hk'
      rw [if_neg huv, h.phis] at hop''
      refine ⟨k'', g, hk'', howner''.trans hka', hline''.trans hkline, hg, ?_⟩
      rcases hkop with hkop | ⟨d, had, hfollowed⟩
      · rw [hkop, hp.without_trim hk hka] at hop''
        exact Or.inl hop''
      · exact Or.inr ⟨d, List.mem_cons_of_mem _ had, hfollowed.of_jump fun t hjump => by
          rw [hop'', hjump]; exact ite_self _⟩

end

end Program

/-! ## Whole runs -/

theorem Fold.Steps.tracked {S : Set BlockId} {p q : Program} {j k : Nat} (h : Fold.Steps p j k q)
    (hp : p.Consistent) (hheard : p.Heard S) :
    ∃ σ cuts, Program.Tracked S p q σ cuts ∧ q.Heard S := by
  induction h with
  | refl => exact ⟨id, [], Program.tracked_refl S p, hheard⟩
  | folded hsteps hb hv hi hn hfolded ih =>
      obtain ⟨σ, cuts, htracked, hheard⟩ := ih
      exact ⟨_, cuts, htracked.fold hp hheard hv hi hn hfolded, hheard.folded hfolded⟩
  | followed hsteps hb hv hd hfollowed ih =>
      obtain ⟨σ, cuts, htracked, hheard⟩ := ih
      exact ⟨σ, _, htracked.follow hp hv hd hfollowed, hheard.followed hfollowed⟩

/-- A pass rewrites only what it folds. -/
theorem afterRequests_pass_refolded {requests : List Request} {p q : Program}
    (h : Program.afterRequests requests = .ok p)
    (hlisted : ∀ u b v, p.owner? u = some b → v ∈ p.operands u → u ∈ p.users v)
    {count : FoldCount} (hrun : Fold.pass p = .ok count q) :
    ∃ σ cuts, p.Refolded q σ cuts := by
  obtain ⟨hp, -⟩ := Program.afterRequests_tables h
  have hsteps : Fold.Steps p count.folded count.simplified q :=
    Fold.steps_of_run hp (Nat.le_refl 1) (show Fold.run 1 1 p = .ok count q from hrun)
  obtain ⟨σ, cuts, htracked, -⟩ := hsteps.tracked hp (S := Set.univ)
    fun {u b} howner _ v hv => hlisted u b v howner hv
  exact ⟨σ, cuts, htracked.refolded⟩

/-- A way around a block that is never taken: the comparison and the sum that reads it
become constants, and the join loses the operand for the edge that goes. -/
def shortcut : List Request :=
  [.addMethod "main" .main, .newBlock ⟨0⟩ .plain, .newBlock ⟨0⟩ (.join false),
    .emit ⟨0⟩ (.const 3) 1, .emit ⟨0⟩ (.const 4) 1, .emit ⟨0⟩ (.compare .lt ⟨0⟩ ⟨1⟩) 2,
    .emit ⟨0⟩ (.branch ⟨2⟩ ⟨1⟩ ⟨2⟩) 2, .link ⟨0⟩ ⟨1⟩, .link ⟨0⟩ ⟨2⟩,
    .emit ⟨1⟩ (.arith .add ⟨0⟩ ⟨2⟩) 3, .emit ⟨1⟩ (.jump ⟨2⟩) 3, .link ⟨1⟩ ⟨2⟩,
    .addPhi ⟨2⟩ "x" [(⟨0⟩, ⟨0⟩), (⟨1⟩, ⟨4⟩)] 4, .emit ⟨2⟩ (.write ⟨6⟩) 4].filterMap Request.ofEdit?

/-- Only values that exist stand in a block. -/
theorem Program.listed_of_all {p : Program}
    (h : ∀ n < p.values.size, ∀ v ∈ p.operands ⟨n⟩, ⟨n⟩ ∈ p.users v) (u : ValueId) (b : BlockId)
    (v : ValueId) (hu : p.owner? u = some b) (hv : v ∈ p.operands u) : u ∈ p.users v := by
  obtain ⟨i, hi, -⟩ := Option.bind_eq_some_iff.1 hu
  exact h u.index (Array.getElem?_eq_some_iff.1 hi).1 v hv

theorem shortcut_pass_refolded : ∃ p q σ cuts, Program.afterRequests shortcut = .ok p
    ∧ (∀ u b v, p.owner? u = some b → v ∈ p.operands u → u ∈ p.users v)
    ∧ Fold.pass p = .ok ⟨2, 1, 1⟩ q ∧ p.Refolded q σ cuts := by
  obtain ⟨p, q, h, hrun⟩ := Fold.exists_of_report? (by decide +kernel :
    Fold.report? shortcut 1 1 = some ⟨2, 1, 1⟩)
  have hall := of_decide_eq_true <| Fold.of_afterRequests h (P := fun p =>
    decide (∀ n < p.values.size, ∀ v ∈ p.operands ⟨n⟩, ⟨n⟩ ∈ p.users v)) (by decide +kernel)
  have hlisted := Program.listed_of_all hall
  obtain ⟨σ, cuts, hrefolded⟩ := afterRequests_pass_refolded h hlisted hrun
  exact ⟨p, q, σ, cuts, h, hlisted, hrun, hrefolded⟩

end StructuredSsa
