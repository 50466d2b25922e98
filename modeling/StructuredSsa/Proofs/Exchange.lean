import StructuredSsa.Proofs.FoldFrame

/-!
# One value for another

`Program.Exchanged p q old new` says all that `replace` does: who was listed as a
reader of `old` reads `new`, bindings change the same way, and nothing else does.
Use-lists move with the readers, so that where every reader was listed before, every
reader is listed again and nothing that stands in a block reads `old`.

The new value may itself read the old one, and the old one may read itself; both are
then readers of the new value like any other.
-/

namespace StructuredSsa

namespace Program

variable {p q : Program} {old new : ValueId}

/-- The program `q` is `p` with `new` read wherever `old` was. -/
structure Exchanged (p q : Program) (old new : ValueId) : Prop where
  methods : q.methods = p.methods
  globals : q.globals = p.globals
  block : ∀ b, q.block? b = (p.block? b).map fun r =>
    { r with
      before := r.before.map (·.renamed (rename old new))
      after := r.after.map (·.renamed (rename old new)) }
  /-- What an instruction is, the labels of a phi included, where it stands, and its
  line are as they were. -/
  instr : ∀ v, q.instr? v = (p.instr? v).map fun i =>
    { i with
      op := if v ∈ p.users old then i.op.mapOperands (rename old new) else i.op
      users := q.users v }
  operands : ∀ u, q.operands u
    = if u ∈ p.users old then (p.operands u).map (rename old new) else p.operands u
  users_old : q.users old = []
  users_new : ∀ u, u ∈ q.users new ↔ u ∈ p.users new ∨ u ∈ p.users old
  users_nodup : (q.users new).Nodup
  users_other : ∀ v, v ≠ old → v ≠ new → q.users v = p.users v
  unread : ∀ u b, q.owner? u = some b → old ∉ q.operands u
  listed : ∀ u b v, q.owner? u = some b → v ∈ q.operands u → u ∈ q.users v

section

variable (hne : new ≠ old)
include hne

theorem users_redirect (v : ValueId) : (p.redirect old new).users v
    = if v = old then []
      else if v = new then
        ((p.instr? new).map fun i => ((p.users old).foldl Instr.addUser i).users).getD []
      else p.users v := by
  rw [users, instr?_redirect hne]
  by_cases hold : v = old
  · cases p.instr? v <;> simp [hold]
  · by_cases hnew : v = new
    · subst hnew
      cases p.instr? v <;> simp [hne]
    · cases hv : p.instr? v <;> simp [hold, hnew, users, hv]

theorem operands_redirect (u : ValueId) : (p.redirect old new).operands u
    = if u ∈ p.users old then (p.operands u).map (rename old new) else p.operands u := by
  rw [operands, instr?_redirect hne, operands]
  cases p.instr? u with
  | none => simp
  | some i =>
      simp only [Option.map_some]
      split <;> simp [Op.substitute_eq]

theorem owner?_redirect (u : ValueId) : (p.redirect old new).owner? u = p.owner? u := by
  rw [owner?, instr?_redirect hne, owner?]
  cases p.instr? u <;> rfl

theorem mem_users_redirect (hnew : p.instr? new ≠ none) (u : ValueId) :
    u ∈ (p.redirect old new).users new ↔ u ∈ p.users new ∨ u ∈ p.users old := by
  obtain ⟨j, hj⟩ := Option.ne_none_iff_exists'.1 hnew
  rw [users_redirect hne, if_neg hne, if_pos rfl]
  simp [hj, mem_users_foldl_addUser, users]

/-- An operand after the exchange: `new` for a reader of `old`, and else one that was
read before, other than `old`. -/
theorem mem_operands_redirect
    (hlisted : ∀ u b v, p.owner? u = some b → v ∈ p.operands u → u ∈ p.users v) {u v : ValueId}
    {b : BlockId} (hu : p.owner? u = some b) (hv : v ∈ (p.redirect old new).operands u) :
    v = new ∧ u ∈ p.users old ∨ v ≠ old ∧ v ∈ p.operands u := by
  rw [operands_redirect hne] at hv
  split at hv
  · next hreads =>
      obtain ⟨x, hx, rfl⟩ := List.mem_map.1 hv
      by_cases hold : x = old
      · exact Or.inl ⟨hold ▸ rename_old .., hreads⟩
      · rw [rename_of_ne hold]
        exact Or.inr ⟨hold, hx⟩
  · next hno =>
      refine Or.inr ⟨?_, hv⟩
      rintro rfl
      exact hno (hlisted u b v hu hv)

end

theorem exchanged_redirect (hp : p.Consistent)
    (hlisted : ∀ u b v, p.owner? u = some b → v ∈ p.operands u → u ∈ p.users v)
    (hold : p.instr? old ≠ none) (hnew : p.instr? new ≠ none) (hne : new ≠ old) :
    p.Exchanged (p.redirect old new) old new := by
  have hrest := p.redirect_rest new hold
  simp only [frame, Prod.mk.injEq] at hrest
  obtain ⟨hmethods, hglobals, hblocks, -⟩ := hrest
  refine
    { methods := hmethods
      globals := hglobals
      block := fun b => ?_
      instr := fun v => ?_
      operands := operands_redirect hne
      users_old := (users_redirect hne old).trans (if_pos rfl)
      users_new := mem_users_redirect hne hnew
      users_nodup := (hp.redirect hne).registered.users_nodup new
      users_other := fun v h h' => by rw [users_redirect hne, if_neg h, if_neg h']
      unread := fun u b hu hread => ?_
      listed := fun u b v hu hv => ?_ }
  · rw [block?, hblocks, Array.getElem?_map]
    rfl
  · have hv := p.instr?_redirect hne v
    have husers : (p.redirect old new).users v = (((p.redirect old new).instr? v).map (·.users)).getD [] :=
      rfl
    rw [husers, hv]
    cases p.instr? v with
    | none => rfl
    | some i => simp [Op.substitute_eq]
  · rw [owner?_redirect hne] at hu
    rcases mem_operands_redirect hne hlisted hu hread with ⟨h, -⟩ | ⟨h, -⟩
    · exact hne h.symm
    · exact h rfl
  · rw [owner?_redirect hne] at hu
    rcases mem_operands_redirect hne hlisted hu hv with ⟨rfl, hreads⟩ | ⟨hvold, hread⟩
    · exact (mem_users_redirect hne hnew u).2 (Or.inr hreads)
    · have hmem := hlisted u b v hu hread
      by_cases hvnew : v = new
      · subst hvnew
        exact (mem_users_redirect hne hnew u).2 (Or.inl hmem)
      · rwa [users_redirect hne, if_neg hvold, if_neg hvnew]

end Program

/-- Replacing a value by another one does just that. -/
theorem afterRequests_replace_exchanged {requests : List Request} {p : Program}
    (h : Program.afterRequests requests = .ok p)
    (hlisted : ∀ u b v, p.owner? u = some b → v ∈ p.operands u → u ∈ p.users v)
    {old new : ValueId} (hold : p.instr? old ≠ none) (hnew : p.instr? new ≠ none) (hne : old ≠ new) :
    ∃ q, p.replace old new = .ok q ∧ p.Exchanged q old new := by
  obtain ⟨hp, -⟩ := Program.afterRequests_tables h
  exact ⟨_, Program.replace_eq hne hold hnew, Program.exchanged_redirect hp hlisted hold hnew (Ne.symm hne)⟩

/-- A phi that reads itself, a sum that reads it twice, and a call that reads both. -/
def entangled : List Request :=
  [.addMethod "main" .main, .newBlock ⟨0⟩ (.join true), .link ⟨0⟩ ⟨1⟩, .link ⟨1⟩ ⟨1⟩,
    .emit ⟨0⟩ (.const 5) 1, .addPhi ⟨1⟩ "x" [(⟨0⟩, ⟨0⟩), (⟨1⟩, ⟨1⟩)] 2,
    .setBefore ⟨1⟩ ⟨[("x", ⟨1⟩), ("y", ⟨0⟩)]⟩, .emit ⟨1⟩ (.arith .add ⟨1⟩ ⟨1⟩) 3,
    .emit ⟨1⟩ (.call "f" [⟨1⟩, ⟨2⟩, ⟨1⟩]) 4].filterMap Request.ofEdit?

theorem entangled_replace_exchanged : ∃ p q, Program.afterRequests entangled = .ok p
    ∧ (∀ u b v, p.owner? u = some b → v ∈ p.operands u → u ∈ p.users v)
    ∧ p.users ⟨1⟩ = [⟨1⟩, ⟨2⟩, ⟨3⟩] ∧ p.replace ⟨1⟩ ⟨2⟩ = .ok q ∧ p.Exchanged q ⟨1⟩ ⟨2⟩
    ∧ q.operands ⟨3⟩ = [⟨2⟩, ⟨2⟩, ⟨2⟩] := by
  have hrun : ((Program.afterRequests entangled).toOption.map fun p =>
      (p.users ⟨1⟩, p.operands ⟨3⟩, (p.instr? ⟨2⟩).isSome,
        decide (∀ n < p.values.size, ∀ v ∈ p.operands ⟨n⟩, ⟨n⟩ ∈ p.users v)))
      = some ([⟨1⟩, ⟨2⟩, ⟨3⟩], [⟨1⟩, ⟨2⟩, ⟨1⟩], true, true) := by
    decide +kernel
  obtain ⟨p, h, hfacts⟩ := Option.map_eq_some_iff.1 hrun
  simp only [Prod.mk.injEq, decide_eq_true_eq] at hfacts
  obtain ⟨husers, hoperands, hsum, hall⟩ := hfacts
  replace h := toOption_eq_some_iff.1 h
  have hphi : p.instr? ⟨1⟩ ≠ none := fun hnone => by simp [Program.users, hnone] at husers
  have hlisted := Program.listed_of_all hall
  obtain ⟨q, hq, hexchanged⟩ := afterRequests_replace_exchanged h hlisted hphi
    (Option.isSome_iff_ne_none.1 hsum) (by decide)
  refine ⟨p, q, h, hlisted, husers, hq, hexchanged, ?_⟩
  rw [hexchanged.operands, husers, hoperands]
  rfl

end StructuredSsa
