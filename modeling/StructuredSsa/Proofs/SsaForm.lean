import StructuredSsa.Proofs.Methods

/-!
# Static single assignment form

What a block reads is defined before it is read, on every walk that control
can take: `Program.SsaBlock` says it of one block in terms of walks from the
entry, with no mention of dominator pointers, and `buildTokens_ssaForm` of
every block of every program that is built.
-/

namespace StructuredSsa

namespace Program

/-- A value stands in the block `d`. -/
def DefinedIn (p : Program) (v : ValueId) (d : BlockId) : Prop :=
  ∃ i, p.instr? v = some i ∧ i.owner = some d

/-- What the block `b` of a method reads is defined on every walk to it. The
block can be reached and is sealed, so none of this holds for want of walks or
of bindings. -/
structure SsaBlock (p : Program) (m : Method) (b : BlockId) (r : Block) : Prop where
  reached : Reaches p.succs m.entry b
  sealed : r.after ≠ none
  present : ∀ u ∈ r.contents, p.DefinedIn u b
  /-- An instruction reads phis of its block, what stands before it in its
  block, and what another block defines on every walk to it. -/
  operand : ∀ (j : Nat) (u v : ValueId), r.body[j]? = some u → v ∈ p.operands u →
    ∃ d, p.DefinedIn v d
      ∧ (v ∈ r.phis ∨ (∃ i < j, r.body[i]? = some v) ∨ d ≠ b ∧ OnEveryWalk p.succs m.entry d b)
  /-- A phi reads along an edge what is defined on every walk to its source. -/
  phi_operand : ∀ u i x os q v, u ∈ r.phis → p.instr? u = some i → i.op = .phi x os → (q, v) ∈ os →
    ∃ d, p.DefinedIn v d ∧ OnEveryWalk p.succs m.entry d q
  /-- What is bound on leaving the block is defined there or before. -/
  binding : m.exit ≠ some b → ∀ st x v, r.after = some st → st.get? x = some v →
    ∃ d, p.DefinedIn v d ∧ (d = b ∨ OnEveryWalk p.succs m.entry d b)

/-- Every block of every method is in static single assignment form. -/
def SsaForm (p : Program) : Prop :=
  ∀ id m, p.method? id = some m → ∀ b ∈ m.blocks, ∃ r, p.block? b = some r ∧ p.SsaBlock m b r

theorem definedIn_iff {p : Program} {v : ValueId} {d : BlockId} :
    p.DefinedIn v d ↔ p.view.owner v = some d := by
  simp [DefinedIn, view, Option.bind_eq_some_iff]

end Program

namespace View

/-- In a list in order of creation, what was created before stands before. -/
theorem exists_index_lt {l : List ValueId} (hl : l.Pairwise (·.index < ·.index)) {u v : ValueId}
    {j : Nat} (hu : l[j]? = some u) (hv : v ∈ l) (hlt : v.index < u.index) :
    ∃ i < j, l[i]? = some v := by
  obtain ⟨i, hi, rfl⟩ := List.mem_iff_getElem.1 hv
  obtain ⟨hj, rfl⟩ := List.getElem?_eq_some_iff.1 hu
  refine ⟨i, ?_, List.getElem?_eq_getElem hi⟩
  by_contra hle
  rcases Nat.lt_or_eq_of_le (Nat.not_lt.1 hle) with hji | rfl
  · have := List.pairwise_iff_getElem.1 hl j i hj hi hji
    omega
  · omega

/-- What stands above a block lies on every walk to it. -/
theorem Sound.onEveryWalk {w : View} (h : w.Sound) {m : MethodId} {e a b : BlockId}
    (he : w.entry m = some e) (ha : Above w.idom a b) : OnEveryWalk w.succs e a b :=
  fun _ hl => h.mem_walk he hl ha

/-- Where all methods are finished, instructions stand in blocks that are sealed
and that control can get to. -/
theorem Sound.live_of_owner {w : View} (h : w.Sound) (ht : w.Tables)
    (hclosed : ∀ m, w.sort m ≠ none → ∃ e, w.Closed m e) {v : ValueId} {b : BlockId}
    (hv : w.owner v = some b) : w.kind b ≠ none ∧ w.Live b ∧ w.after b ≠ none := by
  have hpresent : w.kind b ≠ none := by
    intro hnone
    have hmem := (h.wired.listed v b).2 hv
    rw [contents, (ht.absent hnone).1, (ht.absent hnone).2.1] at hmem
    cases hmem
  obtain ⟨m, hm⟩ := Option.ne_none_iff_exists'.1 (mt ht.home_none.1 hpresent)
  obtain ⟨e, he⟩ := hclosed m (h.wired.home_sort b m hm)
  have howned := h.wired.owner_owned v b m hv hm
  exact ⟨hpresent, he.alive b howned, he.sealed b howned⟩

end View

open View in
/-- Every block of a finished method is in static single assignment form. -/
theorem Program.ssaBlock_of_closed {p : Program} (h : p.view.Sound) {id : MethodId} {m : Method}
    {e b : BlockId} {r : Block} (hm : p.method? id = some m) (hclosed : p.view.Closed id e)
    (hb : b ∈ m.blocks) (hr : p.block? b = some r) : p.SsaBlock m b r := by
  obtain ⟨-, hentry, hexit, howned, -⟩ := view_of_method hm
  obtain ⟨hkind, -, hphis, hbody, -, -, -, hafter, -⟩ := view_of_block hr
  rw [← howned] at hb
  have hhome := h.wired.owned_home b id hb
  have hlive := hclosed.alive b hb
  refine ⟨h.wired.live_reached b id _ hlive hhome hentry, ?_, ?_, ?_, ?_, ?_⟩
  · rw [← hafter]
    exact hclosed.sealed b hb
  · intro u hu
    rw [definedIn_iff, ← h.wired.listed, View.contents, hphis, hbody]
    exact hu
  · intro j u v hj hv
    have hu : u ∈ p.view.body b := hbody ▸ List.mem_of_getElem? hj
    have howner := (h.wired.listed u b).1 (List.mem_append_right _ hu)
    obtain ⟨op, hop, hno⟩ := h.wired.not_phi_of_body u b hu
    have hv : v ∈ op.operands := by
      obtain ⟨i, hi, rfl⟩ := exists_instr hop
      simpa [operands, hi] using hv
    obtain ⟨d, hd, habove⟩ := h.scoping.operand_above u b v op howner hlive hop hno hv
    refine ⟨d, definedIn_iff.2 hd, ?_⟩
    by_cases hdb : d = b
    · subst hdb
      rcases List.mem_append.1 ((h.wired.listed v d).2 hd) with hphi | hord
      · exact Or.inl (hphis ▸ hphi)
      · rw [hbody] at hord
        have hsorted := h.wired.body_sorted d
        rw [hbody] at hsorted
        exact Or.inr (Or.inl
          (exists_index_lt hsorted hj hord (h.wired.operand_lt u v op hop hno hv)))
    · exact Or.inr (Or.inr ⟨hdb, h.onEveryWalk hentry habove⟩)
  · intro u i x os q v hu hi hop hq
    rw [← hphis] at hu
    have hop' : p.view.op u = some (.phi x os) := by simp [view, hi, hop]
    obtain ⟨-, d, hd, habove⟩ := h.phi_operand_above hu hop' hq
    exact ⟨d, definedIn_iff.2 hd, h.onEveryWalk hentry habove⟩
  · intro hnot st x v hst hx
    have hne : p.view.kind b ≠ some .exit := fun hk =>
      hnot (hexit.symm.trans (h.sole b id hk hhome))
    obtain ⟨d, hd, habove⟩ := h.scoping.after_above b st x v hlive (hafter.trans hst) hne hx
    exact ⟨d, definedIn_iff.2 hd, Or.inr (h.onEveryWalk hentry habove)⟩

/-- Whatever the tokens, a program that is built is in static single
assignment form. -/
theorem buildTokens_ssaForm {tokens : List Token} {earlier : List Diagnostic} {built : Built}
    (h : buildTokens tokens earlier = .ok built) : built.program.SsaForm := by
  obtain ⟨hsound, hclosed⟩ := buildTokens_sound h
  intro id m hm b hb
  obtain ⟨hsort, -, -, howned, -⟩ := Program.view_of_method hm
  obtain ⟨e, he⟩ := hclosed id (by simp [hsort])
  have hhome := hsound.wired.owned_home b id (howned ▸ hb)
  have hkind := built.program.view_tables.present_of_home hhome
  obtain ⟨k, hk⟩ := Option.ne_none_iff_exists'.1 hkind
  obtain ⟨r, hr, -⟩ := Program.exists_block hk
  exact ⟨r, hr, Program.ssaBlock_of_closed hsound hm he hb hr⟩

/-- A loop with a conditional in it. -/
def climbing : List Token :=
  [.keyword .main, .keyword .var, .ident "x", .punct .semicolon, .punct .lbrace,
    .keyword .while_, .ident "x", .punct .lt, .number 9, .keyword .do_,
    .keyword .if_, .ident "x", .punct .lt, .number 5, .keyword .then_,
    .keyword .let_, .ident "x", .punct .arrow, .ident "x", .punct .plus, .number 1, .keyword .else_,
    .keyword .let_, .ident "x", .punct .arrow, .ident "x", .punct .plus, .number 2, .keyword .fi,
    .keyword .od, .punct .rbrace, .punct .period, .eof].map fun k => ⟨k, k.text, .start⟩

theorem climbing_ssaForm : ∃ built, buildTokens climbing [] = .ok built
    ∧ built.program.blocks.size = 9 ∧ built.program.SsaForm := by
  have hrun : ((buildTokens climbing []).toOption.map fun b => b.program.blocks.size) = some 9 := by
    decide +kernel
  cases h : buildTokens climbing [] with
  | error e => rw [h] at hrun; cases hrun
  | ok built =>
      rw [h] at hrun
      exact ⟨built, rfl, Option.some.inj hrun, buildTokens_ssaForm h⟩

end StructuredSsa
