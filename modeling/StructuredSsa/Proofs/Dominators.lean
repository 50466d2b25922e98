import StructuredSsa.Proofs.SsaForm

/-!
# The pointers are the dominator tree

One block dominates another if it lies on every walk from the entry to it.
Pointers are set while the blocks are built, one at a time, and never computed
from the graph; `dominates` follows them. `buildTokens_dominators` says that in
every method of every program that is built, the answers are the right ones.
-/

namespace StructuredSsa

/-- The block `d` is the last one before `b` that lies on every walk to `b`. -/
structure ImmediateDominator (succs : BlockId → List BlockId) (start d b : BlockId) : Prop where
  apart : d ≠ b
  dominates : OnEveryWalk succs start d b
  last : ∀ a, a ≠ b → OnEveryWalk succs start a b → OnEveryWalk succs start a d

namespace View

variable {w : View} {m : MethodId} {a b d e x : BlockId}

section

variable (h : w.Closed m x) (hs : w.Sound) (he : w.entry m = some e)
include h hs he

/-- In a finished method, to be above a block is to lie on every walk to it. -/
theorem Closed.above_iff (hb : b ∈ w.owned m) : Above w.idom a b ↔ OnEveryWalk w.succs e a b := by
  refine ⟨hs.onEveryWalk he, fun hall => (h.tight e he b hb a).resolve_right ?_⟩
  rintro ⟨l, hl, hnot⟩
  exact hnot (hall l hl)

theorem Closed.rooted (hb : b ∈ w.owned m) : Above w.idom e b :=
  hs.scoping.rooted b m e (h.sealed b hb) (hs.wired.owned_home b m hb) he

theorem Closed.owned_above (hb : b ∈ w.owned m) (ha : Above w.idom a b) : a ∈ w.owned m := by
  obtain ⟨hlive, hhome⟩ := hs.live_above he (h.alive b hb) (hs.wired.owned_home b m hb) ha
  exact hs.wired.live_owned a m hlive hhome

theorem Closed.chain (hb : b ∈ w.owned m) : ∃ l, Chain w.idom b l :=
  Chain.exists_of_above (hs.scoping.entry_idom e (hs.wired.isEntry_entry e m he).1)
    (h.rooted hs he hb)

theorem Closed.hung : w.Hung m := by
  intro b hb
  obtain ⟨l, hl⟩ := h.chain hs he hb
  exact ⟨hs.wired.owned_home b m hb, l, hl, fun c hc => h.owned_above hs he hb (hl.mem_iff.1 hc)⟩

/-- The pointer of a block is its immediate dominator. -/
theorem Closed.immediate (hb : b ∈ w.owned m) (hd : w.idom b = some d) :
    ImmediateDominator w.succs e d b := by
  have hdm := h.owned_above hs he hb (.single hd)
  obtain ⟨l, hl⟩ := h.chain hs he hdm
  refine ⟨?_, hs.onEveryWalk he (.single hd), fun a hab hall => ?_⟩
  · rintro rfl
    exact hl.not_above_parent hd (.refl d)
  · cases (h.above_iff hs he hb).2 hall with
    | refl => exact absurd rfl hab
    | up hd' had =>
        obtain rfl := Option.some.inj (hd.symm.trans hd')
        exact hs.onEveryWalk he had

end

end View

/-- Whatever the tokens, the pointers of a program that is built describe the
dominator tree of each of its methods. -/
theorem buildTokens_dominators {tokens : List Token} {earlier : List Diagnostic} {built : Built}
    (h : buildTokens tokens earlier = .ok built) {id : MethodId} {m : Method}
    (hm : built.program.method? id = some m) :
    (∀ a ∈ m.blocks, ∀ b ∈ m.blocks, ∃ r, built.program.dominates a b = .ok r
        ∧ (r = true ↔ OnEveryWalk built.program.succs m.entry a b))
      ∧ ∀ b ∈ m.blocks, b ≠ m.entry → ∃ r d, built.program.block? b = some r
        ∧ r.dominator = some d ∧ d ∈ m.blocks
        ∧ ImmediateDominator built.program.succs m.entry d b := by
  obtain ⟨hs, hdone⟩ := buildTokens_sound h
  obtain ⟨hsort, hentry, -, howned, -⟩ := Program.view_of_method hm
  have hpresent : built.program.view.sort id ≠ none := by simp [hsort]
  obtain ⟨e, hclosed⟩ := hdone id hpresent
  rw [← howned]
  refine ⟨fun a _ b hb => ?_, fun b hb hne => ?_⟩
  · obtain ⟨r, hr, hiff⟩ := Program.dominates_ok (a := a)
      (Program.hungAt_of_hung (hclosed.hung hs hentry) hb) hpresent
    exact ⟨r, hr, hiff.trans (hclosed.above_iff hs hentry hb)⟩
  · cases hclosed.rooted hs hentry hb with
    | refl => exact absurd rfl hne
    | up hd _ =>
        obtain ⟨r, hr⟩ := Program.block_of_kind
          (Program.present_of_hung (hclosed.hung hs hentry) hb)
        refine ⟨r, _, hr, ?_, hclosed.owned_above hs hentry hb (.single hd),
          hclosed.immediate hs hentry hb hd⟩
        rw [← hd]
        exact (Program.view_of_block hr).2.2.2.2.2.2.2.2.symm

/-- A function that returns from inside a loop and behind it. -/
def searching : List Token :=
  [.keyword .main, .keyword .function, .ident "f", .punct .lparen, .ident "a", .punct .rparen,
    .punct .semicolon, .punct .lbrace, .keyword .while_, .ident "a", .punct .lt, .number 9,
    .keyword .do_, .keyword .if_, .ident "a", .punct .eq, .number 4, .keyword .then_,
    .keyword .ret, .number 0, .keyword .fi, .punct .semicolon,
    .keyword .let_, .ident "a", .punct .arrow, .ident "a", .punct .plus, .number 1,
    .keyword .od, .punct .semicolon, .keyword .ret, .ident "a", .punct .rbrace,
    .punct .semicolon, .punct .lbrace, .keyword .call, .ident "OutputNewLine", .punct .rbrace,
    .punct .period, .eof].map fun k => ⟨k, k.text, .start⟩

theorem searching_dominators : ∃ built m, buildTokens searching [] = .ok built
    ∧ built.program.method? ⟨1⟩ = some m ∧ m.blocks.length = 9
    ∧ (∀ a ∈ m.blocks, ∀ b ∈ m.blocks, ∃ r, built.program.dominates a b = .ok r
        ∧ (r = true ↔ OnEveryWalk built.program.succs m.entry a b))
    ∧ ∀ b ∈ m.blocks, b ≠ m.entry → ∃ r d, built.program.block? b = some r
      ∧ r.dominator = some d ∧ d ∈ m.blocks
      ∧ ImmediateDominator built.program.succs m.entry d b := by
  have hrun : ((buildTokens searching []).toOption.bind fun b =>
      (b.program.method? ⟨1⟩).map fun m => m.blocks.length) = some 9 := by
    decide +kernel
  cases h : buildTokens searching [] with
  | error e => rw [h] at hrun; cases hrun
  | ok built =>
      rw [h] at hrun
      obtain ⟨m, hm, hlen⟩ := Option.map_eq_some_iff.1 hrun
      exact ⟨built, m, rfl, hm, hlen, buildTokens_dominators h hm⟩

end StructuredSsa
