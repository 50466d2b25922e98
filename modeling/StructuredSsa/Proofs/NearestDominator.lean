import Mathlib.Data.Fintype.Card
import Mathlib.Data.Set.Finite.List
import StructuredSsa.Proofs.Requests
import StructuredSsa.Proofs.Tight

/-!
# The nearest common dominator

`nearestDominator` climbs from the first of some blocks until it finds one that is
above all of them, and gives up after as many steps as the method has blocks. Where the
pointers of the blocks that the method lists lead to such blocks and never back, that is
far enough, and the search finds what `FirstCommon` describes. Blocks that were removed
from the method still have pointers, which do not matter.

The first of the blocks is treated unlike the others: only what is strictly above it is
looked at. If none of the blocks is above another, this makes no difference, and the
answer does not depend on their order (`Deepest`).
-/

namespace StructuredSsa

section Pointers

variable {idom : BlockId → Option BlockId} {a b c d : BlockId} {bs l : List BlockId}

/-- The block `a` is one that pointers lead to from `b`. -/
def StrictlyAbove (idom : BlockId → Option BlockId) (a b : BlockId) : Prop :=
  ∃ d, idom b = some d ∧ Above idom a d

theorem StrictlyAbove.above (h : StrictlyAbove idom a b) : Above idom a b := by
  obtain ⟨d, hd, had⟩ := h
  exact .up hd had

theorem StrictlyAbove.trans (h : StrictlyAbove idom a b) (k : StrictlyAbove idom b c) :
    StrictlyAbove idom a c := by
  obtain ⟨d, hd, hbd⟩ := k
  exact ⟨d, hd, h.above.trans hbd⟩

theorem Above.eq_or_strictly (h : Above idom a b) : a = b ∨ StrictlyAbove idom a b := by
  cases h with
  | refl => exact Or.inl rfl
  | up hd had => exact Or.inr ⟨_, hd, had⟩

theorem Chain.mem_tail_iff (h : Chain idom b (b :: l)) : a ∈ l ↔ StrictlyAbove idom a b := by
  cases h with
  | root hnone =>
      refine ⟨nofun, ?_⟩
      rintro ⟨d, hd, -⟩
      cases hnone.symm.trans hd
  | up hd hl =>
      rw [hl.mem_iff]
      refine ⟨fun ha => ⟨_, hd, ha⟩, ?_⟩
      rintro ⟨d, hd', ha⟩
      obtain rfl := Option.some.inj (hd.symm.trans hd')
      exact ha

theorem Chain.not_strictlyAbove (h : Chain idom b l) : ¬StrictlyAbove idom b b := by
  rintro ⟨d, hd, hbd⟩
  cases h with
  | root hnone => cases hnone.symm.trans hd
  | up hd' hl =>
      obtain rfl := Option.some.inj (hd.symm.trans hd')
      exact hl.not_above_parent hd hbd

/-- Pointers between finitely many blocks that never lead back lead to an end. -/
theorem chain_of_acyclic {owned : List BlockId} (hinside : ∀ b ∈ owned, ∀ d, idom b = some d → d ∈ owned)
    (hacyclic : ∀ b ∈ owned, ¬StrictlyAbove idom b b) (hb : b ∈ owned) :
    ∃ l, Chain idom b l ∧ ∀ c ∈ l, c ∈ owned := by
  have : Finite { b // b ∈ owned } := (List.finite_toSet owned).to_subtype
  let r (x y : { b // b ∈ owned }) : Prop := StrictlyAbove idom x y
  have : IsTrans { b // b ∈ owned } r := ⟨fun _ _ _ => StrictlyAbove.trans⟩
  have : Std.Irrefl r := ⟨fun x => hacyclic x x.2⟩
  have hwf : WellFounded r := Finite.wellFounded_of_trans_of_irrefl r
  have hchain (x : { b // b ∈ owned }) : ∃ l, Chain idom x l ∧ ∀ c ∈ l, c ∈ owned := by
    induction x using hwf.induction with
    | _ x ih =>
      cases hx : idom x with
      | none => exact ⟨[x.1], .root hx, by simpa using x.2⟩
      | some d =>
          obtain ⟨l, hl, hmem⟩ := ih ⟨d, hinside x x.2 d hx⟩ ⟨d, hx, .refl d⟩
          refine ⟨x :: l, .up hx hl, fun c hc => ?_⟩
          rcases List.mem_cons.1 hc with rfl | hc
          · exact x.2
          · exact hmem c hc
  exact hchain ⟨b, hb⟩

/-- Of the blocks strictly above the first of `bs`, `d` is the first one that is above each
of them. -/
def FirstCommon (idom : BlockId → Option BlockId) (bs : List BlockId) (d : BlockId) : Prop :=
  ∃ first rest nearer farther, bs = first :: rest
    ∧ Chain idom first (first :: (nearer ++ d :: farther))
    ∧ (∀ b ∈ bs, Above idom d b) ∧ ∀ e ∈ nearer, ¬∀ b ∈ bs, Above idom e b

/-- The lowest of the blocks that are strictly above each of `bs`. -/
structure Deepest (idom : BlockId → Option BlockId) (bs : List BlockId) (d : BlockId) : Prop where
  above : ∀ b ∈ bs, StrictlyAbove idom d b
  lowest : ∀ e, (∀ b ∈ bs, StrictlyAbove idom e b) → Above idom e d

open Classical in
theorem firstCommon?_eq_some_iff {first : BlockId} {rest : List BlockId}
    (h : Chain idom first (first :: l)) :
    firstCommon? idom (first :: rest) l = some d ↔ FirstCommon idom (first :: rest) d := by
  rw [firstCommon?, List.find?_eq_some_iff_append]
  constructor
  · rintro ⟨hd, nearer, farther, rfl, hnearer⟩
    exact ⟨first, rest, nearer, farther, rfl, h, by simpa using hd, fun e he =>
      by simpa only [Bool.not_eq_true', decide_eq_false_iff_not] using hnearer e he⟩
  · rintro ⟨first, rest, nearer, farther, heq, hl, hd, hnearer⟩
    obtain ⟨rfl, rfl⟩ := List.cons.inj heq
    obtain rfl := (List.cons.inj (h.unique hl)).2
    exact ⟨by simpa using hd, nearer, farther, rfl, fun e he =>
      by simpa only [Bool.not_eq_true', decide_eq_false_iff_not] using hnearer e he⟩

theorem Deepest.perm {bs' : List BlockId} (h : Deepest idom bs d) (hperm : bs'.Perm bs) :
    Deepest idom bs' d where
  above b hb := h.above b (hperm.mem_iff.1 hb)
  lowest e he := h.lowest e fun b hb => he b (hperm.mem_iff.2 hb)

/-- Where none of the blocks is above another one, the first place where they all come
together is the lowest block above them. -/
theorem firstCommon_iff_deepest {first : BlockId} {rest : List BlockId}
    (h : Chain idom first (first :: l))
    (hapart : ∀ b ∈ first :: rest, ∀ c ∈ first :: rest, Above idom b c → b = c) :
    FirstCommon idom (first :: rest) d ↔ Deepest idom (first :: rest) d := by
  have hfirst : first ∈ first :: rest := List.mem_cons_self ..
  have hdeepest {d : BlockId} (hd : FirstCommon idom (first :: rest) d) :
      Deepest idom (first :: rest) d := by
    have hfind := (firstCommon?_eq_some_iff h).2 hd
    have hmem : StrictlyAbove idom d first := h.mem_tail_iff.1 (List.mem_of_find?_eq_some hfind)
    obtain ⟨-, -, -, -, -, -, hall, -⟩ := hd
    refine ⟨fun b hb => ?_, fun e he => ?_⟩
    · -- `d` is not one of the blocks: it would be above the first of them.
      refine (hall b hb).eq_or_strictly.resolve_left ?_
      rintro rfl
      obtain rfl := hapart d hb first hfirst hmem.above
      exact h.not_strictlyAbove hmem
    · cases h with
      | root hnone =>
          obtain ⟨c, hc, -⟩ := he first hfirst
          cases hnone.symm.trans hc
      | up hc hl =>
          exact hl.above_firstCommon hfind ((Chain.up hc hl).mem_tail_iff.2 (he first hfirst))
            fun b hb => (he b hb).above
  refine ⟨hdeepest, fun hd => ?_⟩
  have hsome : (firstCommon? idom (first :: rest) l).isSome := by
    rw [firstCommon?, List.find?_isSome]
    exact ⟨d, h.mem_tail_iff.2 (hd.above first hfirst), by
      simpa using fun b hb => (hd.above b hb).above⟩
  obtain ⟨f, hf⟩ := Option.isSome_iff_exists.1 hsome
  have hfirstCommon := (firstCommon?_eq_some_iff h).1 hf
  have hlow := (hdeepest hfirstCommon).lowest d hd.above
  rcases (hd.lowest f (hdeepest hfirstCommon).above).eq_or_strictly with rfl | hstrict
  · exact hfirstCommon
  · obtain ⟨k, hk, -⟩ := h.suffix (List.mem_cons_of_mem _ (List.mem_of_find?_eq_some hf))
    rcases hlow.eq_or_strictly with rfl | hlow
    · exact absurd hstrict hk.not_strictlyAbove
    · exact absurd (hstrict.trans hlow) hk.not_strictlyAbove

end Pointers

namespace Program

variable {p : Program} {m : MethodId} {k : Method} {b d : BlockId} {bs : List BlockId}

/-- The pointers of the blocks that a method lists, and those of `bs`, lead to blocks
that it lists, and never back. -/
structure PointersEnd (p : Program) (k : Method) (bs : List BlockId) : Prop where
  present : ∀ b ∈ k.blocks, p.block? b ≠ none
  inside : ∀ b d, b ∈ k.blocks ∨ b ∈ bs → p.view.idom b = some d → d ∈ k.blocks
  acyclic : ∀ b ∈ k.blocks, ¬StrictlyAbove p.view.idom b b

theorem PointersEnd.perm {bs' : List BlockId} (h : p.PointersEnd k bs) (hperm : bs'.Perm bs) :
    p.PointersEnd k bs' :=
  { h with inside := fun b d hb => h.inside b d (hb.imp_right hperm.mem_iff.1) }

/-- From a block of `bs`, pointers lead through listed blocks to an end. -/
theorem PointersEnd.exists_chain (h : p.PointersEnd k bs) (hb : b ∈ bs) :
    ∃ l, Chain p.view.idom b (b :: l) ∧ ∀ c ∈ l, c ∈ k.blocks ∧ p.view.kind c ≠ none := by
  cases hd : p.view.idom b with
  | none => exact ⟨[], .root hd, nofun⟩
  | some d =>
      obtain ⟨l, hl, hmem⟩ := chain_of_acyclic (fun c hc e => h.inside c e (Or.inl hc)) h.acyclic
        (h.inside b d (Or.inr hb) hd)
      refine ⟨l, .up hd hl, fun c hc => ⟨hmem c hc, ?_⟩⟩
      obtain ⟨s, hs⟩ := Option.ne_none_iff_exists'.1 (h.present c (hmem c hc))
      simp [(view_of_block hs).1]

theorem PointersEnd.hungAt (h : p.PointersEnd k bs) (hk : p.method? m = some k) {r : Block}
    (hb : b ∈ bs) (hr : p.block? b = some r) (hm : r.method = m) : p.view.HungAt m b := by
  obtain ⟨l, hl, hmem⟩ := h.exists_chain hb
  have howned : p.view.owned m = k.blocks := (view_of_method hk).2.2.2.1
  exact ⟨hm ▸ (view_of_block hr).2.1, l, hl, howned ▸ hmem⟩

variable (h : p.PointersEnd k bs) (hk : p.method? m = some k)
  (hbs : ∀ b ∈ bs, ∃ r, p.block? b = some r ∧ r.method = m)

include h hk hbs

/-- The search ends with the first common block, or says that there is none. -/
theorem PointersEnd.nearestDominator : (∃ d, p.nearestDominator m bs = .ok d
      ∧ ∀ e, FirstCommon p.view.idom bs e ↔ e = d)
    ∨ (∃ reason, p.nearestDominator m bs = .error (.error (.noCommonDominator k.name reason)))
      ∧ ∀ e, ¬FirstCommon p.view.idom bs e := by
  cases bs with
  | nil =>
      refine Or.inr ⟨⟨"empty block set", ?_⟩, ?_⟩
      · simp [Program.nearestDominator, getMethod_ok hk, Stop.lift, bind, Except.bind, throw, throwThe,
          MonadExceptOf.throw]
      · rintro e ⟨first, rest, nearer, farther, heq, -⟩
        cases heq
  | cons first rest =>
      obtain ⟨l, hl, hmem⟩ := h.exists_chain (List.mem_cons_self ..)
      have hhung : ∀ b ∈ first :: rest, p.view.HungAt m b := by
        intro b hb
        obtain ⟨r, hr, hm⟩ := hbs b hb
        exact h.hungAt hk hb hr hm
      have hanswer := nearestDominator_eq hk hhung hl hmem
      cases hfind : firstCommon? p.view.idom (first :: rest) l with
      | some d =>
          rw [hfind] at hanswer
          refine Or.inl ⟨d, hanswer, fun e => ?_⟩
          rw [← firstCommon?_eq_some_iff hl, hfind, Option.some.injEq, eq_comm]
      | none =>
          rw [hfind] at hanswer
          refine Or.inr ⟨⟨_, hanswer⟩, fun e he => ?_⟩
          rw [← firstCommon?_eq_some_iff hl, hfind] at he
          cases he

theorem PointersEnd.nearestDominator_eq_ok : p.nearestDominator m bs = .ok d
    ↔ FirstCommon p.view.idom bs d := by
  rcases h.nearestDominator hk hbs with ⟨e, he, hfirst⟩ | ⟨⟨reason, he⟩, hnone⟩
  · rw [he, hfirst, Except.ok.injEq, eq_comm]
  · exact ⟨fun hd => (nomatch he.symm.trans hd), fun hd => absurd hd (hnone d)⟩

end Program

/-- The nearest dominator of blocks of a method. The search succeeds exactly with the
first common block above the first of them and fails exactly where there is none. If no
block of the list is above another, it finds the lowest block strictly above them all,
whatever their order. -/
theorem nearestDominator_nearest {p : Program} {m : MethodId} {k : Method}
    {bs : List BlockId} (hk : p.method? m = some k) (h : p.PointersEnd k bs)
    (hbs : ∀ b ∈ bs, ∃ r, p.block? b = some r ∧ r.method = m) :
    (∀ d, p.nearestDominator m bs = .ok d ↔ FirstCommon p.view.idom bs d)
      ∧ ((∃ reason, p.nearestDominator m bs
            = .error (.error (.noCommonDominator k.name reason)))
          ↔ bs = [] ∨ ∀ d, ¬FirstCommon p.view.idom bs d)
      ∧ ((∀ b ∈ bs, ∀ c ∈ bs, Above p.view.idom b c → b = c) →
        (∀ bs', bs'.Perm bs →
          (p.nearestDominator m bs').toOption = (p.nearestDominator m bs).toOption)
        ∧ ∀ d, p.nearestDominator m bs = .ok d → Deepest p.view.idom bs d) := by
  refine ⟨fun d => h.nearestDominator_eq_ok hk hbs, ?_, fun hapart => ?_⟩
  · rcases h.nearestDominator hk hbs with ⟨e, he, hfirst⟩ | ⟨hreason, hnone⟩
    · refine ⟨fun ⟨reason, hr⟩ => (nomatch he.symm.trans hr), fun hor => ?_⟩
      have hcommon := (hfirst e).2 rfl
      rcases hor with rfl | hnone
      · obtain ⟨first, rest, nearer, farther, heq, -⟩ := hcommon
        cases heq
      · exact absurd hcommon (hnone e)
    · exact ⟨fun _ => Or.inr hnone, fun _ => hreason⟩
  · have hdeepest {bs' : List BlockId} (hperm : bs'.Perm bs) (d : BlockId) :
        p.nearestDominator m bs' = .ok d ↔ bs' ≠ [] ∧ Deepest p.view.idom bs d := by
      have hbs' : ∀ b ∈ bs', ∃ r, p.block? b = some r ∧ r.method = m :=
        fun b hb => hbs b (hperm.mem_iff.1 hb)
      rw [(h.perm hperm).nearestDominator_eq_ok hk hbs']
      cases bs' with
      | nil => simp [FirstCommon]
      | cons first rest =>
          obtain ⟨l, hl, -⟩ := (h.perm hperm).exists_chain (List.mem_cons_self ..)
          rw [firstCommon_iff_deepest hl fun b hb c hc =>
            hapart b (hperm.mem_iff.1 hb) c (hperm.mem_iff.1 hc)]
          simpa using ⟨fun hd => hd.perm hperm.symm, fun hd => hd.perm hperm⟩
    refine ⟨fun bs' hperm => Option.ext fun d => ?_, fun d hd => ((hdeepest (.refl bs) d).1 hd).2⟩
    have hnil : bs' ≠ [] ↔ bs ≠ [] := by
      rw [← List.length_pos_iff, hperm.length_eq, List.length_pos_iff]
    rw [toOption_eq_some_iff, toOption_eq_some_iff, hdeepest hperm, hdeepest (.refl bs), hnil]

/-- An entry with one block under it and two under that one. Of what is below the last
nothing is reached, and it is removed. -/
def forked : List Request :=
  [.addMethod "main" .main, .newBlock ⟨0⟩ .plain, .newBlock ⟨0⟩ .plain, .newBlock ⟨0⟩ .plain,
    .newBlock ⟨0⟩ (.join false), .newBlock ⟨0⟩ .plain, .link ⟨0⟩ ⟨1⟩, .link ⟨1⟩ ⟨2⟩, .link ⟨1⟩ ⟨3⟩,
    .setDominator ⟨1⟩ ⟨0⟩, .setDominator ⟨2⟩ ⟨1⟩, .setDominator ⟨3⟩ ⟨1⟩, .setDominator ⟨4⟩ ⟨3⟩,
    .setDominator ⟨5⟩ ⟨4⟩, .prune ⟨0⟩].filterMap Request.ofEdit?

/-- Pointers to earlier blocks never lead back. -/
theorem index_le_of_above {idom : BlockId → Option BlockId}
    (h : ∀ b d, idom b = some d → d.index < b.index) {a b : BlockId} (hab : Above idom a b) :
    a.index ≤ b.index := by
  induction hab with
  | refl => exact Nat.le_refl _
  | up hd _ ih => exact Nat.le_trans ih (Nat.le_of_lt (h _ _ hd))

/-- The last block still points to one that is not listed any more. -/
theorem forked_nearestDominator : ∃ p k, Program.afterRequests forked = .ok p
    ∧ p.method? ⟨0⟩ = some k ∧ k.blocks = [⟨0⟩, ⟨1⟩, ⟨2⟩, ⟨3⟩] ∧ p.view.home ⟨5⟩ = some ⟨0⟩
    ∧ p.view.idom ⟨5⟩ = some ⟨4⟩ ∧ p.PointersEnd k [⟨2⟩, ⟨3⟩]
    ∧ (∀ b ∈ [(⟨2⟩ : BlockId), ⟨3⟩], ∃ r, p.block? b = some r ∧ r.method = ⟨0⟩)
    ∧ p.nearestDominator ⟨0⟩ [⟨2⟩, ⟨3⟩] = .ok ⟨1⟩ ∧ Deepest p.view.idom [⟨2⟩, ⟨3⟩] ⟨1⟩ := by
  have hrun : ((Program.afterRequests forked).toOption.bind fun p => (p.method? ⟨0⟩).map fun k =>
      (k.blocks, p.blocks.toList.map (·.method), p.blocks.toList.map (·.dominator),
        (p.nearestDominator ⟨0⟩ [⟨2⟩, ⟨3⟩]).toOption))
      = some ([⟨0⟩, ⟨1⟩, ⟨2⟩, ⟨3⟩], .replicate 6 ⟨0⟩,
        [none, some ⟨0⟩, some ⟨1⟩, some ⟨1⟩, some ⟨3⟩, some ⟨4⟩], some ⟨1⟩) := by
    decide +kernel
  obtain ⟨p, hp, hrun⟩ := Option.bind_eq_some_iff.1 hrun
  obtain ⟨k, hk, hfacts⟩ := Option.map_eq_some_iff.1 hrun
  obtain ⟨hblocks, hmethods, hdominators, hanswer⟩ := by simpa only [Prod.mk.injEq] using hfacts
  have hhome (b : BlockId) : p.view.home b = (p.blocks.toList.map (·.method))[b.index]? := by
    simp [Program.view, Program.block?]
  have hidom (b : BlockId) : p.view.idom b = (p.blocks.toList.map (·.dominator))[b.index]?.bind id := by
    simp [Program.view, Program.block?, Option.bind_map]
  rw [hmethods] at hhome
  rw [hdominators] at hidom
  have hbs : ∀ b ∈ [(⟨2⟩ : BlockId), ⟨3⟩], ∃ r, p.block? b = some r ∧ r.method = ⟨0⟩ := by
    intro b hb
    refine Option.map_eq_some_iff.1 ((hhome b).trans ?_)
    rcases List.mem_pair.1 hb with rfl | rfl <;> rfl
  have hearlier : ∀ b d, p.view.idom b = some d → d.index < b.index := by
    rintro ⟨n⟩ d hd
    rw [hidom] at hd
    rcases n with _ | _ | _ | _ | _ | _ | n <;> simp at hd <;> subst hd <;> simp
  have hlisted (b : BlockId) : b ∈ k.blocks ↔ b.index < 4 := by
    obtain ⟨n⟩ := b
    simp only [hblocks, List.mem_cons, BlockId.mk.injEq, List.not_mem_nil, or_false]
    omega
  have hpointers : p.PointersEnd k [⟨2⟩, ⟨3⟩] := by
    refine ⟨fun b hb hnone => ?_, fun b d hb hd => ?_, fun b _ hstrict => ?_⟩
    · have hsome := hhome b
      rw [List.getElem?_replicate_of_lt (by have := (hlisted b).1 hb; omega)] at hsome
      simp [Program.view, hnone] at hsome
    · have hb : b ∈ k.blocks := hb.elim id fun hb => by
        rcases List.mem_pair.1 hb with rfl | rfl <;> simp [hlisted]
      exact (hlisted d).2 ((hearlier b d hd).trans ((hlisted b).1 hb))
    · obtain ⟨d, hd, hbd⟩ := hstrict
      have hle := index_le_of_above hearlier hbd
      exact absurd (hearlier b d hd) (Nat.not_lt.2 hle)
  have hok := toOption_eq_some_iff.1 hanswer
  refine ⟨p, k, toOption_eq_some_iff.1 hp, hk, hblocks, hhome _, hidom _, hpointers, hbs, hok,
    ((nearestDominator_nearest hk hpointers hbs).2.2 fun b hb c hc hbc => ?_).2 ⟨1⟩ hok⟩
  rcases hbc.eq_or_strictly with rfl | ⟨d, hd, hbd⟩
  · rfl
  · have hle := index_le_of_above hearlier hbd
    obtain rfl : d = ⟨1⟩ := by
      rw [hidom] at hd
      rcases List.mem_pair.1 hc with rfl | rfl <;> exact (Option.some.inj hd).symm
    rcases List.mem_pair.1 hb with rfl | rfl <;> simp at hle

end StructuredSsa
