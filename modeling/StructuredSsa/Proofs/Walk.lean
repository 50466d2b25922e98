import Mathlib.Algebra.BigOperators.Group.Finset.Basic
import StructuredSsa.Proofs.View

/-!
# Walks, reachability and chains of dominators

A walk follows edges from a start block. `Above` follows dominator pointers
upward. The two meet in `mem_of_above`: where every pointer is above the
sources of the edges into its block, whatever is above a block lies on every
walk to it. That condition is local to one edge, so it survives the
construction of a graph edge by edge, which "on every walk" itself does not.

`mem_reachableFrom` ties the depth-first search of a program to walks.
-/

namespace StructuredSsa

variable {a b c : BlockId} {l : List BlockId}

/-! ## Walks -/

/-- A walk along edges from `start` to a block: the blocks it visits, the last
one first. -/
inductive Walk (succs : BlockId → List BlockId) (start : BlockId) :
    BlockId → List BlockId → Prop where
  | here : Walk succs start start [start]
  | step {b c : BlockId} {l : List BlockId} :
      Walk succs start b l → c ∈ succs b → Walk succs start c (c :: l)

/-- Some walk leads from `start` to `b`. -/
def Reaches (succs : BlockId → List BlockId) (start b : BlockId) : Prop :=
  ∃ l, Walk succs start b l

/-- The block `a` lies on every walk from `start` to `b`. -/
def OnEveryWalk (succs : BlockId → List BlockId) (start a b : BlockId) : Prop :=
  ∀ l, Walk succs start b l → a ∈ l

theorem Reaches.refl (succs : BlockId → List BlockId) (b : BlockId) : Reaches succs b b :=
  ⟨[b], .here⟩

theorem Reaches.step {succs : BlockId → List BlockId} (h : Reaches succs a b) (hc : c ∈ succs b) :
    Reaches succs a c := by
  obtain ⟨l, hl⟩ := h
  exact ⟨c :: l, .step hl hc⟩

theorem Reaches.trans {succs : BlockId → List BlockId} (hab : Reaches succs a b)
    (hbc : Reaches succs b c) : Reaches succs a c := by
  obtain ⟨l, hl⟩ := hbc
  induction hl with
  | here => exact hab
  | step _ hs ih => exact ih.step hs

/-- More edges, more walks. -/
theorem Walk.mono {succs succs' : BlockId → List BlockId} (h : ∀ b c, c ∈ succs b → c ∈ succs' b)
    (hl : Walk succs a b l) : Walk succs' a b l := by
  induction hl with
  | here => exact .here
  | step _ hc ih => exact .step ih (h _ _ hc)

theorem Reaches.mono {succs succs' : BlockId → List BlockId} (h : ∀ b c, c ∈ succs b → c ∈ succs' b)
    (hab : Reaches succs a b) : Reaches succs' a b := by
  obtain ⟨l, hl⟩ := hab
  exact ⟨l, hl.mono h⟩

/-- A walk ends at a block it visits. -/
theorem Walk.mem_last {succs : BlockId → List BlockId} (h : Walk succs a b l) : b ∈ l := by
  cases h <;> exact List.mem_cons_self ..

/-- Every block on a walk is reached. -/
theorem Walk.reaches_of_mem {succs : BlockId → List BlockId} (h : Walk succs a b l) (hc : c ∈ l) :
    Reaches succs a c := by
  induction h with
  | here =>
      rw [List.mem_singleton] at hc
      exact hc ▸ .refl _ _
  | step hw hs ih =>
      rcases List.mem_cons.1 hc with rfl | hc
      · exact ⟨_, .step hw hs⟩
      · exact ih hc

/-! ## Chains of dominators -/

/-- `Above idom a b`: the block `a` is `b`, or stands above it on its chain of
pointers. -/
inductive Above (idom : BlockId → Option BlockId) : BlockId → BlockId → Prop where
  | refl (b : BlockId) : Above idom b b
  | up {a b d : BlockId} : idom b = some d → Above idom a d → Above idom a b

theorem Above.single {idom : BlockId → Option BlockId} {d : BlockId} (h : idom b = some d) :
    Above idom d b :=
  .up h (.refl d)

theorem Above.trans {idom : BlockId → Option BlockId} (hab : Above idom a b) (hbc : Above idom b c) :
    Above idom a c := by
  induction hbc with
  | refl => exact hab
  | up h _ ih => exact .up h ih

/-- New pointers do not disturb chains. -/
theorem Above.mono {idom idom' : BlockId → Option BlockId}
    (h : ∀ b d, idom b = some d → idom' b = some d) (hab : Above idom a b) : Above idom' a b := by
  induction hab with
  | refl => exact .refl _
  | up hd _ ih => exact .up (h _ _ hd) ih

/-- Where every pointer is above the sources of all edges into its block, what
is above a block lies on every walk to it. The induction is on the walk: one
step back along an edge stays below everything that is above the target. -/
theorem mem_of_above {succs : BlockId → List BlockId} {idom : BlockId → Option BlockId}
    (hpointers : ∀ q b d, b ∈ succs q → idom b = some d → Above idom d q) {start : BlockId}
    (hstart : idom start = none) (hwalk : Walk succs start b l) (ha : Above idom a b) : a ∈ l := by
  induction hwalk generalizing a with
  | here =>
      cases ha with
      | refl => exact List.mem_singleton.2 rfl
      | up hd _ => rw [hstart] at hd; cases hd
  | step hw hs ih =>
      cases ha with
      | refl => exact List.mem_cons_self ..
      | up hd had => exact List.mem_cons_of_mem _ (ih (had.trans (hpointers _ _ _ hs hd)))

/-! ## Depth-first search -/

namespace Program

/-- A search only finds what can be reached from its stack. -/
theorem reaches_of_mem_explore {p : Program} {x : BlockId} :
    ∀ (n : Nat) (stack seen : List BlockId), x ∈ p.explore n stack seen →
      ∃ b ∈ stack, Reaches p.succs b x
  | 0, _, _, h => by simp [explore] at h
  | _ + 1, [], _, h => by simp [explore] at h
  | n + 1, b :: stack, seen, h => by
      rw [explore] at h
      split at h
      · obtain ⟨c, hc, hx⟩ := reaches_of_mem_explore n stack seen h
        exact ⟨c, List.mem_cons_of_mem _ hc, hx⟩
      · rcases List.mem_cons.1 h with rfl | h
        · exact ⟨x, List.mem_cons_self .., .refl _ _⟩
        · obtain ⟨c, hc, hx⟩ := reaches_of_mem_explore n _ _ h
          rcases List.mem_append.1 hc with hc | hc
          · have hbc : Reaches p.succs b c := (Reaches.refl _ b).step (List.mem_filter.1 hc).1
            exact ⟨b, List.mem_cons_self .., hbc.trans hx⟩
          · exact ⟨c, List.mem_cons_of_mem _ hc, hx⟩

/-- The number of edges out of blocks that a search has not visited yet. -/
def unseenEdges (p : Program) (seen : List BlockId) : Nat :=
  ∑ i ∈ (Finset.range p.blocks.size).filter (fun i => (⟨i⟩ : BlockId) ∉ seen), (p.succs ⟨i⟩).length

theorem unseenEdges_nil (p : Program) : p.unseenEdges [] = p.edgeCount := by
  have hsum (l : List Block) : (l.map fun b => b.succs.length).sum
      = ∑ i ∈ Finset.range l.length, ((l[i]?.map fun b => b.succs.length).getD 0) := by
    induction l using List.reverseRecOn with
    | nil => rfl
    | append_singleton l b ih =>
        rw [List.map_append, List.sum_append, List.length_append, List.length_singleton,
          Finset.sum_range_succ, ih]
        congr 1
        · refine Finset.sum_congr rfl fun i hi => ?_
          rw [List.getElem?_append_left (Finset.mem_range.1 hi)]
        · simp
  rw [edgeCount, List.length_flatMap, hsum, unseenEdges]
  simp only [List.not_mem_nil, not_false_eq_true, Finset.filter_true, Array.length_toList]
  refine Finset.sum_congr rfl fun i _ => ?_
  simp only [succs, block?, Array.getElem?_toList]
  cases p.blocks[i]? <;> rfl

/-- Visiting a block uses up its edges. -/
theorem unseenEdges_cons {p : Program} {b : BlockId} {seen : List BlockId} (hb : b ∉ seen) :
    p.unseenEdges (b :: seen) + (p.succs b).length = p.unseenEdges seen := by
  obtain ⟨i⟩ := b
  by_cases hi : i < p.blocks.size
  · have herase : (Finset.range p.blocks.size).filter (fun j => (⟨j⟩ : BlockId) ∉ ⟨i⟩ :: seen)
        = ((Finset.range p.blocks.size).filter (fun j => (⟨j⟩ : BlockId) ∉ seen)).erase i := by
      ext j
      simp only [Finset.mem_filter, Finset.mem_range, List.mem_cons, BlockId.mk.injEq, not_or,
        Finset.mem_erase]
      tauto
    rw [unseenEdges, herase, unseenEdges]
    exact Finset.sum_erase_add _ _ (Finset.mem_filter.2 ⟨Finset.mem_range.2 hi, hb⟩)
  · have hnone : p.succs ⟨i⟩ = [] := by
      have : p.block? ⟨i⟩ = none := by simpa [block?] using hi
      simp [succs, this]
    rw [hnone, List.length_nil, Nat.add_zero, unseenEdges, unseenEdges]
    refine Finset.sum_congr ?_ fun _ _ => rfl
    ext j
    simp only [Finset.mem_filter, Finset.mem_range, List.mem_cons, BlockId.mk.injEq, not_or]
    constructor
    · rintro ⟨hj, -, hs⟩
      exact ⟨hj, hs⟩
    · rintro ⟨hj, hs⟩
      exact ⟨hj, by rintro rfl; exact hi hj, hs⟩

/-- A search with enough visits left ends with everything on its stack found,
and with every edge out of a found block leading to a found or seen one. -/
theorem explore_closed {p : Program} :
    ∀ (n : Nat) (stack seen : List BlockId), stack.length + p.unseenEdges seen ≤ n →
      (∀ b ∈ stack, b ∈ seen ∨ b ∈ p.explore n stack seen)
        ∧ ∀ b ∈ p.explore n stack seen, ∀ c ∈ p.succs b, c ∈ seen ∨ c ∈ p.explore n stack seen
  | _, [], _, _ => by
      refine ⟨by simp, ?_⟩
      rename_i n seen _
      cases n <;> simp [explore]
  | 0, b :: stack, seen, h => by simp at h
  | n + 1, b :: stack, seen, h => by
      rw [explore]
      split
      · next hb =>
          rw [List.length_cons] at h
          obtain ⟨h1, h2⟩ := explore_closed (p := p) n stack seen (by omega)
          refine ⟨fun c hc => ?_, h2⟩
          rcases List.mem_cons.1 hc with rfl | hc
          · exact Or.inl hb
          · exact h1 c hc
      · next hb =>
          have hcount := unseenEdges_cons (p := p) hb
          have hlen := List.length_filter_le (· ∉ b :: seen) (p.succs b)
          obtain ⟨h1, h2⟩ := explore_closed (p := p) n
            ((p.succs b).filter (· ∉ b :: seen) ++ stack) (b :: seen)
            (by rw [List.length_append]; rw [List.length_cons] at h; omega)
          have hseen {c : BlockId} {out : List BlockId} (hc : c ∈ b :: seen ∨ c ∈ out) :
              c ∈ seen ∨ c ∈ b :: out := by
            rcases hc with hc | hc
            · rcases List.mem_cons.1 hc with rfl | hc
              · exact Or.inr (List.mem_cons_self ..)
              · exact Or.inl hc
            · exact Or.inr (List.mem_cons_of_mem _ hc)
          refine ⟨fun c hc => ?_, fun x hx c hc => ?_⟩
          · rcases List.mem_cons.1 hc with rfl | hc
            · exact Or.inr (List.mem_cons_self ..)
            · exact hseen (h1 c (List.mem_append_right _ hc))
          · rcases List.mem_cons.1 hx with rfl | hx
            · by_cases hcs : c ∈ x :: seen
              · exact hseen (Or.inl hcs)
              · exact hseen (h1 c (List.mem_append_left _
                  (List.mem_filter.2 ⟨hc, by simpa using hcs⟩)))
            · exact hseen (h2 x hx c hc)

/-- The search from a block finds exactly what walks from it lead to. -/
theorem mem_reachableFrom {p : Program} {start b : BlockId} :
    b ∈ p.reachableFrom start ↔ Reaches p.succs start b := by
  constructor
  · intro h
    obtain ⟨c, hc, hcb⟩ := reaches_of_mem_explore _ _ _ h
    rw [List.mem_singleton] at hc
    exact hc ▸ hcb
  · rintro ⟨l, hl⟩
    obtain ⟨h1, h2⟩ := explore_closed (p := p) (p.edgeCount + 1) [start] []
      (by rw [unseenEdges_nil, List.length_singleton]; omega)
    induction hl with
    | here => exact (h1 start (List.mem_singleton.2 rfl)).resolve_left (List.not_mem_nil)
    | step _ hs ih => exact (h2 _ ih _ hs).resolve_left (List.not_mem_nil)

end Program

end StructuredSsa
