import StructuredSsa.Proofs.Requests
import StructuredSsa.Proofs.Walk

/-!
# Depth-first order

The search for the blocks of a method keeps a stack. A block may stand on it more
than once and is marked only when it is taken from there, so that what lies deeper
may be out of date. `DepthFirst` is the search without a stack: it marks a block when
it enters it, visits the successors in order, and then goes on.

`afterRequests_reachable` says that the search with the stack comes to an end with
the list that the recursive search finds, which is no other than the reachable
blocks, each once.
-/

namespace StructuredSsa

/-! ## Search by recursion -/

/-- Visiting the blocks of a list in order, with some marked before, finds the blocks
of another. Marks stand in a list, the last one first. -/
inductive DepthFirst (succs : BlockId → List BlockId) :
    List BlockId → List BlockId → List BlockId → Prop where
  | done {marked : List BlockId} : DepthFirst succs [] marked []
  | again {b : BlockId} {bs marked found : List BlockId} :
      b ∈ marked → DepthFirst succs bs marked found → DepthFirst succs (b :: bs) marked found
  | enter {b : BlockId} {bs marked inner rest : List BlockId} :
      b ∉ marked → DepthFirst succs (succs b) (b :: marked) inner →
      DepthFirst succs bs (inner.reverse ++ b :: marked) rest →
      DepthFirst succs (b :: bs) marked (b :: (inner ++ rest))

namespace DepthFirst

variable {succs : BlockId → List BlockId} {xs ys marked found found' : List BlockId}

theorem unique (h : DepthFirst succs xs marked found) (h' : DepthFirst succs xs marked found') :
    found = found' := by
  induction h generalizing found' with
  | done =>
      cases h'
      rfl
  | again hb _ ih =>
      cases h' with
      | again _ h' => exact ih h'
      | enter hnot => exact absurd hb hnot
  | enter hb _ _ ih ih' =>
      cases h' with
      | again hmem => exact absurd hmem hb
      | enter _ hinner hrest =>
          obtain rfl := ih hinner
          rw [ih' hrest]

/-- What is found was not marked, and is found once. -/
theorem nodup (h : DepthFirst succs xs marked found) :
    found.Nodup ∧ ∀ b ∈ found, b ∉ marked := by
  induction h with
  | done => exact ⟨List.nodup_nil, fun b hb => nomatch hb⟩
  | again _ _ ih => exact ih
  | @enter b bs marked inner rest hb _ _ ih ih' =>
      obtain ⟨hinner, hnew⟩ := ih
      obtain ⟨hrest, hnew'⟩ := ih'
      have hapart : ∀ x ∈ rest, x ∉ inner ∧ x ≠ b ∧ x ∉ marked := by
        simpa [not_or] using hnew'
      have hbelow : ∀ x ∈ inner, x ≠ b ∧ x ∉ marked := by
        simpa [not_or] using hnew
      refine ⟨List.nodup_cons.2 ⟨fun hmem => ?_, ?_⟩, fun x hx => ?_⟩
      · rcases List.mem_append.1 hmem with hmem | hmem
        · exact (hbelow b hmem).1 rfl
        · exact (hapart b hmem).2.1 rfl
      · exact List.nodup_append.2 ⟨hinner, hrest, fun x hx y hy hxy => (hapart y hy).1 (hxy ▸ hx)⟩
      · rcases List.mem_cons.1 hx with rfl | hx
        · exact hb
        · exact (List.mem_append.1 hx).elim (fun hx => (hbelow x hx).2) fun hx => (hapart x hx).2.2

/-- Only the successors of what is found matter. -/
theorem congr {succs' : BlockId → List BlockId} (h : DepthFirst succs xs marked found)
    (hsame : ∀ b ∈ found, succs' b = succs b) : DepthFirst succs' xs marked found := by
  induction h with
  | done => exact .done
  | again hb _ ih => exact .again hb (ih hsame)
  | @enter b bs marked inner rest hb _ _ ih ih' =>
      refine .enter hb ?_ (ih' fun c hc => hsame c (by simp [hc]))
      rw [hsame b (List.mem_cons_self ..)]
      exact ih fun c hc => hsame c (by simp [hc])

/-- A list is visited part by part. -/
theorem of_append (h : DepthFirst succs (xs ++ ys) marked found) :
    ∃ first rest, DepthFirst succs xs marked first
      ∧ DepthFirst succs ys (first.reverse ++ marked) rest ∧ found = first ++ rest := by
  induction xs generalizing marked found with
  | nil => exact ⟨[], found, .done, h, rfl⟩
  | cons x xs ih =>
      cases h with
      | again hx h =>
          obtain ⟨first, rest, hfirst, hrest, rfl⟩ := ih h
          exact ⟨first, rest, .again hx hfirst, hrest, rfl⟩
      | @enter _ _ _ inner _ hx hinner h =>
          obtain ⟨first, rest, hfirst, hrest, rfl⟩ := ih h
          refine ⟨x :: (inner ++ first), rest, .enter hx hinner hfirst, ?_, by simp⟩
          simpa using hrest

/-- Leaving out blocks that are marked already makes no difference. -/
theorem of_filter {keep : BlockId → Bool} (hkeep : ∀ x ∈ xs, keep x = false → x ∈ marked)
    (h : DepthFirst succs (xs.filter keep ++ ys) marked found) :
    DepthFirst succs (xs ++ ys) marked found := by
  induction xs generalizing marked found with
  | nil => exact h
  | cons x xs ih =>
      cases hx : keep x with
      | false =>
          rw [List.filter_cons_of_neg (by simp [hx])] at h
          exact .again (hkeep x (List.mem_cons_self ..) hx)
            (ih (fun y hy => hkeep y (List.mem_cons_of_mem _ hy)) h)
      | true =>
          rw [List.filter_cons_of_pos hx, List.cons_append] at h
          cases h with
          | again hmem h => exact .again hmem (ih (fun y hy => hkeep y (List.mem_cons_of_mem _ hy)) h)
          | enter hnot hinner h =>
              refine .enter hnot hinner (ih (fun y hy hyk => ?_) h)
              have := hkeep y (List.mem_cons_of_mem _ hy) hyk
              simp [this]

end DepthFirst

/-! ## Search with a stack -/

/-- A search under way: the blocks to visit, the next one first, and the blocks that
were visited, the last one first. -/
structure Search where
  stack : List BlockId
  seen : List BlockId

/-- One turn of a search. A block that was visited in the meantime is passed over. -/
def Search.turn (p : Program) (s : Search) : Search :=
  match s.stack with
  | [] => s
  | b :: stack =>
      if b ∈ s.seen then ⟨stack, s.seen⟩
      else ⟨(p.succs b).filter (· ∉ b :: s.seen) ++ stack, b :: s.seen⟩

namespace Program

variable {p q : Program}

/-- Visiting a block takes it from the stack and uses up its edges. -/
theorem unseenEdges_visit {b : BlockId} {stack seen : List BlockId} {n : Nat} (hb : b ∉ seen)
    (h : (b :: stack).length + p.unseenEdges seen ≤ n + 1) :
    ((p.succs b).filter (· ∉ b :: seen) ++ stack).length + p.unseenEdges (b :: seen) ≤ n := by
  have hcount := unseenEdges_cons (p := p) hb
  have hlen := List.length_filter_le (· ∉ b :: seen) (p.succs b)
  rw [List.length_append]
  rw [List.length_cons] at h
  omega

/-- The bound on the number of turns is not what ends a search. -/
theorem turns_explore : ∀ (n : Nat) (stack seen : List BlockId),
    stack.length + p.unseenEdges seen ≤ n →
      ∃ k ≤ n, (Search.turn p)^[k] ⟨stack, seen⟩ = ⟨[], (p.explore n stack seen).reverse ++ seen⟩
  | n, [], seen, _ => ⟨0, Nat.zero_le n, by cases n <;> simp [explore]⟩
  | 0, b :: stack, seen, h => by simp at h
  | n + 1, b :: stack, seen, h => by
      by_cases hb : b ∈ seen
      · obtain ⟨k, hk, hend⟩ := turns_explore n stack seen (by rw [List.length_cons] at h; omega)
        refine ⟨k + 1, by omega, ?_⟩
        rw [Function.iterate_succ_apply, explore, if_pos hb, ← hend]
        simp only [Search.turn, hb, if_true]
      · obtain ⟨k, hk, hend⟩ := turns_explore n _ _ (unseenEdges_visit hb h)
        refine ⟨k + 1, by omega, ?_⟩
        rw [Function.iterate_succ_apply, explore, if_neg hb]
        simp only [Search.turn, hb, if_false]
        simpa using hend

/-- With turns enough, the stack is visited as the recursive search visits it. Its
deeper part waits for what the block on top leads to, and that is left out where it
was seen. -/
theorem depthFirst_explore : ∀ (n : Nat) (stack seen : List BlockId),
    stack.length + p.unseenEdges seen ≤ n →
      DepthFirst p.succs stack seen (p.explore n stack seen)
  | n, [], seen, _ => by cases n <;> simpa [explore] using DepthFirst.done
  | 0, b :: stack, seen, h => by simp at h
  | n + 1, b :: stack, seen, h => by
      rw [explore]
      split
      · next hb =>
          exact .again hb (depthFirst_explore n stack seen (by rw [List.length_cons] at h; omega))
      · next hb =>
          have hrest := depthFirst_explore n _ _ (unseenEdges_visit hb h)
          obtain ⟨inner, rest, hinner, hrest, hfound⟩ :=
            (hrest.of_filter fun c _ hc => by simpa [imp_iff_not_or] using hc).of_append
          dsimp only
          rw [hfound]
          exact .enter hb hinner hrest

theorem enough_turns (p : Program) (start : BlockId) :
    [start].length + p.unseenEdges [] ≤ p.edgeCount + 1 := by
  rw [unseenEdges_nil, List.length_singleton]
  omega

theorem depthFirst_reachableFrom (p : Program) (start : BlockId) :
    DepthFirst p.succs [start] [] (p.reachableFrom start) :=
  depthFirst_explore _ _ _ (p.enough_turns start)

/-! ## The entry of a method -/

/-- Every method starts at a block of the program. -/
def EntriesExist (p : Program) : Prop := ∀ m r, p.method? m = some r → p.block? r.entry ≠ none

theorem EntriesExist.of_entries (h : p.EntriesExist) (hblock : ∀ b, p.block? b ≠ none → q.block? b ≠ none)
    (hentry : ∀ {m r}, q.method? m = some r → ∃ s, p.method? m = some s ∧ r.entry = s.entry) :
    q.EntriesExist := by
  intro m r hr
  obtain ⟨s, hs, he⟩ := hentry hr
  exact he ▸ hblock _ (h m s hs)

theorem SameTrees.block_ne_none (h : SameTrees p q) (b : BlockId) (hb : p.block? b ≠ none) :
    q.block? b ≠ none := by
  have hpointer := h.pointer b
  intro hnone
  rw [pointer?, pointer?, hnone, Option.map_none, eq_comm, Option.map_eq_none_iff] at hpointer
  exact hb hpointer

section

variable (h : p.EntriesExist)
include h

theorem EntriesExist.of_same (k : SameTrees p q) : q.EntriesExist :=
  h.of_entries k.block_ne_none fun hr => by
    obtain ⟨s, hs, he, -⟩ := k.method hr
    exact ⟨s, hs, he⟩

theorem EntriesExist.modifyMethod (m : MethodId) {f : Method → Method}
    (hf : ∀ r, (f r).entry = r.entry) : (p.modifyMethod m f).EntriesExist :=
  h.of_entries (fun _ hb => hb) fun hr => by
    obtain ⟨s, hs, ⟨-, rfl⟩ | ⟨-, rfl⟩⟩ := exists_of_modifyMethod hr
    · exact ⟨s, hs, hf s⟩
    · exact ⟨_, hs, rfl⟩

theorem EntriesExist.modifyBlock (b : BlockId) (f : Block → Block) :
    (p.modifyBlock b f).EntriesExist :=
  h.of_entries (fun c hc => by
    rw [block?_modifyBlock]
    split
    · simpa using hc
    · exact hc) fun hr => ⟨_, hr, rfl⟩

theorem EntriesExist.pushBlock (k : Block) :
    ({ p with blocks := p.blocks.push k } : Program).EntriesExist :=
  h.of_entries (fun ⟨n⟩ hb => by
    simp only [block?, Array.getElem?_push] at hb ⊢
    split
    · simp
    · exact hb) fun hr => ⟨_, hr, rfl⟩

theorem EntriesExist.addMethod (name : String) (kind : MethodKind) :
    (p.addMethod name kind).2.EntriesExist := by
  intro m r hr
  obtain ⟨n⟩ := m
  simp only [Program.addMethod, method?, Array.getElem?_push] at hr
  split at hr
  · obtain rfl := Option.some.inj hr
    simp [Program.addMethod, block?]
  · exact h.pushBlock _ ⟨n⟩ r hr

theorem EntriesExist.dropBlock (b : BlockId) : (p.dropBlock b).EntriesExist := by
  unfold Program.dropBlock
  split
  · exact h
  · next k hk => exact (h.of_same (same_emptied p b k)).modifyMethod _ fun _ => rfl

end

theorem EntriesExist.dropBlocks : ∀ (bs : List BlockId) {p : Program}, p.EntriesExist →
    (bs.foldl Program.dropBlock p).EntriesExist
  | [], _, h => h
  | b :: bs, _, h => EntriesExist.dropBlocks bs (h.dropBlock b)

end Program

theorem Request.apply_entriesExist {p q : Program} (h : p.EntriesExist) {r : Request}
    (hq : r.apply p = .ok q) : q.EntriesExist := by
  cases Request.apply_reshaped hq with
  | same k => exact h.of_same k
  | addMethod name kind k => exact k ▸ h.addMethod name kind
  | newBlock k =>
      obtain ⟨s, -, k⟩ := Program.bind_eq_ok k
      obtain ⟨-, rfl⟩ := Prod.mk.inj (Except.ok.inj k)
      exact (h.pushBlock _).modifyMethod _ fun _ => rfl
  | @setDominator b d k =>
      obtain ⟨s, -, k⟩ := Program.bind_eq_ok k
      obtain rfl := Except.ok.inj k
      exact (h.modifyBlock b _).of_same (Program.same_forgetTree _ b)
  | dropBlocks bs k => exact k ▸ .dropBlocks bs h
  | asked k =>
      obtain ⟨s, -, k⟩ := Program.bind_eq_ok k
      obtain ⟨-, rfl⟩ := Prod.mk.inj (Except.ok.inj k)
      exact h.modifyMethod _ fun _ => rfl

theorem Program.afterRequests_entriesExist {requests : List Request} {p : Program}
    (h : Program.afterRequests requests = .ok p) : p.EntriesExist :=
  Program.foldlM_keeps (fun h hr => Request.apply_entriesExist h hr) requests
    (fun m r hr => by simp [method?, Program.empty] at hr) h

/-- Edges lead from the entry of a method to blocks of the program only. -/
theorem Program.block_of_reaches {p : Program} (h : p.Linked) {a b : BlockId}
    (ha : p.block? a ≠ none) (hb : Reaches p.succs a b) : p.block? b ≠ none := by
  obtain ⟨l, hl⟩ := hb
  cases hl with
  | here => exact ha
  | step _ hedge =>
      intro hnone
      have := (h.edge _ b).1 hedge
      simp [preds, hnone] at this

/-- After any requests, the search for the blocks of a method ends with an empty stack.
What it found, in order, is what the recursive search from the entry finds and no
other list; it is made of the blocks that edges lead to, each of them once, and all of
them are there to be looked up. -/
theorem afterRequests_reachable {requests : List Request} {p : Program}
    (h : Program.afterRequests requests = .ok p) {m : MethodId} {r : Method}
    (hm : p.method? m = some r) :
    ∃ order, p.reachable m = .ok order
      ∧ (∃ n, (Search.turn p)^[n] ⟨[r.entry], []⟩ = ⟨[], order.reverse⟩)
      ∧ (∀ found, DepthFirst p.succs [r.entry] [] found ↔ found = order)
      ∧ order.Nodup ∧ ∀ b, (b ∈ order ↔ Reaches p.succs r.entry b)
        ∧ (b ∈ order → p.block? b ≠ none) := by
  obtain ⟨hconsistent, -, -⟩ := Program.afterRequests_tables h
  obtain ⟨n, -, hend⟩ := Program.turns_explore _ _ _ (p.enough_turns r.entry)
  have hfound := p.depthFirst_reachableFrom r.entry
  refine ⟨p.reachableFrom r.entry, ?_, ⟨n, ?_⟩, fun found => ⟨fun k => k.unique hfound, ?_⟩,
    hfound.nodup.1, fun b => ⟨Program.mem_reachableFrom, fun hb => ?_⟩⟩
  · rw [Program.reachable, Program.getMethod_ok hm]
    rfl
  · rw [hend, List.append_nil]
    rfl
  · rintro rfl
    exact hfound
  · exact Program.block_of_reaches hconsistent.linked (Program.afterRequests_entriesExist h m r hm)
      (Program.mem_reachableFrom.1 hb)

/-- Edges that cross: the third block is found through the fourth, while it stands on the
stack since the first, and there is a way back. -/
def crossing : List Request :=
  [.addMethod "main" .main, .newBlock ⟨0⟩ .plain, .newBlock ⟨0⟩ .plain, .newBlock ⟨0⟩ .plain,
    .newBlock ⟨0⟩ .plain, .link ⟨0⟩ ⟨1⟩, .link ⟨0⟩ ⟨2⟩, .link ⟨0⟩ ⟨3⟩, .link ⟨1⟩ ⟨3⟩, .link ⟨3⟩ ⟨2⟩,
    .link ⟨2⟩ ⟨1⟩, .link ⟨4⟩ ⟨2⟩].filterMap Request.ofEdit?

theorem crossing_reachable : ∃ p r, Program.afterRequests crossing = .ok p
    ∧ p.method? ⟨0⟩ = some r ∧ p.reachableFrom r.entry = [⟨0⟩, ⟨1⟩, ⟨3⟩, ⟨2⟩]
    ∧ ∃ order, p.reachable ⟨0⟩ = .ok order
      ∧ (∃ n, (Search.turn p)^[n] ⟨[r.entry], []⟩ = ⟨[], order.reverse⟩)
      ∧ (∀ found, DepthFirst p.succs [r.entry] [] found ↔ found = order)
      ∧ order.Nodup ∧ ∀ b, (b ∈ order ↔ Reaches p.succs r.entry b)
        ∧ (b ∈ order → p.block? b ≠ none) := by
  have hrun : ((Program.afterRequests crossing).toOption.bind fun p =>
      (p.method? ⟨0⟩).map fun r => p.reachableFrom r.entry) = some [⟨0⟩, ⟨1⟩, ⟨3⟩, ⟨2⟩] := by
    decide +kernel
  cases h : Program.afterRequests crossing with
  | error e => rw [h] at hrun; cases hrun
  | ok p =>
      rw [h] at hrun
      obtain ⟨r, hr, hfound⟩ := Option.map_eq_some_iff.1 hrun
      exact ⟨p, r, rfl, hr, hfound, afterRequests_reachable h hr⟩

end StructuredSsa
