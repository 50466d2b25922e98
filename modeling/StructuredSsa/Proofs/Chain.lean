import Mathlib.Data.List.Nodup
import StructuredSsa.Graph.Dominance
import StructuredSsa.Proofs.Scoped

/-!
# Following dominator pointers

`Chain idom b l`: the pointers lead from `b` through the blocks of `l` to a
block without one. A chain visits no block twice, so that a bound on the number
of blocks is a bound on its length, and following it that far answers whether
one block stands above another.
-/

namespace StructuredSsa

/-- The blocks from `b` upward, `b` first. -/
inductive Chain (idom : BlockId → Option BlockId) : BlockId → List BlockId → Prop where
  | root {b : BlockId} : idom b = none → Chain idom b [b]
  | up {b d : BlockId} {l : List BlockId} : idom b = some d → Chain idom d l → Chain idom b (b :: l)

namespace Chain

variable {idom : BlockId → Option BlockId} {a b e : BlockId} {l l' : List BlockId}

theorem unique (h : Chain idom b l) (h' : Chain idom b l') : l = l' := by
  induction h generalizing l' with
  | root hb =>
      cases h' with
      | root => rfl
      | up hd _ => rw [hb] at hd; cases hd
  | up hd _ ih =>
      cases h' with
      | root hb => rw [hb] at hd; cases hd
      | up hd' h' =>
          obtain rfl := Option.some.inj (hd.symm.trans hd')
          rw [ih h']

/-- Whatever stands on a chain has the rest of it for its own. -/
theorem suffix (h : Chain idom b l) (ha : a ∈ l) : ∃ l', Chain idom a l' ∧ l' <:+ l := by
  induction h with
  | root hb =>
      obtain rfl := List.mem_singleton.1 ha
      exact ⟨[a], .root hb, List.suffix_rfl⟩
  | up hd hl ih =>
      rcases List.mem_cons.1 ha with rfl | ha
      · exact ⟨_, .up hd hl, List.suffix_rfl⟩
      · obtain ⟨l', hl', hs⟩ := ih ha
        exact ⟨l', hl', hs.trans (List.suffix_cons ..)⟩

/-- A block that came again would start the same chain, which is longer than
what is left of it. -/
theorem nodup (h : Chain idom b l) : l.Nodup := by
  induction h with
  | root => exact List.nodup_singleton _
  | up hd hl ih =>
      refine List.nodup_cons.2 ⟨fun hmem => ?_, ih⟩
      obtain ⟨l', hl', hs⟩ := hl.suffix hmem
      obtain rfl := hl'.unique (.up hd hl)
      have := hs.length_le
      rw [List.length_cons] at this
      omega

theorem mem_iff (h : Chain idom b l) : a ∈ l ↔ Above idom a b := by
  constructor
  · intro ha
    induction h with
    | root =>
        obtain rfl := List.mem_singleton.1 ha
        exact .refl a
    | up hd _ ih =>
        rcases List.mem_cons.1 ha with rfl | ha
        · exact .refl a
        · exact .up hd (ih ha)
  · intro ha
    induction ha generalizing l with
    | refl => cases h <;> exact List.mem_cons_self ..
    | up hd _ ih =>
        cases h with
        | root hb => rw [hb] at hd; cases hd
        | up hd' h' =>
            obtain rfl := Option.some.inj (hd.symm.trans hd')
            exact List.mem_cons_of_mem _ (ih h')

/-- Below a block without a pointer there is a chain. -/
theorem exists_of_above (he : idom e = none) (h : Above idom e b) : ∃ l, Chain idom b l := by
  induction h with
  | refl => exact ⟨_, .root he⟩
  | up hd _ ih =>
      obtain ⟨l, hl⟩ := ih
      exact ⟨_, .up hd hl⟩

/-- A chain is determined by the pointers on it. -/
theorem congr {idom' : BlockId → Option BlockId} (h : Chain idom b l)
    (hsame : ∀ c ∈ l, idom' c = idom c) : Chain idom' b l := by
  induction h with
  | root hb => exact .root ((hsame _ (List.mem_singleton.2 rfl)).trans hb)
  | up hd _ ih =>
      exact .up ((hsame _ (List.mem_cons_self ..)).trans hd) (ih fun c hc =>
        hsame c (List.mem_cons_of_mem _ hc))

end Chain

/-- Two blocks above a third are above one another. -/
theorem Above.total {idom : BlockId → Option BlockId} {a c b : BlockId} (ha : Above idom a b)
    (hc : Above idom c b) : Above idom a c ∨ Above idom c a := by
  induction ha with
  | refl => exact Or.inr hc
  | up hd had ih =>
      cases hc with
      | refl => exact Or.inl (.up hd had)
      | up hd' hcd =>
          obtain rfl := Option.some.inj (hd.symm.trans hd')
          exact ih hcd

namespace Program

variable {p : Program} {a b c : BlockId} {l bs : List BlockId}

/-- The pointer that a block holds. -/
theorem getBlock_idom (hb : p.view.kind b ≠ none) :
    ∃ r, p.getBlock b = .ok r ∧ r.dominator = p.view.idom b ∧ p.view.home b = some r.method := by
  obtain ⟨r, hr⟩ := block_of_kind hb
  obtain ⟨-, hm, -, -, -, -, -, -, hd⟩ := view_of_block hr
  exact ⟨r, getBlock_ok hr, hd.symm, hm⟩

/-- Following a chain to its end. -/
theorem chainHas_ok (h : Chain p.view.idom b l) (hl : ∀ c ∈ l, p.view.kind c ≠ none) :
    ∀ {n : Nat}, l.length ≤ n → p.chainHas a n (some b) = .ok (decide (a ∈ l)) := by
  induction h with
  | @root b hb =>
      rintro (_ | n) hn
      · cases hn
      obtain ⟨r, hr, hd, -⟩ := getBlock_idom (hl b (List.mem_singleton.2 rfl))
      have hend : p.chainHas a n none = .ok false := by cases n <;> rfl
      rw [chainHas]
      split
      · next hba => simp [hba]
      · next hba => simp [hr, bind, Except.bind, hd, hb, hend, Ne.symm hba]
  | @up b d l hd hchain ih =>
      rintro (_ | n) hn
      · cases hn
      obtain ⟨r, hr, hrd, -⟩ := getBlock_idom (hl b (List.mem_cons_self ..))
      have hrest := ih (fun c hc => hl c (List.mem_cons_of_mem _ hc)) (Nat.le_of_succ_le_succ hn)
      rw [chainHas]
      split
      · next hba => simp [hba]
      · next hba => simp [hr, bind, Except.bind, hrd, hd, hrest, Ne.symm hba]

end Program

/-- The pointers of a block of the method lead through blocks that it lists to an end. -/
def View.HungAt (w : View) (m : MethodId) (b : BlockId) : Prop :=
  w.home b = some m
    ∧ ∃ l, Chain w.idom b (b :: l) ∧ ∀ c ∈ l, c ∈ w.owned m ∧ w.kind c ≠ none

/-- The pointers of a method's blocks lead to an end inside the method. -/
def View.Hung (w : View) (m : MethodId) : Prop :=
  ∀ b ∈ w.owned m, w.home b = some m ∧ ∃ l, Chain w.idom b l ∧ ∀ c ∈ l, c ∈ w.owned m

namespace Program

variable {p : Program} {a b c : BlockId} {bs l : List BlockId} {m : MethodId}

theorem present_of_hung (h : p.view.Hung m) (hb : b ∈ p.view.owned m) : p.view.kind b ≠ none :=
  p.view_tables.present_of_home (h b hb).1

theorem hungAt_of_hung (h : p.view.Hung m) (hb : b ∈ p.view.owned m) : p.view.HungAt m b := by
  obtain ⟨hhome, l, hl, hmem⟩ := h b hb
  refine ⟨hhome, l.tail, ?_, fun c hc => ?_⟩
  · cases hl with
    | root hb => exact .root hb
    | up hd hl => exact .up hd hl
  · have hc := hmem c (List.mem_of_mem_tail hc)
    exact ⟨hc, present_of_hung h hc⟩

/-- There are no more blocks above a block than the method lists. -/
theorem length_above (hl : Chain p.view.idom b (b :: l)) (hmem : ∀ c ∈ l, c ∈ p.view.owned m) :
    l.length ≤ (p.view.owned m).length :=
  (hl.nodup.of_cons.subperm hmem).length_le

theorem dominates_ok (h : p.view.HungAt m b) (hm : p.view.sort m ≠ none) :
    ∃ r, p.dominates a b = .ok r ∧ (r = true ↔ Above p.view.idom a b) := by
  obtain ⟨hhome, l, hl, hmem⟩ := h
  obtain ⟨r, hr, -, hhome'⟩ := getBlock_idom (p.view_tables.present_of_home hhome)
  obtain rfl : m = r.method := Option.some.inj (hhome.symm.trans hhome')
  obtain ⟨k, hk⟩ := method_of_sort hm
  have howned : p.view.owned r.method = k.blocks := (view_of_method hk).2.2.2.1
  refine ⟨decide (a ∈ b :: l), ?_, by rw [decide_eq_true_iff, hl.mem_iff]⟩
  simp only [dominates, hr, getMethod_ok hk, bind, Except.bind]
  refine chainHas_ok hl (fun c hc => ?_) ?_
  · rcases List.mem_cons.1 hc with rfl | hc
    · exact p.view_tables.present_of_home hhome
    · exact (hmem c hc).2
  · rw [← howned]
    exact Nat.succ_le_succ (length_above hl fun c hc => (hmem c hc).1)

/-- A question asked of several blocks, where each one answers. -/
theorem allM_ok {f : BlockId → Except Fault Bool} {Q : BlockId → Prop} :
    ∀ {bs : List BlockId}, (∀ b ∈ bs, ∃ r, f b = .ok r ∧ (r = true ↔ Q b)) →
      ∃ r, bs.allM f = .ok r ∧ (r = true ↔ ∀ b ∈ bs, Q b)
  | [], _ => ⟨true, rfl, by simp⟩
  | b :: bs, h => by
      obtain ⟨r, hr, hQ⟩ := h b (List.mem_cons_self ..)
      obtain ⟨t, ht, hrest⟩ := allM_ok fun c hc => h c (List.mem_cons_of_mem _ hc)
      cases r with
      | false => exact ⟨false, by simp [List.allM, hr, bind, Except.bind, pure, Except.pure],
          by simp [← hQ]⟩
      | true => exact ⟨t, by simp [List.allM, hr, ht, bind, Except.bind], by simp [← hQ, hrest]⟩

end Program

section FirstCommon

variable {idom : BlockId → Option BlockId} {c d e : BlockId} {bs l : List BlockId}

open Classical in
/-- The first block of a list that is above all of `bs`. -/
noncomputable def firstCommon? (idom : BlockId → Option BlockId) (bs l : List BlockId) :
    Option BlockId :=
  l.find? fun a => ∀ b ∈ bs, Above idom a b

open Classical in
theorem firstCommon?_cons_of_above (h : ∀ b ∈ bs, Above idom c b) :
    firstCommon? idom bs (c :: l) = some c :=
  List.find?_cons_of_pos (decide_eq_true h)

open Classical in
theorem firstCommon?_cons_of_not_above (h : ¬∀ b ∈ bs, Above idom c b) :
    firstCommon? idom bs (c :: l) = firstCommon? idom bs l :=
  List.find?_cons_of_neg (by rw [decide_eq_true_iff]; exact h)

/-- Whatever else on a chain is above all of `bs` stands above the first that is. -/
theorem Chain.above_firstCommon (h : Chain idom c l) (hd : firstCommon? idom bs l = some d)
    (he : e ∈ l) (hall : ∀ b ∈ bs, Above idom e b) : Above idom e d := by
  induction h with
  | @root c hc =>
      obtain rfl := List.mem_singleton.1 he
      obtain rfl : d = e := List.mem_singleton.1 (List.mem_of_find?_eq_some hd)
      exact .refl d
  | @up c f l hf hl ih =>
      by_cases hc : ∀ b ∈ bs, Above idom c b
      · obtain rfl := Option.some.inj ((firstCommon?_cons_of_above hc).symm.trans hd)
        exact (Chain.up hf hl).mem_iff.1 he
      · rw [firstCommon?_cons_of_not_above hc] at hd
        rcases List.mem_cons.1 he with rfl | he
        · exact absurd hall hc
        · exact ih hd he

end FirstCommon

namespace Program

variable {p : Program} {a b c : BlockId} {bs l : List BlockId} {m : MethodId}

/-- Climbing a chain finds the first block on it that is above all of `bs`. -/
theorem climb_eq (hbs : ∀ b ∈ bs, p.view.HungAt m b) (hm : p.view.sort m ≠ none)
    (hl : Chain p.view.idom c l) (hmem : ∀ b ∈ l, p.view.kind b ≠ none) :
    ∀ {n : Nat}, l.length ≤ n →
      p.climb bs n (some c) = .ok (firstCommon? p.view.idom bs l) := by
  -- One step of the search, with the answers that the pointers give.
  have hstep {c : BlockId} {l : List BlockId} {n : Nat} (hc : p.view.kind c ≠ none)
      (hrest : p.climb bs n (p.view.idom c) = .ok (firstCommon? p.view.idom bs l)) :
      p.climb bs (n + 1) (some c) = .ok (firstCommon? p.view.idom bs (c :: l)) := by
    obtain ⟨t, ht, hiff⟩ := allM_ok fun b hb => dominates_ok (a := c) (hbs b hb) hm
    obtain ⟨r, hr, hrd, -⟩ := getBlock_idom hc
    cases t with
    | true =>
        rw [firstCommon?_cons_of_above (hiff.1 rfl)]
        simp [climb, ht, bind, Except.bind, pure, Except.pure]
    | false =>
        rw [firstCommon?_cons_of_not_above (mt hiff.2 (by simp)), ← hrest]
        simp [climb, ht, bind, Except.bind, hr, hrd]
  induction hl with
  | @root c hc =>
      rintro (_ | n) hn
      · cases hn
      refine hstep (hmem c (List.mem_singleton.2 rfl)) ?_
      rw [hc]
      cases n <;> rfl
  | @up c d l hd hchain ih =>
      rintro (_ | n) hn
      · cases hn
      refine hstep (hmem c (List.mem_cons_self ..)) ?_
      rw [hd]
      exact ih (fun b hb => hmem b (List.mem_cons_of_mem _ hb)) (Nat.le_of_succ_le_succ hn)

/-- The answer for blocks of a method is read off the chain above the first of them. -/
theorem nearestDominator_eq {k : Method} (hk : p.method? m = some k) {first : BlockId}
    {rest : List BlockId} (hbs : ∀ b ∈ first :: rest, p.view.HungAt m b)
    (hl : Chain p.view.idom first (first :: l)) (hmem : ∀ c ∈ l, c ∈ k.blocks ∧ p.view.kind c ≠ none) :
    p.nearestDominator m (first :: rest) =
      match firstCommon? p.view.idom (first :: rest) l with
      | some d => .ok d
      | none => .error (.error (.noCommonDominator k.name
          ("dominator chain of " ++ first.text ++ " exhausted"))) := by
  have hm : p.view.sort m ≠ none := by simp [(view_of_method hk).1]
  have howned : p.view.owned m = k.blocks := (view_of_method hk).2.2.2.1
  obtain ⟨r, hr, hrd, -⟩ :=
    getBlock_idom (p.view_tables.present_of_home (hbs first (List.mem_cons_self ..)).1)
  have hlen : l.length ≤ k.blocks.length :=
    howned ▸ length_above hl fun c hc => howned ▸ (hmem c hc).1
  have hclimb : p.climb (first :: rest) (k.blocks.length + 1) r.dominator
      = .ok (firstCommon? p.view.idom (first :: rest) l) := by
    rw [hrd]
    cases hl with
    | root hnone => rw [hnone]; rfl
    | up hd hl =>
        rw [hd]
        exact climb_eq hbs hm hl (fun c hc => (hmem c hc).2) (by omega)
  simp only [nearestDominator, getMethod_ok hk, hr, Stop.lift, bind, Except.bind, hclimb]
  split <;> simp_all [pure, Except.pure, throw, throwThe, MonadExceptOf.throw]

/-- The nearest dominator of blocks that have one above the first of them. -/
theorem nearestDominator_ok (h : p.view.Hung m) (hm : p.view.sort m ≠ none) {first : BlockId}
    {rest : List BlockId} (hbs : ∀ b ∈ first :: rest, b ∈ p.view.owned m)
    (hc : p.view.idom first = some c) (ha : Above p.view.idom a c)
    (hall : ∀ b ∈ first :: rest, Above p.view.idom a b) :
    ∃ d, p.nearestDominator m (first :: rest) = .ok d
      ∧ (∀ b ∈ first :: rest, Above p.view.idom d b)
      ∧ ∀ e, Above p.view.idom e c → (∀ b ∈ first :: rest, Above p.view.idom e b) →
        Above p.view.idom e d := by
  have hat (b : BlockId) (hb : b ∈ first :: rest) := hungAt_of_hung h (hbs b hb)
  obtain ⟨k, hk⟩ := method_of_sort hm
  have howned : p.view.owned m = k.blocks := (view_of_method hk).2.2.2.1
  obtain ⟨-, l, hl, hmem⟩ := hat first (List.mem_cons_self ..)
  have hanswer := nearestDominator_eq hk hat hl fun c hc => howned ▸ hmem c hc
  cases hl with
  | root hnone => rw [hnone] at hc; cases hc
  | up hd hl =>
      obtain rfl := Option.some.inj (hd.symm.trans hc)
      have hsome : (firstCommon? p.view.idom (first :: rest) l).isSome := by
        rw [firstCommon?, List.find?_isSome]
        exact ⟨a, hl.mem_iff.2 ha, by simpa using hall⟩
      obtain ⟨d, hd⟩ := Option.isSome_iff_exists.1 hsome
      rw [hd] at hanswer
      refine ⟨d, hanswer, by simpa using List.find?_some hd, fun e he hall => ?_⟩
      exact hl.above_firstCommon hd (hl.mem_iff.2 he) hall

end Program

end StructuredSsa
