import StructuredSsa.Proofs.Meets
import Mathlib.Data.Int.ConditionallyCompleteOrder
import Mathlib.Data.Set.Function
import Mathlib.Algebra.BigOperators.Group.List.Basic
import Mathlib.Tactic.Linarith

/-!
# Arrays are laid out in rows

The address of an array element is its base and an offset. The offset is a sum of
products, which the emitted instructions compute in words. Over the integers it is
`rowMajor`, a numbering of the elements (`rowMajor_bijOn`); in words it is the same up
to wrapping, and where the array fits into the words nothing wraps (`offsetSteps_exact`).

What is run is followed once: the emitted sums and products are those of `offsetSteps`,
whatever the indices hold (`addScaled_calculates`).
-/

namespace StructuredSsa

/-! ## The numbering of the elements -/

/-- The number of an element: every index counts the elements behind it. -/
def rowMajor : List Int → List Int → Int
  | i :: is, _ :: deeper => i * deeper.prod + rowMajor is deeper
  | _, _ => 0

/-- Every index lies in its dimension. -/
abbrev InRange : List Int → List Int → Prop := List.Forall₂ fun i d => 0 ≤ i ∧ i < d

theorem rowMajor_mem {is sizes : List Int} (h : InRange is sizes) :
    rowMajor is sizes ∈ Set.Ico 0 sizes.prod := by
  induction h with
  | nil => simp [rowMajor]
  | @cons i d is deeper hi _ ih =>
      obtain ⟨hlow, hhigh⟩ := ih
      rw [rowMajor, List.prod_cons]
      constructor <;> nlinarith

theorem prod_pos_of_inRange {is sizes : List Int} (h : InRange is sizes) : 0 < sizes.prod :=
  (rowMajor_mem h).1.trans_lt (rowMajor_mem h).2

theorem rowMajor_injOn (sizes : List Int) :
    Set.InjOn (rowMajor · sizes) {is | InRange is sizes} := by
  induction sizes with
  | nil =>
      rintro is hi js hj -
      cases hi
      cases hj
      rfl
  | cons d deeper ih =>
      intro is hi js hj heq
      cases hi with | @cons i _ is _ _ his
      cases hj with | @cons j _ js _ _ hjs
      obtain ⟨hi0, hi1⟩ := rowMajor_mem his
      obtain ⟨hj0, hj1⟩ := rowMajor_mem hjs
      have heq : i * deeper.prod + rowMajor is deeper = j * deeper.prod + rowMajor js deeper := heq
      -- The rows behind are shorter than a step of the outermost index.
      have hij : i = j := by
        rcases lt_trichotomy i j with hlt | rfl | hlt
        · nlinarith
        · rfl
        · nlinarith
      subst hij
      rw [ih his hjs (add_left_cancel heq)]

theorem rowMajor_surjOn {sizes : List Int} (hpos : ∀ d ∈ sizes, 0 < d) :
    Set.SurjOn (rowMajor · sizes) {is | InRange is sizes} (Set.Ico 0 sizes.prod) := by
  induction sizes with
  | nil =>
      rintro n ⟨h0, h1⟩
      have h1 : n < 1 := h1
      exact ⟨[], .nil, by simp [rowMajor]; omega⟩
  | cons d deeper ih =>
      rintro n ⟨h0, h1⟩
      rw [List.prod_cons] at h1
      have hdeeper : 0 < deeper.prod :=
        List.prod_induction (0 < ·) (fun _ _ => mul_pos) one_pos fun d hd => hpos d (.tail _ hd)
      obtain ⟨is, his, hrest⟩ := ih (fun d hd => hpos d (.tail _ hd))
        ⟨Int.emod_nonneg n hdeeper.ne', Int.emod_lt_of_pos n hdeeper⟩
      refine ⟨n / deeper.prod :: is, .cons ⟨Int.ediv_nonneg h0 hdeeper.le, ?_⟩ his, ?_⟩
      · exact Int.ediv_lt_of_lt_mul hdeeper h1
      · show n / deeper.prod * deeper.prod + rowMajor is deeper = n
        have hrest : rowMajor is deeper = n % deeper.prod := hrest
        rw [hrest, Int.mul_comm]
        exact Int.mul_ediv_add_emod n _

/-- The elements of an array are numbered, each once. -/
theorem rowMajor_bijOn {sizes : List Int} (hpos : ∀ d ∈ sizes, 0 < d) :
    Set.BijOn (rowMajor · sizes) {is | InRange is sizes} (Set.Ico 0 sizes.prod) :=
  ⟨fun _ h => rowMajor_mem h, rowMajor_injOn sizes, rowMajor_surjOn hpos⟩

/-! ## Offsets in words -/

namespace Shape

/-- The word that the offset of an element wraps to. -/
def offset (sizes : List Int64) (is : List Int) : Int64 :=
  Int64.ofInt (rowMajor is (sizes.map Int64.toInt))

theorem foldl_mul (sizes : List Int64) (n : Int64) :
    sizes.foldl (· * ·) n = n * Int64.ofInt (sizes.map Int64.toInt).prod := by
  induction sizes generalizing n with
  | nil => exact (Int64.mul_one n).symm
  | cons d deeper ih =>
      rw [List.foldl_cons, ih, List.map_cons, List.prod_cons, Int64.ofInt_mul, Int64.ofInt_toInt,
        Int64.mul_assoc]

theorem volume_eq (sizes : List Int64) : volume sizes = Int64.ofInt (sizes.map Int64.toInt).prod := by
  rw [volume, foldl_mul, Int64.one_mul]

theorem toInt_volume {sizes : List Int64} (h0 : 0 < (sizes.map Int64.toInt).prod)
    (h : (sizes.map Int64.toInt).prod < 2 ^ 63) :
    (volume sizes).toInt = (sizes.map Int64.toInt).prod := by
  rw [volume_eq, Int64.toInt_ofInt_of_le (by omega) h]

/-- Each stride is the product of the sizes of all deeper dimensions. -/
theorem stridesOf_cons (d : Int64) (deeper : List Int64) :
    stridesOf (d :: deeper) = volume deeper :: stridesOf deeper := by
  induction deeper generalizing d with
  | nil => rfl
  | cons size deeper ih =>
      have hvolume : volume deeper * size = volume (size :: deeper) := by
        rw [volume_eq, volume_eq, List.map_cons, List.prod_cons, Int64.ofInt_mul, Int64.ofInt_toInt,
          Int64.mul_comm]
      rw [stridesOf, ih size, List.headD_cons, hvolume]

/-- Indices times their strides, added up from the left. -/
def sumScaled (sum : Int64) (pairs : List (Int64 × Int64)) : Int64 :=
  pairs.foldl (fun sum p => sum + p.1 * p.2) sum

theorem sumScaled_zip (is sizes : List Int64) (sum : Int64) :
    sumScaled sum (is.zip (stridesOf sizes)) = sum + offset sizes (is.map Int64.toInt) := by
  induction is generalizing sum sizes with
  | nil => exact (Int64.add_zero sum).symm
  | cons i is ih =>
      cases sizes with
      | nil => exact (Int64.add_zero sum).symm
      | cons d deeper =>
          have hstep : offset (d :: deeper) ((i :: is).map Int64.toInt)
              = i * volume deeper + offset deeper (is.map Int64.toInt) := by
            simp only [offset, List.map_cons, rowMajor, Int64.ofInt_add, Int64.ofInt_mul,
              Int64.ofInt_toInt, volume_eq]
          rw [hstep, ← Int64.add_assoc, stridesOf_cons]
          exact ih deeper (sum + i * volume deeper)

end Shape

/-! ## The sums and products -/

namespace ArithOp

/-- What an operator means over the integers. -/
def exact (op : ArithOp) (a b : Int) : Int :=
  match op with
  | add => a + b
  | sub => a - b
  | mul => a * b
  | div => a.tdiv b

/-- A computation in words that does not wrap. -/
def Exact (op : ArithOp) (x y : Int64) : Prop :=
  ∃ z, op.eval? x y = some z ∧ z.toInt = op.exact x.toInt y.toInt

theorem exact_add {x y : Int64} (h0 : 0 ≤ x.toInt) (h1 : 0 ≤ y.toInt)
    (h : x.toInt + y.toInt < 2 ^ 63) : Exact .add x y := by
  refine ⟨x + y, rfl, ?_⟩
  rw [← Int64.ofInt_toInt x, ← Int64.ofInt_toInt y, ← Int64.ofInt_add,
    Int64.toInt_ofInt_of_le (by omega) h, Int64.ofInt_toInt, Int64.ofInt_toInt]
  rfl

theorem exact_mul {x y : Int64} (h0 : 0 ≤ x.toInt * y.toInt) (h : x.toInt * y.toInt < 2 ^ 63) :
    Exact .mul x y := by
  refine ⟨x * y, rfl, ?_⟩
  rw [← Int64.ofInt_toInt x, ← Int64.ofInt_toInt y, ← Int64.ofInt_mul,
    Int64.toInt_ofInt_of_le (by omega) h, Int64.ofInt_toInt, Int64.ofInt_toInt]
  rfl

end ArithOp

/-- An operator and what it is applied to. -/
abbrev Step := ArithOp × Int64 × Int64

/-- The product of an index and its stride. -/
def scaleSteps (i stride : Int64) : List Step :=
  if stride = 1 then [] else [(.mul, i, stride)]

/-- The sums and products that add scaled indices to `sum`. -/
def offsetSteps (sum : Int64) : List (Int64 × Int64) → List Step
  | [] => []
  | (i, stride) :: rest =>
      scaleSteps i stride ++ (.add, sum, i * stride) :: offsetSteps (sum + i * stride) rest

/-- No sum and no product wraps where the array fits. -/
theorem offsetSteps_exact {is sizes : List Int64} {sum : Int64}
    (h : InRange (is.map Int64.toInt) (sizes.map Int64.toInt))
    (hsum : 0 ≤ sum.toInt) (hfits : (sizes.map Int64.toInt).prod < 2 ^ 63)
    (htotal : sum.toInt + rowMajor (is.map Int64.toInt) (sizes.map Int64.toInt) < 2 ^ 63) :
    ∀ st ∈ offsetSteps sum (is.zip (Shape.stridesOf sizes)), st.1.Exact st.2.1 st.2.2 := by
  induction is generalizing sum sizes with
  | nil => simp [offsetSteps]
  | cons i is ih =>
      cases sizes with
      | nil => simp [Shape.stridesOf, offsetSteps]
      | cons d deeper =>
          obtain ⟨⟨hi0, hid⟩, his⟩ := List.forall₂_cons.1 h
          simp only [List.map_cons, List.prod_cons, rowMajor] at hfits htotal
          have hrest := (rowMajor_mem his).1
          have hpos := prod_pos_of_inRange his
          have hstride : (Shape.volume deeper).toInt = (deeper.map Int64.toInt).prod :=
            Shape.toInt_volume hpos (by nlinarith)
          have hproduct : ArithOp.Exact .mul i (Shape.volume deeper) := by
            refine ArithOp.exact_mul ?_ ?_
            · exact hstride ▸ mul_nonneg hi0 hpos.le
            · rw [hstride]
              omega
          obtain ⟨_, hvalue, hscaled⟩ := id hproduct
          obtain rfl := Option.some.inj hvalue
          have hscaled : (i * Shape.volume deeper).toInt = i.toInt * (deeper.map Int64.toInt).prod :=
            hstride ▸ hscaled
          have hscaled0 : 0 ≤ (i * Shape.volume deeper).toInt := hscaled ▸ mul_nonneg hi0 hpos.le
          have hadded : ArithOp.Exact .add sum (i * Shape.volume deeper) :=
            ArithOp.exact_add hsum hscaled0 (by omega)
          obtain ⟨_, hvalue, hnext⟩ := id hadded
          obtain rfl := Option.some.inj hvalue
          have hnext : (sum + i * Shape.volume deeper).toInt
              = sum.toInt + (i * Shape.volume deeper).toInt := hnext
          intro st hst
          simp only [Shape.stridesOf_cons, List.zip_cons_cons, offsetSteps, List.mem_append,
            List.mem_cons] at hst
          rcases hst with hst | rfl | hst
          · unfold scaleSteps at hst
            split at hst
            · cases hst
            · rw [List.mem_singleton.1 hst]
              exact hproduct
          · exact hadded
          · exact ih his (by omega) (by nlinarith) (by omega) st hst

/-! ## What instructions compute -/

/-- What an instruction computes when those before the `n`-th hold what `ρ` says. -/
inductive View.Computes (w : View) (n : Nat) (ρ : ValueId → Int64) : ValueId → Int64 → Prop where
  | held {v : ValueId} : v.index < n → Computes w n ρ v (ρ v)
  | const {v : ValueId} {c : Int64} : n ≤ v.index → w.op v = some (.const c) → Computes w n ρ v c
  | arith {v lhs rhs : ValueId} {op : ArithOp} {x y z : Int64} : n ≤ v.index →
      w.op v = some (.arith op lhs rhs) → Computes w n ρ lhs x → Computes w n ρ rhs y →
      op.eval? x y = some z → Computes w n ρ v z

theorem View.Computes.unique {w : View} {n : Nat} {ρ : ValueId → Int64} {v : ValueId}
    {x y : Int64} (h : w.Computes n ρ v x) (k : w.Computes n ρ v y) : x = y := by
  induction h generalizing y with
  | held hv =>
      cases k with
      | held => rfl
      | const hn => omega
      | arith hn => omega
  | const hn hop =>
      cases k with
      | held => omega
      | const _ hop' => cases hop.symm.trans hop'; rfl
      | arith _ hop' => cases hop.symm.trans hop'
  | arith hn hop _ _ hz ihl ihr =>
      cases k with
      | held => omega
      | const _ hop' => cases hop.symm.trans hop'
      | arith _ hop' hl hr hz' =>
          cases hop.symm.trans hop'
          obtain rfl := ihl hl
          obtain rfl := ihr hr
          exact Option.some.inj (hz.symm.trans hz')

namespace Build

variable {s t u : Builder}

/-- Instructions can be added at the cursor. -/
structure Writable (s : Builder) : Prop where
  present : s.program.view.kind s.cursor.block ≠ none
  opened : s.program.view.after s.cursor.block = none

/-- Instructions were added at the cursor. -/
structure Appends (s t : Builder) : Prop where
  cursor : t.cursor = s.cursor
  kind : t.program.view.kind = s.program.view.kind
  after : t.program.view.after = s.program.view.after
  values : s.program.view.values ≤ t.program.view.values
  op : ∀ v : ValueId, v.index < s.program.view.values → t.program.view.op v = s.program.view.op v

theorem Appends.refl (s : Builder) : Appends s s := ⟨rfl, rfl, rfl, Nat.le_refl _, fun _ _ => rfl⟩

theorem Appends.trans (h : Appends s t) (k : Appends t u) : Appends s u :=
  ⟨k.cursor.trans h.cursor, k.kind.trans h.kind, k.after.trans h.after, h.values.trans k.values,
    fun v hv => (k.op v (hv.trans_le h.values)).trans (h.op v hv)⟩

theorem Appends.writable (h : Appends s t) (hs : Writable s) : Writable t where
  present := by
    rw [h.kind, h.cursor]
    exact hs.present
  opened := by
    rw [h.after, h.cursor]
    exact hs.opened

theorem Appends.computes (h : Appends s t) {n : Nat} {ρ : ValueId → Int64} {v : ValueId}
    {x : Int64} (k : s.program.view.Computes n ρ v x) : t.program.view.Computes n ρ v x := by
  have hop {v : ValueId} {o : Op} (hv : s.program.view.op v = some o) :
      t.program.view.op v = some o := by
    rw [h.op v ?_, hv]
    by_contra hlarge
    rw [s.program.view_tables.op_none.2 (Nat.le_of_not_lt hlarge)] at hv
    cases hv
  induction k with
  | held hv => exact .held hv
  | const hn hv => exact .const hn (hop hv)
  | arith hn hv _ _ hz ihl ihr => exact .arith hn (hop hv) ihl ihr hz

theorem emit_appends {E : Error → Prop} (h : Writable s) (op : Op) (line : Nat)
    (hops : ∀ v ∈ op.operands, v.index < s.program.view.values) :
    Meets E (emit op line) s fun v t => Appends s t ∧ v = ⟨s.program.view.values⟩
      ∧ t.program.view.values = s.program.view.values + 1 ∧ t.program.view.op v = some op := by
  obtain ⟨p, hp, hview⟩ := Program.emit_ok line h.present h.opened fun v hv hnone =>
    absurd (hops v hv) (Nat.not_lt.2 (s.program.view_tables.op_none.1 hnone))
  refine meets_cursor (meets_editWith hp ?_)
  refine ⟨⟨rfl, by rw [hview]; rfl, by rw [hview]; rfl, by rw [hview]; exact Nat.le_succ _, ?_⟩,
    rfl, by rw [hview]; rfl, by rw [hview]; exact if_pos rfl⟩
  intro v hv
  rw [hview]
  refine if_neg ?_
  rintro rfl
  exact Nat.lt_irrefl _ hv

/-- The instructions added since `s` do the `steps`, and `v` is their result, whatever
the instructions before the `n`-th hold. -/
structure Calculates (n : Nat) (s t : Builder) (v : ValueId) (x : (ValueId → Int64) → Int64)
    (steps : (ValueId → Int64) → List Step) : Prop where
  appends : Appends s t
  present : v.index < t.program.view.values
  value : ∀ ρ, t.program.view.Computes n ρ v (x ρ)
  steps : ∀ ρ w op lhs rhs, s.program.view.values ≤ w.index →
    t.program.view.op w = some (.arith op lhs rhs) →
    ∃ x y, t.program.view.Computes n ρ lhs x ∧ t.program.view.Computes n ρ rhs y
      ∧ (op, x, y) ∈ steps ρ

variable {n : Nat} {v : ValueId} {x y : (ValueId → Int64) → Int64}
  {xs ys : (ValueId → Int64) → List Step}

theorem Calculates.refl (hv : v.index < s.program.view.values)
    (h : ∀ ρ, s.program.view.Computes n ρ v (x ρ)) : Calculates n s s v x fun _ => [] where
  appends := .refl s
  present := hv
  value := h
  steps ρ w op lhs rhs hw hop := by
    rw [s.program.view_tables.op_none.2 hw] at hop
    cases hop

theorem Calculates.trans {w : ValueId} (h : Calculates n s t v x xs)
    (k : Calculates n t u w y ys) : Calculates n s u w y fun ρ => xs ρ ++ ys ρ where
  appends := h.appends.trans k.appends
  present := k.present
  value := k.value
  steps ρ w op lhs rhs hw hop := by
    by_cases hlt : w.index < t.program.view.values
    · obtain ⟨x, y, hl, hr, hmem⟩ := h.steps ρ w op lhs rhs hw (k.appends.op w hlt ▸ hop)
      exact ⟨x, y, k.appends.computes hl, k.appends.computes hr, List.mem_append_left _ hmem⟩
    · obtain ⟨x, y, hl, hr, hmem⟩ := k.steps ρ w op lhs rhs (Nat.le_of_not_lt hlt) hop
      exact ⟨x, y, hl, hr, List.mem_append_right _ hmem⟩

/-- Where one instruction was added, it is all that is new. -/
theorem eq_of_appended {w : ValueId} {o : Op} (h : t.program.view.values = s.program.view.values + 1)
    (hw : s.program.view.values ≤ w.index) (hop : t.program.view.op w = some o) :
    w = ⟨s.program.view.values⟩ := by
  have hlt : w.index < t.program.view.values := by
    by_contra hlarge
    rw [t.program.view_tables.op_none.2 (Nat.le_of_not_lt hlarge)] at hop
    cases hop
  have hindex : w.index = s.program.view.values := by omega
  rw [← hindex]

/-- An instruction behind that does no arithmetic. -/
theorem Calculates.plain (h : Calculates n s t v x xs) (k : Appends t u)
    (hvalues : u.program.view.values = t.program.view.values + 1) {op : Op}
    (hop : u.program.view.op ⟨t.program.view.values⟩ = some op)
    (hplain : ∀ o lhs rhs, op ≠ .arith o lhs rhs) : Calculates n s u v x xs where
  appends := h.appends.trans k
  present := h.present.trans_le k.values
  value ρ := k.computes (h.value ρ)
  steps ρ w o lhs rhs hw hw' := by
    by_cases hlt : w.index < t.program.view.values
    · obtain ⟨x, y, hl, hr, hmem⟩ := h.steps ρ w o lhs rhs hw (k.op w hlt ▸ hw')
      exact ⟨x, y, k.computes hl, k.computes hr, hmem⟩
    · rw [eq_of_appended hvalues (Nat.le_of_not_lt hlt) hw', hop] at hw'
      exact (hplain o lhs rhs (Option.some.inj hw')).elim

theorem const_calculates {E : Error → Prop} (h : Writable s) (hn : n ≤ s.program.view.values)
    (c : Int64) (line : Nat) : Meets E (emit (.const c) line) s fun v t =>
      Calculates n s t v (fun _ => c) fun _ => [] := by
  refine (emit_appends h (.const c) line (by simp [Op.operands])).mono ?_
  rintro _ t ⟨happends, rfl, hvalues, hop⟩
  refine ⟨happends, by simp [hvalues], fun ρ => .const hn hop, fun ρ w op lhs rhs hw hop' => ?_⟩
  rw [eq_of_appended hvalues hw hop', hop] at hop'
  cases hop'

theorem arith_calculates {E : Error → Prop} (h : Writable s) (hn : n ≤ s.program.view.values)
    (op : ArithOp) {lhs rhs : ValueId} (hlhs : lhs.index < s.program.view.values)
    (hrhs : rhs.index < s.program.view.values) (line : Nat)
    (hx : ∀ ρ, s.program.view.Computes n ρ lhs (x ρ))
    (hy : ∀ ρ, s.program.view.Computes n ρ rhs (y ρ)) {z : (ValueId → Int64) → Int64}
    (hz : ∀ ρ, op.eval? (x ρ) (y ρ) = some (z ρ)) :
    Meets E (emit (.arith op lhs rhs) line) s fun v t =>
      Calculates n s t v z fun ρ => [(op, x ρ, y ρ)] := by
  refine (emit_appends h (.arith op lhs rhs) line (by simp [Op.operands, hlhs, hrhs])).mono ?_
  rintro _ t ⟨happends, rfl, hvalues, hop⟩
  have hx ρ := happends.computes (hx ρ)
  have hy ρ := happends.computes (hy ρ)
  refine ⟨happends, by simp [hvalues], fun ρ => .arith hn hop (hx ρ) (hy ρ) (hz ρ),
    fun ρ w op' l r hw hop' => ?_⟩
  rw [eq_of_appended hvalues hw hop', hop] at hop'
  cases hop'
  exact ⟨x ρ, y ρ, hx ρ, hy ρ, List.mem_singleton_self _⟩

/-! ## The address of an element -/

theorem scaled_calculates {E : Error → Prop} (h : Writable s) (hn : n ≤ s.program.view.values)
    (line : Nat) {index : ValueId} (hindex : index.index < n) (stride : Int64) :
    Meets E (scaled line index stride) s fun v t =>
      Calculates n s t v (fun ρ => ρ index * stride) fun ρ => scaleSteps (ρ index) stride := by
  have hpresent : index.index < s.program.view.values := hindex.trans_le hn
  unfold scaled scaleSteps
  split
  · next hone =>
      subst hone
      simp only [Int64.mul_one]
      exact meets_pure (.refl hpresent fun _ => .held hindex)
  · refine Meets.bind (const_calculates h hn stride line) fun scale t hscale => ?_
    have ht := hscale.appends
    refine (arith_calculates (ht.writable h) (hn.trans ht.values) .mul
      (hpresent.trans_le ht.values) hscale.present line (fun _ => .held hindex) hscale.value
      fun _ => rfl).mono fun v u hv => ?_
    exact hscale.trans hv

/-- What indices hold, with their strides. -/
def held (pairs : List (ValueId × Int64)) (ρ : ValueId → Int64) : List (Int64 × Int64) :=
  pairs.map fun p => (ρ p.1, p.2)

theorem addScaled_calculates {E : Error → Prop} (line : Nat) :
    ∀ (pairs : List (ValueId × Int64)) {s : Builder} {sum : ValueId}
      {x : (ValueId → Int64) → Int64}, Writable s → n ≤ s.program.view.values →
      sum.index < s.program.view.values → (∀ ρ, s.program.view.Computes n ρ sum (x ρ)) →
      (∀ p ∈ pairs, p.1.index < n) →
      Meets E (addScaled line sum pairs) s fun v t =>
        Calculates n s t v (fun ρ => Shape.sumScaled (x ρ) (held pairs ρ))
          fun ρ => offsetSteps (x ρ) (held pairs ρ)
  | [], s, sum, x, _, _, hsum, hx, _ => meets_pure (.refl hsum hx)
  | (index, stride) :: rest, s, sum, x, h, hn, hsum, hx, hpairs => by
      refine Meets.bind (scaled_calculates h hn line (hpairs _ (.head _)) stride)
        fun product t hproduct => ?_
      have ht := hproduct.appends
      refine Meets.bind (arith_calculates (ht.writable h) (hn.trans ht.values) .add
        (hsum.trans_le ht.values) hproduct.present line (fun ρ => ht.computes (hx ρ)) hproduct.value
        fun _ => rfl) fun next u hnext => ?_
      have hadded := hproduct.trans hnext
      have hu := hadded.appends
      refine (addScaled_calculates line rest (hu.writable h) (hn.trans hu.values) hnext.present
        hnext.value fun p hp => hpairs p (.tail _ hp)).mono fun v r hrest => ?_
      have hall := hadded.trans hrest
      simp only [List.append_assoc, List.singleton_append] at hall
      exact hall

/-- The instruction that addresses an element, and the offset it adds to the base of
the array. -/
structure Addresses (s : Builder) (x : String) (pairs : List (ValueId × Int64)) (t : Builder)
    (v base offset : ValueId) : Prop where
  index : t.program.view.op v = some (.index base offset)
  base : t.program.view.op base = some (.arrayBase x)
  offset : Calculates s.program.view.values s t offset (fun ρ => Shape.sumScaled 0 (held pairs ρ))
    fun ρ => offsetSteps 0 (held pairs ρ)

theorem elementAddress_addresses {E : Error → Prop} (h : Writable s) (x : String) (pos : Pos)
    {pairs : List (ValueId × Int64)} (hne : pairs ≠ [])
    (hpairs : ∀ p ∈ pairs, p.1.index < s.program.view.values) :
    Meets E (elementAddress x pos pairs) s fun v t => ∃ base offset,
      Addresses s x pairs t v base offset := by
  cases pairs with
  | nil => exact absurd rfl hne
  | cons p rest =>
      obtain ⟨index, stride⟩ := p
      refine Meets.bind (scaled_calculates h (Nat.le_refl _) pos.line (hpairs _ (.head _)) stride)
        fun first t hfirst => ?_
      have ht := hfirst.appends
      refine Meets.bind (addScaled_calculates pos.line rest (ht.writable h) ht.values hfirst.present
        hfirst.value fun p hp => hpairs p (.tail _ hp)) fun offset u hrest => ?_
      have hoffset := hfirst.trans hrest
      have hu := hoffset.appends
      refine Meets.bind (emit_appends (hu.writable h) (.arrayBase x) pos.line
        (by simp [Op.operands])) ?_
      rintro base r ⟨hr, hbase, hvalues, hbaseOp⟩
      have hbehind := hoffset.plain hr hvalues (hbase ▸ hbaseOp) (by rintro _ _ _ ⟨⟩)
      refine (emit_appends (hr.writable (hu.writable h)) (.index base offset) pos.line ?_).mono ?_
      · have hoffset := hbehind.present
        simp only [Op.operands, List.forall_mem_cons, hbase]
        exact ⟨by omega, hoffset, by simp⟩
      rintro v e ⟨he, hv, hvalues', hop⟩
      have hcalculated := hbehind.plain he hvalues' (hv ▸ hop) (by rintro _ _ _ ⟨⟩)
      refine ⟨base, offset, hop, ?_, ⟨hcalculated.appends, hcalculated.present, ?_, ?_⟩⟩
      · rw [he.op base (by simp [hbase, hvalues]), hbaseOp]
      · intro ρ
        have hvalue := hcalculated.value ρ
        rw [← Int64.zero_add (ρ index * stride)] at hvalue
        exact hvalue
      · intro ρ w op lhs rhs hw hop
        obtain ⟨x, y, hx, hy, hmem⟩ := hcalculated.steps ρ w op lhs rhs hw hop
        rw [← Int64.zero_add (ρ index * stride)] at hmem
        refine ⟨x, y, hx, hy, ?_⟩
        rcases List.mem_append.1 hmem with hmem | hmem
        · exact List.mem_append_left _ hmem
        · exact List.mem_append_right _ (.tail _ hmem)

theorem held_zip (is : List ValueId) (strides : List Int64) (ρ : ValueId → Int64) :
    held (is.zip strides) ρ = (is.map ρ).zip strides := by
  rw [held, List.zip_map_left]
  rfl

theorem length_stridesOf (sizes : List Int64) : (Shape.stridesOf sizes).length = sizes.length := by
  induction sizes with
  | nil => rfl
  | cons d deeper ih => rw [Shape.stridesOf_cons, List.length_cons, ih, List.length_cons]

theorem addressOf_addresses {E : Error → Prop} (h : Writable s) (x : String) (pos : Pos)
    {sizes : List Int64} {is : List ValueId} (hne : is ≠ []) (hlength : is.length = sizes.length)
    (his : ∀ v ∈ is, v.index < s.program.view.values) :
    Meets E (addressOf x pos (.array sizes) is) s fun v t => ∃ base offset,
      Addresses s x (is.zip (Shape.stridesOf sizes)) t v base offset := by
  have hstrides : is.length = (Shape.stridesOf sizes).length := by rw [length_stridesOf, hlength]
  unfold addressOf
  rw [if_neg (by simpa using hne)]
  dsimp only [Shape.strides]
  rw [if_neg (not_not.2 hstrides)]
  refine elementAddress_addresses h x pos ?_ fun p hp => his _ (List.of_mem_zip hp).1
  intro hnil
  have hzero : (is.zip (Shape.stridesOf sizes)).length = 0 := by rw [hnil]; rfl
  rw [List.length_zip, ← hstrides, Nat.min_self, List.length_eq_zero_iff] at hzero
  exact hne hzero

/-- The address of an array element is its base and an offset that numbers the elements
row by row: up to wrapping for all that the indices may hold, and where the array fits
into the words exactly, without wrapping on the way. -/
theorem addressOf_rowMajor (h : Writable s) (x : String) (pos : Pos) (sizes : List Int64)
    (is : List ValueId) (hne : is ≠ []) (hlength : is.length = sizes.length)
    (his : ∀ v ∈ is, s.program.view.op v ≠ none) :
    ∃ v t base offset, addressOf x pos (.array sizes) is s = .ok v t
      ∧ t.program.view.op v = some (.index base offset)
      ∧ t.program.view.op base = some (.arrayBase x)
      ∧ (∀ ρ n, t.program.view.Computes s.program.view.values ρ offset n ↔
          n = Shape.offset sizes (is.map fun i => (ρ i).toInt))
      ∧ ((∀ d ∈ sizes, 0 < d) → (sizes.map Int64.toInt).prod < 2 ^ 63 →
          Set.BijOn (fun js => (Shape.offset sizes js).toInt)
            {js | InRange js (sizes.map Int64.toInt)}
            (Set.Ico 0 (Shape.array sizes).elementCount.toInt)
          ∧ ∀ ρ, InRange (is.map fun i => (ρ i).toInt) (sizes.map Int64.toInt) →
            ∀ w op lhs rhs, s.program.view.values ≤ w.index →
              t.program.view.op w = some (.arith op lhs rhs) →
              ∃ l r n, t.program.view.Computes s.program.view.values ρ lhs l
                ∧ t.program.view.Computes s.program.view.values ρ rhs r
                ∧ t.program.view.Computes s.program.view.values ρ w n
                ∧ n.toInt = op.exact l.toInt r.toInt) := by
  have his (v : ValueId) (hv : v ∈ is) : v.index < s.program.view.values := by
    by_contra hlarge
    exact his v hv (s.program.view_tables.op_none.2 (Nat.le_of_not_lt hlarge))
  obtain ⟨v, t, hrun, base, offset, haddress⟩ :=
    (addressOf_addresses h x pos hne hlength his).exists_ok
  have hoffset ρ : t.program.view.Computes s.program.view.values ρ offset
      (Shape.offset sizes (is.map fun i => (ρ i).toInt)) := by
    have hvalue := haddress.offset.value ρ
    rw [held_zip, Shape.sumScaled_zip, Int64.zero_add, List.map_map] at hvalue
    exact hvalue
  refine ⟨v, t, base, offset, hrun, haddress.index, haddress.base, fun ρ n => ?_, ?_⟩
  · constructor
    · intro hn
      exact hn.unique (hoffset ρ)
    · rintro rfl
      exact hoffset ρ
  intro hpos hfits
  have hpos : ∀ d ∈ sizes.map Int64.toInt, 0 < d := by
    intro d hd
    obtain ⟨size, hsize, rfl⟩ := List.mem_map.1 hd
    exact Int64.lt_iff_toInt_lt.1 (hpos size hsize)
  have hprod : 0 < (sizes.map Int64.toInt).prod :=
    List.prod_induction (0 < ·) (fun _ _ => mul_pos) one_pos hpos
  have hcount : (Shape.array sizes).elementCount.toInt = (sizes.map Int64.toInt).prod :=
    Shape.toInt_volume hprod hfits
  constructor
  · rw [hcount]
    refine (rowMajor_bijOn hpos).congr fun js hjs => ?_
    obtain ⟨hlow, hhigh⟩ := rowMajor_mem hjs
    exact (Int64.toInt_ofInt_of_le (by omega) (hhigh.trans hfits)).symm
  · intro ρ hin w op lhs rhs hw hop
    obtain ⟨l, r, hl, hr, hmem⟩ := haddress.offset.steps ρ w op lhs rhs hw hop
    rw [held_zip] at hmem
    have hin' : InRange ((is.map ρ).map Int64.toInt) (sizes.map Int64.toInt) := by
      rw [List.map_map]
      exact hin
    have hbound := (rowMajor_mem hin').2
    obtain ⟨n, hn, hexact⟩ := offsetSteps_exact hin' (Int.le_refl _) hfits
      (by simpa using hbound.trans hfits) _ hmem
    exact ⟨l, r, n, hl, hr, .arith hw hop hl hr hn, hexact⟩

/-- A block with two constants. -/
def pair : Builder where
  program :=
    { methods := #[⟨"main", .main, [⟨0⟩], .empty, 0, ⟨0⟩, none, none⟩]
      globals := .empty
      values := #[⟨.const 1, some ⟨0⟩, 1, []⟩, ⟨.const 2, some ⟨0⟩, 1, []⟩]
      blocks := #[{ Block.new ⟨0⟩ (.entry []) with body := [⟨0⟩, ⟨1⟩] }] }
  cursor := .start ⟨0⟩ ⟨0⟩ .empty
  diagnostics := []

theorem pair_rowMajor : Writable pair ∧ ∃ v t base offset,
    addressOf "a" ⟨1, 1⟩ (.array [2, 3]) [⟨0⟩, ⟨1⟩] pair = .ok v t
      ∧ t.program.view.op v = some (.index base offset)
      ∧ (∀ ρ, t.program.view.Computes 2 ρ offset (ρ ⟨0⟩ * 3 + ρ ⟨1⟩))
      ∧ Set.BijOn (fun js => (Shape.offset [2, 3] js).toInt) {js | InRange js [2, 3]} (Set.Ico 0 6) := by
  have hwritable : Writable pair := ⟨by decide, by decide⟩
  obtain ⟨v, t, base, offset, hrun, hv, -, hoffset, hfits⟩ :=
    addressOf_rowMajor hwritable "a" ⟨1, 1⟩ [2, 3] [⟨0⟩, ⟨1⟩] (by decide) rfl (by decide)
  refine ⟨hwritable, v, t, base, offset, hrun, hv, fun ρ => (hoffset ρ _).2 ?_,
    (hfits (by simp) (by decide)).1⟩
  simp [Shape.offset, rowMajor]

end Build

end StructuredSsa
