import StructuredSsa.Proofs.Folding
import StructuredSsa.Proofs.Progress

/-!
# Passes of folding

`visit_cases` says everything a visit can come to. Whatever that is, the
program stays tidy and its runs show the same; blocks, passes and repeated
passes only put visits one after the other.
-/

namespace StructuredSsa

open Machine

/-! ## One visit -/

namespace Fold

open View

variable {p p' : Program} {b : BlockId} {v : ValueId} {count count' : FoldCount}

theorem replaceByConstant_ok (h : p.view.Tidy) (hv : v ∈ p.view.body b) (n : Int64) (line : Nat) :
    ∃ p', replaceByConstant v n line p = .ok () p' ∧ p'.view = p.view.foldInto b v n := by
  have ht := p.view_tables
  have howner := h.owner_of_body hv
  have hfresh := ht.ne_of_owner howner
  have hkind := h.present v b howner
  obtain ⟨op, hop, -⟩ := h.not_phi_of_body v b hv
  obtain ⟨p1, h1, hview1⟩ := Program.addInstr_ok (p := p) (.const n) none line
    (by simp [Op.operands])
  have hadd : (p.view.add (.const n) none).op v = some op := (if_neg hfresh).trans hop
  have hconst : (p.view.add (.const n) none).op ⟨p.view.values⟩ = some (.const n) := if_pos rfl
  have hstands : (p.view.add (.const n) none).owner v = some b := (if_neg hfresh).trans howner
  obtain ⟨p2, h2, hview2⟩ : ∃ p2, p1.placeBefore v ⟨p.view.values⟩ = .ok p2
      ∧ p2.view = p1.view.place b v ⟨p.view.values⟩ := by
    apply Program.placeBefore_ok <;> rw [hview1]
    · simp [hconst]
    · exact if_pos rfl
    · exact hstands
    · simp [hadd]
    · exact hkind
  rw [hview1] at hview2
  obtain ⟨p3, h3, hview3⟩ : ∃ p3, p2.replace v ⟨p.view.values⟩ = .ok p3
      ∧ p3.view = p2.view.redirect v ⟨p.view.values⟩ := by
    refine Program.replace_ok hfresh.symm ?_ ?_ <;> rw [hview2]
    · exact ne_of_eq_of_ne hadd (by simp)
    · exact ne_of_eq_of_ne hconst (by simp)
  rw [hview2] at hview3
  obtain ⟨p4, h4, hview4⟩ : ∃ p4, p3.removeInstr v = .ok p4 ∧ p4.view = p3.view.remove b v := by
    apply Program.removeInstr_ok <;> rw [hview3]
    · show (p.view.foldInto b v n).op v ≠ none
      exact foldInto_op_ne_none (by simp [hop])
    · exact (if_neg hfresh).trans hstands
    · exact hkind
    · exact fun u hu => hu.1 rfl
  rw [hview3] at hview4
  refine ⟨p4, ?_, hview4⟩
  have hcreate : p.create (.const n) line = .ok (⟨p.view.values⟩, p1) := h1
  simp [replaceByConstant, bind, EStateM.bind, editWith, edit, hcreate, h2, h3, h4]

theorem constant_ok {u : ValueId} {o : Op} (hu : p.view.op u = some o) :
    constant u p = .ok o.constant? p := by
  obtain ⟨i, hi, rfl⟩ := Program.exists_instr hu
  simp [constant, look, Program.getInstr_ok hi, bind, Except.bind, pure, Except.pure]

theorem constant_eq_some {o : Op} {n : Int64} : o.constant? = some n ↔ o = .const n := by
  cases o <;> simp [Op.constant?]

/-- Everything a visit of the instruction `v` of block `b` can come to. -/
inductive Visited (p : Program) (b : BlockId) (v : ValueId) (count : FoldCount) :
    EStateM.Result Stop Program FoldCount → Prop where
  | kept : Visited p b v count (.ok count p)
  /-- The instruction became a constant. -/
  | folded {n : Int64} {p' : Program} : p.view.Evaluates v n → p'.view = p.view.foldInto b v n →
      Visited p b v count (.ok { count with folded := count.folded + 1 } p')
  /-- The branch became a jump. -/
  | followed {taken dropped : BlockId} {p' : Program} : p.view.Decided v taken dropped →
      p'.view = p.view.follow b v taken dropped →
      Visited p b v count (.ok { count with simplified := count.simplified + 1 } p')
  | divisionByZero (line : Nat) : Visited p b v count (.error (.error (.divisionByZero line)) p)

theorem visited_replace (h : p.view.Tidy) (hv : v ∈ p.view.body b) (count : FoldCount) {n : Int64}
    (hn : p.view.Evaluates v n) (line : Nat) :
    Visited p b v count ((do
      replaceByConstant v n line
      return { count with folded := count.folded + 1 }) p) := by
  obtain ⟨p', hp', hview⟩ := replaceByConstant_ok h hv n line
  simp only [bind, EStateM.bind, hp']
  exact .folded hn hview

theorem visited_follow (h : p.view.Tidy) (hv : v ∈ p.view.body b) (count : FoldCount)
    {taken dropped : BlockId} (hd : p.view.Decided v taken dropped) :
    Visited p b v count ((do
      edit fun p => p.becomeJump v taken
      edit fun p => p.unlink b dropped
      return { count with simplified := count.simplified + 1 }) p) := by
  obtain ⟨c, n, t, f, hop, -, htaken⟩ := hd.branch
  have hjump : (p.view.becomeJump v taken).Tidy := h.becomeJump hv hop rfl
  obtain ⟨p1, h1, hview1⟩ := Program.becomeJump_ok taken (p := p) (v := v) (by simp [hop])
  obtain ⟨p2, h2, hview2⟩ : ∃ p2, p1.unlink b dropped = .ok p2
      ∧ p2.view = p1.view.unlink b dropped := by
    obtain ⟨-, ht, hf⟩ := h.branch v b c t f hv hop
    have hdropped : p.view.kind dropped ≠ none := by
      split at htaken
      · exact (Prod.mk.inj htaken).2 ▸ ht
      · exact (Prod.mk.inj htaken).2 ▸ hf
    apply Program.unlink_ok <;> rw [hview1]
    · exact h.present v b (h.owner_of_body hv)
    · exact hdropped
    · exact fun u hu x hx => hjump.operand_op u dropped x (hjump.owner_of_phis hu) hx
  rw [hview1] at hview2
  simp only [bind, EStateM.bind, edit, h1, h2]
  exact .followed hd hview2

theorem visit_cases (h : p.view.Tidy) (hv : v ∈ p.view.body b) (count : FoldCount) :
    Visited p b v count (visit b count v p) := by
  have howner := h.owner_of_body hv
  obtain ⟨op, hop, -⟩ := h.not_phi_of_body v b hv
  obtain ⟨i, hi, rfl⟩ := Program.exists_instr hop
  have hvisit : look (fun p => p.getInstr v) p = .ok i p := by
    simp [look, Program.getInstr_ok hi]
  have hconstant {u : ValueId} (hu : u ∈ i.op.operands) : ∃ c, constant u p = .ok c p
      ∧ ∀ n, c = some n → p.view.op u = some (.const n) := by
    obtain ⟨o, ho⟩ := Option.ne_none_iff_exists'.1
      (h.operand_op v b u howner (by simpa [operands, hop] using hu))
    exact ⟨_, constant_ok ho, fun n hn => constant_eq_some.1 hn ▸ ho⟩
  simp only [visit, bind, EStateM.bind, hvisit]
  cases hcase : i.op with
  | arith o lhs rhs =>
      obtain ⟨x, hx, hl⟩ := hconstant (u := lhs) (by simp [hcase, Op.operands])
      obtain ⟨y, hy, hr⟩ := hconstant (u := rhs) (by simp [hcase, Op.operands])
      simp only [EStateM.bind, hx, hy]
      cases x with
      | none => exact .kept
      | some x =>
          cases y with
          | none => exact .kept
          | some y =>
              dsimp only
              cases hn : o.eval? x y with
              | none => exact .divisionByZero i.line
              | some n =>
                  refine visited_replace h hv count ?_ i.line
                  exact .arith (hcase ▸ hop) (hl x rfl) (hr y rfl) hn
  | compare o lhs rhs =>
      obtain ⟨x, hx, hl⟩ := hconstant (u := lhs) (by simp [hcase, Op.operands])
      obtain ⟨y, hy, hr⟩ := hconstant (u := rhs) (by simp [hcase, Op.operands])
      simp only [EStateM.bind, hx, hy]
      cases x with
      | none => exact .kept
      | some x =>
          cases y with
          | none => exact .kept
          | some y =>
              exact visited_replace h hv count (.compare (hcase ▸ hop) (hl x rfl) (hr y rfl)) i.line
  | branch c t f =>
      obtain ⟨n, hn, hc⟩ := hconstant (u := c) (by simp [hcase, Op.operands])
      simp only [EStateM.bind, hn]
      cases n with
      | none => exact .kept
      | some n => exact visited_follow h hv count ⟨c, n, t, f, hcase ▸ hop, hc n rfl, rfl⟩
  | _ => exact .kept

/-! ## Many visits -/

/-- One program comes from another by folding. -/
structure Kept (p p' : Program) : Prop where
  tidy : p'.view.Tidy
  entry : p'.view.entry = p.view.entry
  alike : ∀ e, Alike p.view p'.view e

theorem Kept.refl (h : p.view.Tidy) : Kept p p := ⟨h, rfl, fun e => .refl _ e⟩

theorem Kept.trans {p'' : Program} (h : Kept p p') (k : Kept p' p'') : Kept p p'' :=
  ⟨k.tidy, k.entry.trans h.entry, fun e => (h.alike e).trans (k.alike e)⟩

/-- A visit keeps everything, and the rest of the block stays where it is. -/
theorem visit_kept (h : p.view.Tidy) (hv : v ∈ p.view.body b)
    (hrun : visit b count v p = .ok count' p') :
    Kept p p' ∧ ∀ u ∈ p.view.body b, u ≠ v → u ∈ p'.view.body b := by
  have hcases := visit_cases h hv count
  rw [hrun] at hcases
  cases hcases with
  | kept => exact ⟨.refl h, fun u hu _ => hu⟩
  | folded hn hview =>
      refine ⟨⟨?_, ?_, fun e => ?_⟩, fun u hu hne => ?_⟩ <;> rw [hview]
      · exact h.foldInto p.view_tables hv
      · rfl
      · exact alike_foldInto h p.view_tables hv hn e
      · rw [h.foldInto_body p.view_tables hv]
        exact List.mem_map.2 ⟨u, hu, rename_of_ne hne⟩
  | followed hd hview =>
      obtain ⟨c, n, t, f, hop, -⟩ := hd.branch
      obtain ⟨op, user, succs, preds, hrest⟩ := p.view.follow_rest b v _ _
      refine ⟨⟨?_, ?_, fun e => ?_⟩, fun u hu hne => ?_⟩
      · rw [hview]
        exact h.follow hv hop rfl
      · rw [hview, hrest]
      · rw [hview]
        exact alike_follow h hv hd e
      · rw [hview, hrest]
        exact hu

/-- A successful run of two steps is two successful runs. -/
theorem bind_ok {α β : Type} {x : FoldM α} {f : α → FoldM β} {r : β} (h : (x >>= f) p = .ok r p') :
    ∃ a q, x p = .ok a q ∧ f a q = .ok r p' := by
  cases hx : x p with
  | error e q => simp [bind, EStateM.bind, hx] at h
  | ok a q => exact ⟨a, q, rfl, by simpa [bind, EStateM.bind, hx] using h⟩

theorem visits_kept : ∀ (vs : List ValueId) {p p' : Program} {count count' : FoldCount},
    p.view.Tidy → vs.Nodup → (∀ v ∈ vs, v ∈ p.view.body b) →
    vs.foldlM (visit b) count p = .ok count' p' → Kept p p'
  | [], p, p', count, count', h, _, _, hrun => by
      obtain ⟨-, rfl⟩ := EStateM.Result.ok.inj hrun
      exact .refl h
  | v :: vs, p, p', count, count', h, hnodup, hvs, hrun => by
      rw [List.foldlM_cons] at hrun
      obtain ⟨mid, q, hv, hrest⟩ := bind_ok hrun
      obtain ⟨hnot, hnodup⟩ := List.nodup_cons.1 hnodup
      obtain ⟨hkept, hstay⟩ := visit_kept h (hvs v (List.mem_cons_self ..)) hv
      refine hkept.trans (visits_kept vs hkept.tidy hnodup (fun u hu => ?_) hrest)
      refine hstay u (hvs u (List.mem_cons_of_mem _ hu)) ?_
      rintro rfl
      exact hnot hu

theorem visitBlock_kept (h : p.view.Tidy) (hrun : visitBlock count b p = .ok count' p') :
    Kept p p' := by
  obtain ⟨r, q, hr, hrest⟩ := bind_ok hrun
  cases hb : p.block? b with
  | none => simp [look, Program.getBlock, hb] at hr
  | some r' =>
      obtain ⟨rfl, rfl⟩ : r' = r ∧ p = q := by simpa [look, Program.getBlock, hb] using hr
      obtain ⟨-, -, -, hbody, -⟩ := Program.view_of_block hb
      rw [← hbody] at hrest
      exact visits_kept _ h (h.nodup b) (fun v hv => hv) hrest

theorem visitBlocks_kept : ∀ (bs : List BlockId) {p p' : Program} {count count' : FoldCount},
    p.view.Tidy → bs.foldlM visitBlock count p = .ok count' p' → Kept p p'
  | [], p, p', count, count', h, hrun => by
      obtain ⟨-, rfl⟩ := EStateM.Result.ok.inj hrun
      exact .refl h
  | b :: bs, p, p', count, count', h, hrun => by
      rw [List.foldlM_cons] at hrun
      obtain ⟨mid, q, hb, hrest⟩ := bind_ok hrun
      have hkept := visitBlock_kept h hb
      exact hkept.trans (visitBlocks_kept bs hkept.tidy hrest)

theorem pass_kept (h : p.view.Tidy) (hrun : pass p = .ok count' p') : Kept p p' :=
  visitBlocks_kept _ h hrun

theorem repeated_kept : ∀ (n : Nat) {p p' : Program} {count' : FoldCount}, p.view.Tidy →
    repeated n p = .ok count' p' → Kept p p'
  | 0, p, p', count', h, hrun => pass_kept h hrun
  | n + 1, p, p', count', h, hrun => by
      obtain ⟨count, q, hpass, hrest⟩ := bind_ok hrun
      have hkept := pass_kept h hpass
      split at hrest
      · obtain ⟨later, q', hagain, hdone⟩ := bind_ok hrest
        obtain ⟨-, rfl⟩ := EStateM.Result.ok.inj hdone
        exact hkept.trans (repeated_kept n hkept.tidy hagain)
      · obtain ⟨-, rfl⟩ := EStateM.Result.ok.inj hrest
        exact hkept

theorem run_kept {level maxPasses : Nat} (h : p.view.Tidy)
    (hrun : run level maxPasses p = .ok count' p') : Kept p p' := by
  unfold run at hrun
  split at hrun
  · obtain ⟨-, rfl⟩ := EStateM.Result.ok.inj hrun
    exact .refl h
  · exact pass_kept h hrun
  · exact repeated_kept _ h hrun

end Fold

/-! ## Folding of built programs -/

/-- A program whose methods are finished is tidy. -/
theorem View.tidy_of_closed {w : View} (h : w.Sound) (ht : w.Tables)
    (hclosed : ∀ m, w.sort m ≠ none → ∃ e, w.Closed m e) : w.Tidy := by
  have hends {b : BlockId} {v : ValueId} (hv : v ∈ w.body b) : w.Ends b := by
    obtain ⟨-, hlive, hafter⟩ := h.live_of_owner ht hclosed
      ((h.wired.listed v b).1 (List.mem_append_right _ hv))
    exact h.ended b hlive hafter
  refine
    { listed := h.wired.listed
      nodup := fun b => (h.wired.body_sorted b).imp fun hlt heq => by simp [heq] at hlt
      phi_of_phis := h.wired.phi_of_phis
      not_phi_of_body := h.wired.not_phi_of_body
      present := fun v b hv => (h.live_of_owner ht hclosed hv).1
      operand_op := fun u b v _ hv => ?_
      reads_user := fun u b v hu hv =>
        h.wired.reads_user u b v hu (h.live_of_owner ht hclosed hu).2.1 hv
      sole := fun b u v o o' hu hv ho ho' hto hto' => ?_
      branch := fun v b c t f hv hop => ?_ }
  · cases hop : w.op u with
    | none => simp [operands, hop] at hv
    | some op => exact (h.wired.operand_value u v op hop (by simpa [operands, hop] using hv)).exists_op
  · have hlast {x : ValueId} {p : Op} (hx : x ∈ w.body b) (hp : w.op x = some p)
        (hterm : p.isTerminator = true) : ∃ done, w.body b = done ++ [x] := by
      obtain ⟨done, rest, hsplit⟩ := List.append_of_mem hx
      obtain ⟨hno, -⟩ | ⟨-, rfl, -⟩ := (hends hx).split hsplit hp
      · rw [hterm] at hno
        cases hno
      · exact ⟨done, hsplit⟩
    obtain ⟨done, hdone⟩ := hlast hu ho hto
    obtain ⟨done', hdone'⟩ := hlast hv ho' hto'
    exact List.singleton_inj.1 (List.append_inj' (hdone.symm.trans hdone') rfl).2
  · obtain ⟨done, rest, hsplit⟩ := List.append_of_mem hv
    obtain ⟨hno, -⟩ | ⟨-, -, htargets, hnodup⟩ := (hends hv).split hsplit hop
    · cases hno
    · have hpresent {s : BlockId} (hs : s ∈ (Op.branch c t f).targets) : w.kind s ≠ none := by
        have hedge := (htargets s).1 hs
        intro hnone
        have hpreds := (h.wired.edge b s).1 hedge
        rw [(ht.absent hnone).2.2.1] at hpreds
        cases hpreds
      refine ⟨?_, hpresent (by simp [Op.targets]), hpresent (by simp [Op.targets])⟩
      simpa [Op.targets] using hnodup

/-- Folding a built program, at any level and for any number of passes, leaves
what is seen of its methods as it was after any number of steps, and none of
them breaks. -/
theorem fold_observe {tokens : List Token} {earlier : List Diagnostic} {built : Built}
    (hbuilt : buildTokens tokens earlier = .ok built) {level maxPasses : Nat} {count : FoldCount}
    {p : Program} (hfold : Fold.run level maxPasses built.program = .ok count p) :
    ∀ id m, built.program.method? id = some m → ∃ m', p.method? id = some m'
      ∧ ∀ env n, p.observe env m' n = built.program.observe env m n
        ∧ (built.program.observe env m n).2 ≠ .broken := by
  intro id m hm
  obtain ⟨hsound, hclosed⟩ := buildTokens_sound hbuilt
  have ht := built.program.view_tables
  have hkept := Fold.run_kept (View.tidy_of_closed hsound ht hclosed) hfold
  obtain ⟨hsort, hentry, -⟩ := Program.view_of_method hm
  have hentry' : p.view.entry id = some m.entry := by rw [hkept.entry, hentry]
  obtain ⟨m', hm', hsame⟩ : ∃ m', p.method? id = some m' ∧ m'.entry = m.entry := by
    simpa [Program.view] using hentry'
  obtain ⟨e, he⟩ := hclosed id (by simp [hsort])
  have hok (env : Env) (n : Nat) : (built.program.observe env m n).2 ≠ .broken :=
    he.run_ne_broken hsound hentry env n
  refine ⟨m', hm', fun env n => ⟨?_, hok env n⟩⟩
  rw [Program.observe, hsame]
  exact hkept.alike m.entry env (hok env) n

/-- A loop whose exit depends on its input, around a branch on constants. -/
def settled : List Token :=
  [.keyword .main, .keyword .var, .ident "x", .punct .semicolon, .punct .lbrace,
    .keyword .while_, .ident "x", .punct .lt, .keyword .call, .ident "InputNum", .keyword .do_,
    .keyword .if_, .number 2, .punct .plus, .number 3, .punct .lt, .number 5, .keyword .then_,
    .keyword .let_, .ident "x", .punct .arrow, .number 0, .keyword .else_,
    .keyword .let_, .ident "x", .punct .arrow, .ident "x", .punct .plus, .number 1, .keyword .fi,
    .keyword .od, .punct .rbrace, .punct .period, .eof].map fun k => ⟨k, k.text, .start⟩

theorem settled_fold_observe : ∃ built count p, buildTokens settled [] = .ok built
    ∧ Fold.run 2 5 built.program = .ok count p ∧ count = ⟨2, 1, 2⟩
    ∧ ∀ id m, built.program.method? id = some m → ∃ m', p.method? id = some m'
      ∧ ∀ env n, p.observe env m' n = built.program.observe env m n
        ∧ (built.program.observe env m n).2 ≠ .broken := by
  have hrun : ((buildTokens settled []).toOption.bind fun built =>
      match Fold.run 2 5 built.program with
      | .ok count _ => some count
      | .error _ _ => none) = some ⟨2, 1, 2⟩ := by
    decide +kernel
  cases hbuilt : buildTokens settled [] with
  | error e => rw [hbuilt] at hrun; cases hrun
  | ok built =>
      rw [hbuilt] at hrun
      cases hfold : Fold.run 2 5 built.program with
      | error e p => simp [Except.toOption, hfold] at hrun
      | ok count p =>
          simp only [Except.toOption, Option.bind_some, hfold, Option.some.injEq] at hrun
          exact ⟨built, count, p, rfl, hfold, hrun, fold_observe hbuilt hfold⟩

end StructuredSsa
