import StructuredSsa.Proofs.Compiled
import StructuredSsa.Proofs.Stmts

/-!
# The code of expressions

What is built for an expression computes it (`expr_emits`), and what is built for
an assignment or a call performs it (`stmt_emits`), where all names are scalars and
all calls are of the built-in input and output. Nothing but an assignment changes
what the cursor knows.
-/

namespace StructuredSsa

namespace Build

open View

/-- The body of the computation is under construction, and all its variables are
scalars. -/
structure Scalar (s : Builder) : Prop where
  main : s.program.view.sort s.cursor.method = some .main
  shapes : ∀ d ∈ s.program.view.globals.symbols, d.shape = .scalar

/-- Instructions were added at the cursor, which else stayed as it was. -/
structure Emits (s t : Builder) (code : List ValueId) : Prop where
  extended : Extends s t
  body : t.program.view.body s.cursor.block = s.program.view.body s.cursor.block ++ code
  cursor : t.cursor = s.cursor

variable {s t u : Builder}

theorem Scalar.keep {S : BlockId → Prop} (h : Scalar s)
    (k : Keeps s.program.view t.program.view S) (hm : t.cursor.method = s.cursor.method) :
    Scalar t where
  main := by
    rw [k.sort, hm]
    exact h.main
  shapes := by
    rw [k.globals]
    exact h.shapes

theorem Extends.op (h : Extends s t) (v : ValueId) (o : Op) (hv : s.program.view.code.op v = some o)
    (_ : o.isPhi = false) : t.program.view.code.op v = some o :=
  h.keeps.op v o hv

namespace Emits

theorem refl (h : Ready s) : Emits s s [] := ⟨.refl h, (List.append_nil _).symm, rfl⟩

theorem trans {xs ys : List ValueId} (h : Emits s t xs) (k : Emits t u ys) : Emits s u (xs ++ ys) where
  extended := extends_trans h.extended k.extended
  body := by
    have hbody := k.body
    rw [h.cursor, h.body, List.append_assoc] at hbody
    exact hbody
  cursor := k.cursor.trans h.cursor

theorem scalar {xs : List ValueId} (h : Emits s t xs) (hs : Scalar s) : Scalar t :=
  hs.keep h.extended.keeps h.extended.advance.method

end Emits

theorem emit_emits {E : Error → Prop} (h : Ready s) (op : Op) (line : Nat)
    (hphi : op.isPhi = false) (hterm : op.isTerminator = false)
    (hops : ∀ v ∈ op.operands, s.program.view.Usable s.cursor v) :
    Meets E (emit op line) s fun v t =>
      Emits s t [v] ∧ t.program.view.code.op v = some op ∧ (op.hasValue = true → Yields s t v) := by
  refine ((emit_meets h op line hphi hterm hops).and (emit_view op line h.present h.opened
    fun v hv => (hops v hv).1)).mono ?_
  rintro v t ⟨⟨hextends, hcursor, hyields⟩, rfl, -, hview⟩
  refine ⟨⟨hextends, ?_, hcursor⟩, ?_, hyields⟩
  · rw [hview]
    exact if_pos rfl
  · show t.program.view.op _ = _
    rw [hview]
    exact if_pos rfl

/-- A name denotes a scalar that is tracked. -/
theorem resolve_scalar (h : Ready s) (hs : Scalar s) (x : String) (line : Nat) :
    Meets Expected (resolve x line) s fun r t => t = s ∧ r = (.scalar, .tracked)
      ∧ x ∈ s.program.view.tracked s.cursor.method := by
  refine ((resolve_meets h x line).and (Q := fun r t => t = s ∧ r = (.scalar, .tracked)) ?_).mono ?_
  · refine method_meets h.has_method fun r hr => meets_get ?_
    have hkind : r.kind = .main :=
      Option.some.inj ((Program.view_of_method hr).1.symm.trans hs.main)
    rw [hkind]
    dsimp only
    cases hfound : s.program.globals.find? x with
    | none => exact meets_fail trivial
    | some d =>
        have hshape := hs.shapes d (List.mem_of_find?_eq_some hfound)
        exact meets_pure ⟨rfl, by rw [hshape]⟩
  · rintro r t ⟨⟨rfl, hx⟩, -, hr⟩
    exact ⟨rfl, hr, hx hr⟩

/-! ## Expressions -/

/-- What was built for an expression computes it into `v`. -/
structure Computed (s t : Builder) (e : Source.Expr) (v : ValueId) (code : List ValueId) : Prop where
  emits : Emits s t code
  computes : t.program.view.code.Computes s.cursor.bindings e v code
  yields : Yields s t v

/-- What was built for some expressions computes them into `vs`. -/
structure ComputedAll (s t : Builder) (es : List Source.Expr) (vs code : List ValueId) : Prop where
  emits : Emits s t code
  computes : t.program.view.code.ComputesAll s.cursor.bindings es vs code
  yields : ∀ v ∈ vs, Yields s t v

theorem ComputedAll.nil (h : Ready s) : ComputedAll s s [] [] [] := ⟨.refl h, .nil, by simp⟩

theorem ComputedAll.cons {e : Source.Expr} {es : List Source.Expr} {v : ValueId}
    {vs xs ys : List ValueId} (h : Computed s t e v xs) (k : ComputedAll t u es vs ys) :
    ComputedAll s u (e :: es) (v :: vs) (xs ++ ys) where
  emits := h.emits.trans k.emits
  computes := .cons (h.computes.mono k.emits.extended.op) (h.emits.cursor ▸ k.computes)
  yields := by
    refine List.forall_mem_cons.2 ⟨yields_extend h.yields k.emits.extended, fun w hw => ?_⟩
    exact yields_after h.emits.extended (k.yields w hw)

/-- An expression behind some that are computed for nothing. -/
theorem ComputedAll.after {es : List Source.Expr} {e : Source.Expr} {v : ValueId}
    {vs xs ys : List ValueId} (h : ComputedAll s t es vs xs) (k : Computed t u e v ys) :
    Computed s u (es.foldr .after e) v (xs ++ ys) where
  emits := h.emits.trans k.emits
  computes := (h.computes.mono k.emits.extended.op).foldr (h.emits.cursor ▸ k.computes)
  yields := yields_after h.emits.extended k.yields

/-- Two expressions and an instruction that reads both. -/
theorem Computed.both {e e' : Source.Expr} {a b : ValueId} {xs ys : List ValueId}
    (h : Computed s t e a xs) (k : Computed t u e' b ys) {op : Op} (hop : op.operands = [a, b])
    (hphi : op.isPhi = false) (hterm : op.isTerminator = false) (hvalue : op.hasValue = true)
    (line : Nat) : Meets Expected (emit op line) u fun v r => Emits s r (xs ++ (ys ++ [v]))
      ∧ r.program.view.code.Computes s.cursor.bindings e a xs
      ∧ r.program.view.code.Computes s.cursor.bindings e' b ys
      ∧ r.program.view.code.op v = some op ∧ Yields s r v := by
  have hreads : ∀ v ∈ op.operands, u.program.view.Usable u.cursor v := by
    intro v hv
    rw [hop] at hv
    have hv : v = a ∨ v = b := by simpa using hv
    rcases hv with rfl | rfl
    · exact (yields_extend h.yields k.emits.extended).usable
    · exact k.yields.usable
  refine (emit_emits k.emits.extended.ready op line hphi hterm hreads).mono ?_
  rintro v r ⟨hemits, hvop, hv⟩
  have hfirst := h.computes.mono (extends_trans k.emits.extended hemits.extended).op
  have hsecond := k.computes.mono hemits.extended.op
  rw [h.emits.cursor] at hsecond
  exact ⟨h.emits.trans (k.emits.trans hemits), hfirst, hsecond, hvop,
    yields_after (extends_trans h.emits.extended k.emits.extended) (hv hvalue)⟩

mutual

theorem expr_emits : ∀ (tree : Syntax.Expr) {e : Source.Expr} {s : Builder},
    Source.Expr.ofTree? tree = some e → Ready s → Scalar s →
    Meets Expected (expr tree) s fun v t => ∃ code, Computed s t e v code
  | .number n line, e, s, he, h, hs => by
      obtain rfl := Option.some.inj he
      unfold expr
      refine (emit_emits h (.const n) line rfl rfl (by simp [Op.operands])).mono ?_
      rintro v t ⟨hemits, hop, hv⟩
      exact ⟨[v], hemits, .number hop, hv rfl⟩
  | .designator (.missing _) is, e, s, he, h, hs => by cases he
  | .designator (.ident x pos) is, e, s, he, h, hs => by
      obtain ⟨es, hes, rfl⟩ := Option.map_eq_some_iff.1 he
      unfold expr
      refine meets_bind_of_eq rfl (Meets.bind (resolve_scalar h hs x pos.line) ?_)
      rintro _ s ⟨rfl, rfl, hx⟩
      refine Meets.bind (indices_emits is hes h hs) ?_
      rintro vs t ⟨code, hall⟩
      refine (quiet_checkScalar ..).bind fun ds => meets_cursor ?_
      obtain ⟨v, hv⟩ := h.bound x hx
      have hready : Ready { t with diagnostics := ds } := hall.emits.extended.ready
      have hbound : t.cursor.bindings.get? x = some v := hall.emits.cursor ▸ hv
      dsimp only
      rw [hbound]
      refine meets_pure ⟨code ++ [], hall.after (u := { t with diagnostics := ds }) ?_⟩
      exact ⟨⟨.refl hready, (List.append_nil _).symm, rfl⟩, .var hbound,
        hready.usable x v hbound, Or.inl ⟨x, hbound⟩⟩
  | .group inner close, e, s, he, h, hs => by
      unfold expr
      refine Meets.bind (expr_emits inner he h hs) ?_
      rintro v t ⟨code, hcomputed⟩
      exact (quiet_require ..).bind fun ds =>
        meets_pure ⟨code, ⟨hcomputed.emits.extended, hcomputed.emits.body, hcomputed.emits.cursor⟩,
          hcomputed.computes, hcomputed.yields⟩
  | .arith op lhs rhs line, e, s, he, h, hs => by
      simp only [Source.Expr.ofTree?, Option.bind_eq_bind, Option.bind_eq_some_iff, Option.pure_def,
        Option.some.injEq] at he
      obtain ⟨l, hl, r, hr, rfl⟩ := he
      unfold expr
      refine Meets.bind (expr_emits lhs hl h hs) ?_
      rintro a t ⟨xs, hleft⟩
      refine Meets.bind (expr_emits rhs hr hleft.emits.extended.ready (hleft.emits.scalar hs)) ?_
      rintro b u ⟨ys, hright⟩
      refine (hleft.both hright rfl rfl rfl rfl line).mono ?_
      rintro v r ⟨hemits, ha, hb, hop, hv⟩
      exact ⟨_, hemits, .arith ha hb hop, hv⟩
  | .call (.missing _) args close, e, s, he, h, hs => by cases he
  | .call (.ident callee pos) args close, e, s, he, h, hs => by
      simp only [Source.Expr.ofTree?] at he
      split at he
      · next hcallee =>
          obtain ⟨es, hes, rfl⟩ := Option.map_eq_some_iff.1 he
          unfold expr
          refine meets_bind_of_eq rfl (Meets.bind (arguments_emits args hes h hs) ?_)
          rintro vs t ⟨code, hall⟩
          refine (quiet_require ..).bind fun ds => ?_
          have hread : Meets Expected (callNamed callee pos vs) { t with diagnostics := ds }
              fun r u => ∃ v, r = some v ∧ Computed t u .input v [v] := by
            unfold callNamed
            rw [if_pos hcallee]
            refine (quiet_checkArguments ..).bind fun ds' => ?_
            have hready : Ready { t with diagnostics := ds' } := hall.emits.extended.ready
            refine Meets.bind (emit_emits hready .read pos.line rfl rfl (by simp [Op.operands])) ?_
            rintro v u ⟨hemits, hop, hv⟩
            exact meets_pure ⟨v, rfl, ⟨hemits.extended, hemits.body, hemits.cursor⟩, .input hop, hv rfl⟩
          refine Meets.bind hread ?_
          rintro _ u ⟨v, rfl, hinput⟩
          exact meets_pure ⟨code ++ [v], hall.after hinput⟩
      · cases he
  | .missing found, e, s, he, h, hs => by cases he

theorem indices_emits : ∀ (trees : Syntax.Indices) {es : List Source.Expr} {s : Builder},
    Source.ofIndices? trees = some es → Ready s → Scalar s →
    Meets Expected (indices trees) s fun vs t => ∃ code, ComputedAll s t es vs code
  | .nil, es, s, he, h, hs => by
      obtain rfl := Option.some.inj he
      unfold indices
      exact meets_pure ⟨[], .nil h⟩
  | .cons index close rest, es, s, he, h, hs => by
      simp only [Source.ofIndices?, Option.bind_eq_bind, Option.bind_eq_some_iff, Option.pure_def,
        Option.some.injEq] at he
      obtain ⟨e, hfirst, es, hrest, rfl⟩ := he
      unfold indices
      refine Meets.bind (expr_emits index hfirst h hs) ?_
      rintro v t ⟨xs, hcomputed⟩
      refine (quiet_require ..).bind fun ds => ?_
      have hready : Ready { t with diagnostics := ds } := hcomputed.emits.extended.ready
      have hscalar := hcomputed.emits.scalar hs
      refine Meets.bind (indices_emits rest (s := { t with diagnostics := ds }) hrest hready
        ⟨hscalar.main, hscalar.shapes⟩) ?_
      rintro vs u ⟨ys, hall⟩
      have hall' : ComputedAll t u es vs ys :=
        ⟨⟨hall.emits.extended, hall.emits.body, hall.emits.cursor⟩, hall.computes, hall.yields⟩
      exact meets_pure ⟨xs ++ ys, .cons hcomputed hall'⟩

theorem arguments_emits : ∀ (trees : Syntax.Arguments) {es : List Source.Expr} {s : Builder},
    Source.ofArguments? trees = some es → Ready s → Scalar s →
    Meets Expected (arguments trees) s fun vs t => ∃ code, ComputedAll s t es vs code
  | .nil, es, s, he, h, hs => by
      obtain rfl := Option.some.inj he
      unfold arguments
      exact meets_pure ⟨[], .nil h⟩
  | .cons argument rest, es, s, he, h, hs => by
      simp only [Source.ofArguments?, Option.bind_eq_bind, Option.bind_eq_some_iff, Option.pure_def,
        Option.some.injEq] at he
      obtain ⟨e, hfirst, es, hrest, rfl⟩ := he
      unfold arguments
      refine Meets.bind (expr_emits argument hfirst h hs) ?_
      rintro v t ⟨xs, hcomputed⟩
      refine Meets.bind (arguments_emits rest hrest hcomputed.emits.extended.ready
        (hcomputed.emits.scalar hs)) ?_
      rintro vs u ⟨ys, hall⟩
      exact meets_pure ⟨xs ++ ys, .cons hcomputed hall⟩

end

theorem relation_emits {tree : Syntax.Relation} {test : Source.Test}
    (htest : Source.Test.ofTree? tree = some test) (h : Ready s) (hs : Scalar s) :
    Meets Expected (relation tree) s fun v t => ∃ code, Emits s t code
      ∧ t.program.view.code.Compares s.cursor.bindings test v code := by
  cases tree with
  | compare lhs op line rhs =>
      simp only [Source.Test.ofTree?, Option.bind_eq_bind, Option.bind_eq_some_iff, Option.pure_def,
        Option.some.injEq] at htest
      obtain ⟨l, hl, r, hr, rfl⟩ := htest
      refine Meets.bind (expr_emits lhs hl h hs) ?_
      rintro a t ⟨xs, hleft⟩
      refine Meets.bind (expr_emits rhs hr hleft.emits.extended.ready (hleft.emits.scalar hs)) ?_
      rintro b u ⟨ys, hright⟩
      refine (hleft.both hright rfl rfl rfl rfl line).mono ?_
      rintro v r ⟨hemits, ha, hb, hop, -⟩
      exact ⟨_, hemits, .intro ha hb hop⟩
  | noOperator lhs found => cases htest

/-! ## Straight-line statements -/

/-- Code was added at the cursor that performs a statement. -/
structure Performed (s t : Builder) (y : Source.Stmt) (code : List ValueId) : Prop where
  extended : Extends s t
  body : t.program.view.body s.cursor.block = s.program.view.body s.cursor.block ++ code
  performs : t.program.view.code.Performs s.cursor.bindings y code t.cursor.bindings

/-- A call that stands as a statement. -/
theorem callNamed_performs {callee : String} {es : List Source.Expr} {y : Source.Stmt}
    {vs code : List ValueId} (hy : Source.Stmt.ofCall? callee es = some y)
    (h : ComputedAll s t es vs code) (pos : Pos) :
    Meets Expected (callNamed callee pos vs) t fun _ u => ∃ code, Performed s u y code := by
  unfold Source.Stmt.ofCall? at hy
  have hready (ds : List Diagnostic) : Ready { t with diagnostics := ds } := h.emits.extended.ready
  unfold callNamed
  split at hy
  · next hcallee =>
      subst hcallee
      rw [if_neg (by simp), if_pos rfl]
      split at hy
      · next e =>
          obtain rfl := Option.some.inj hy
          obtain ⟨hemits, hcomputes, hyields⟩ := h
          cases hcomputes with
          | @cons _ _ v _ xs ys hfirst hrest =>
              cases hrest with
              | nil =>
                  rw [List.append_nil] at hemits
                  refine (quiet_checkArguments ..).bind fun ds => ?_
                  have hv : t.program.view.Usable t.cursor v := (hyields v (by simp)).usable
                  refine Meets.bind (emit_emits (hready ds) (.write v) pos.line rfl rfl
                    (by simpa [Op.operands] using hv)) ?_
                  rintro w u ⟨hwrite, hop, -⟩
                  have hall := hemits.trans (u := u)
                    ⟨hwrite.extended, hwrite.body, hwrite.cursor⟩
                  refine meets_pure ⟨xs ++ [w], hall.extended, hall.body, ?_⟩
                  rw [hall.cursor]
                  exact .write (hfirst.mono hwrite.extended.op) hop
      · cases hy
  · next hnum =>
      split at hy
      · next hcallee =>
          subst hcallee
          obtain rfl := Option.some.inj hy
          rw [if_neg (by simp), if_neg (by simp), if_pos rfl]
          refine (quiet_checkArguments ..).bind fun ds => ?_
          refine Meets.bind (emit_emits (hready ds) .writeLine pos.line rfl rfl
            (by simp [Op.operands])) ?_
          rintro w u ⟨hwrite, hop, -⟩
          have hall := h.emits.trans (u := u) ⟨hwrite.extended, hwrite.body, hwrite.cursor⟩
          refine meets_pure ⟨code ++ [w], hall.extended, hall.body, ?_⟩
          rw [hall.cursor]
          exact .newLine (h.computes.mono hwrite.extended.op) hop
      · cases hy

theorem stmt_emits {tree : Syntax.Stmt} {y : Source.Stmt} (hplain : tree.isStraight = true)
    (hy : Source.Stmt.ofTree? tree = some y) (h : Ready s) (hs : Scalar s) :
    Meets Expected (stmt tree) s fun _ t => ∃ code, Performed s t y code := by
  cases tree with
  | assign x is arrow value =>
      cases x with
      | missing found => simp [Source.Stmt.ofTree?] at hy
      | ident x pos =>
          simp only [Source.Stmt.ofTree?, Option.bind_eq_bind, Option.bind_eq_some_iff,
            Option.pure_def, Option.some.injEq] at hy
          obtain ⟨es, hes, e, he, rfl⟩ := hy
          unfold stmt
          refine meets_bind_of_eq rfl (Meets.bind (resolve_scalar h hs x pos.line) ?_)
          rintro _ s ⟨rfl, rfl, hx⟩
          refine Meets.bind (indices_emits is hes h hs) ?_
          rintro vs t ⟨xs, hall⟩
          refine (quiet_require ..).bind fun ds => ?_
          have hready : Ready { t with diagnostics := ds } := hall.emits.extended.ready
          have hscalar := hall.emits.scalar hs
          refine Meets.bind (expr_emits value (s := { t with diagnostics := ds }) he hready
            ⟨hscalar.main, hscalar.shapes⟩) ?_
          rintro v u ⟨ys, hvalue⟩
          have hcomputed := hall.after (u := u)
            ⟨⟨hvalue.emits.extended, hvalue.emits.body, hvalue.emits.cursor⟩, hvalue.computes,
              hvalue.yields⟩
          refine (quiet_checkScalar ..).bind fun ds' => meets_bindName ⟨xs ++ ys, ?_⟩
          have hext := hcomputed.emits.extended
          have hx' : x ∈ u.program.view.tracked u.cursor.method := tracked_extends hext ▸ hx
          refine ⟨⟨h, hext.ready.bind hcomputed.yields.usable fun _ => hx',
            hext.advance.bind hcomputed.yields.sourced, hext.block, hext.reachable, hext.kinds,
            hext.keeps⟩, hcomputed.emits.body, ?_⟩
          show u.program.view.code.Performs s.cursor.bindings _ _ (u.cursor.bindings.bind x v)
          rw [hcomputed.emits.cursor]
          exact .assign hcomputed.computes
  | call callee args close =>
      cases callee with
      | missing found => simp [Source.Stmt.ofTree?] at hy
      | ident callee pos =>
          simp only [Source.Stmt.ofTree?, Option.bind_eq_bind, Option.bind_eq_some_iff] at hy
          obtain ⟨es, hes, hy⟩ := hy
          unfold stmt
          refine meets_bind_of_eq rfl (Meets.bind (arguments_emits args hes h hs) ?_)
          rintro vs t ⟨code, hall⟩
          refine (quiet_require ..).bind fun ds => ?_
          have hquiet : ComputedAll s { t with diagnostics := ds } es vs code :=
            ⟨⟨hall.emits.extended, hall.emits.body, hall.emits.cursor⟩, hall.computes, hall.yields⟩
          exact Meets.bind (callNamed_performs hy hquiet pos) fun _ u hu => meets_pure hu
  | ifThen | whileDo | ret => cases hplain
  | unknown found => simp [Source.Stmt.ofTree?] at hy

end Build

end StructuredSsa
