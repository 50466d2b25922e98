import StructuredSsa.Proofs.Blame
import StructuredSsa.Proofs.GrammarComplete
import StructuredSsa.Proofs.Realized
import StructuredSsa.Proofs.Tiling

/-!
# What a computation means

A computation on scalars behaves as its statements do (`build_sameBehaviour`). The
entry of its body makes a zero for every variable (`Zeroed`), and behind it stands
the code of the statements (`LaidAll.implements`), so that the machine meets the
execution of the statements at the start, and from there on again and again.

Such a computation is always built, as long as it declares the variables it uses:
its tree has no other place that could be blamed (`Site.Allowed`).
-/

namespace StructuredSsa

open Machine

/-! ## Zeros at the start -/

namespace Machine

namespace Code

variable {c : Code}

/-- Instructions that make zeros are executed one after another. -/
theorem reaches_zeros (env : Env) {rest : List ValueId} : ∀ {zeros : List ValueId} {s : State},
    (∀ v ∈ zeros, c.op v = some (.const 0)) → s.status = .running → s.rest = zeros ++ rest →
      ∃ t, c.Reaches env 0 s t ∧ t.status = .running ∧ t.block = s.block ∧ t.rest = rest
        ∧ t.trace = s.trace ∧ ∀ v, v ∈ zeros ∨ s.regs v = some 0 → t.regs v = some 0
  | [], s, _, hs, hrest =>
      ⟨s, .refl c env s, hs, rfl, hrest, rfl, by simp⟩
  | u :: zeros, s, hop, hs, hrest => by
      obtain ⟨hu, hzeros⟩ := List.forall_mem_cons.1 hop
      have hfirst : c.Reaches env 1 s _ := .instr hs hrest hu rfl rfl
      obtain ⟨t, hreach, ht, hblock, hbehind, htrace, hregs⟩ := reaches_zeros env hzeros
        (s := { s with
          rest := zeros ++ rest
          regs := fun v => if v = u then some 0 else s.regs v
          trace := s.trace ++ [] }) hs rfl
      refine ⟨t, (hfirst.trans hreach).weaken (Nat.zero_le _), ht, hblock, hbehind, ?_, ?_⟩
      · rw [htrace, List.append_nil]
      · intro v hv
        refine hregs v ?_
        by_cases hvu : v = u
        · exact Or.inr (if_pos hvu)
        · refine hv.imp (fun hmem => (List.mem_cons.1 hmem).resolve_left hvu) fun hzero => ?_
          exact (if_neg hvu).trans hzero

end Code

end Machine

/-- One of two executions may start later. -/
theorem Rejoin.delay {f g : Nat → List Event × Status} {k : Nat}
    (h : Rejoin f fun n => g (n + k)) : Rejoin f g := by
  intro i
  obtain ⟨m, n, heq, hlate⟩ := h i
  refine ⟨m, n + k, heq, fun hrun => ?_⟩
  have := hlate hrun
  omega

namespace Build

open View

/-- The computation waits at its entry, which only made a zero for each of its
variables. -/
structure Zeroed (s : Builder) : Prop where
  opening : Opening s
  method : s.cursor.method = ⟨0⟩
  scalar : Scalar s
  zeros : ∀ v ∈ s.program.view.body s.cursor.block, s.program.view.op v = some (.const 0)
  held : ∀ x v, s.cursor.bindings.get? x = some v → v ∈ s.program.view.body s.cursor.block

variable {s : Builder}

theorem Zeroed.quiet (h : Zeroed s) (ds : List Diagnostic) : Zeroed { s with diagnostics := ds } :=
  ⟨h.opening, h.method, ⟨h.scalar.main, h.scalar.shapes⟩, h.zeros, h.held⟩

/-- What each of some steps keeps, they all keep. -/
theorem forM_keeps {α : Type} {E : Error → Prop} {f : α → BuildM Unit} {P : Builder → Prop} :
    ∀ (xs : List α) {s : Builder},
      (∀ x ∈ xs, ∀ s, P s → Meets E (f x) s fun _ t => P t) → P s →
      Meets E (xs.forM f) s fun _ t => P t
  | [], _, _, h => meets_pure h
  | x :: rest, s, hf, h => by
      obtain ⟨hx, hrest⟩ := List.forall_mem_cons.1 hf
      exact Meets.bind (hx s h) fun _ t ht => forM_keeps rest hrest ht

theorem shapes_declare {sc : Scope} {new : Symbol} (h : ∀ d ∈ sc.symbols, d.shape = .scalar)
    (hnew : new.shape = .scalar) : ∀ d ∈ (sc.declare new).symbols, d.shape = .scalar := by
  intro d hd
  unfold Scope.declare at hd
  split at hd
  · exact h d hd
  · rcases List.mem_append.1 hd with hold | hlast
    · exact h d hold
    · exact List.mem_singleton.1 hlast ▸ hnew

theorem declare_zeroed (h : Zeroed s) (x : String) (pos : Pos) :
    Meets Expected (declare .scalar x pos) s fun _ t => Zeroed t := by
  have hopening := h.opening
  have hview : Meets Expected (declare .scalar x pos) s fun _ t =>
      Scalar t
      ∧ (∀ v ∈ t.program.view.body t.cursor.block, t.program.view.op v = some (.const 0))
      ∧ ∀ y v, t.cursor.bindings.get? y = some v → v ∈ t.program.view.body t.cursor.block := by
    unfold declare
    refine Meets.bind (declareName_meets hopening.has_method _) ?_
    rintro new t ⟨rfl, hc, hview⟩
    have hscalar : Scalar t := by
      refine ⟨?_, ?_⟩
      · rw [hview, hc]
        exact h.scalar.main
      · rw [hview, declareIn, if_pos h.scalar.main]
        exact @shapes_declare _ ⟨x, .scalar, false, pos.line⟩ h.scalar.shapes rfl
    have hpresent : t.program.view.kind t.cursor.block ≠ none := by
      rw [hview, hc]
      exact hopening.present
    have hopened : t.program.view.after t.cursor.block = none := by
      rw [hview, hc]
      exact hopening.opened
    have hzeros : ∀ v ∈ t.program.view.body t.cursor.block,
        t.program.view.op v = some (.const 0) := by
      rw [hview, hc]
      exact h.zeros
    have hheld : ∀ y v, t.cursor.bindings.get? y = some v →
        v ∈ t.program.view.body t.cursor.block := by
      rw [hview, hc]
      exact h.held
    split
    · refine Meets.bind (emit_view (.const 0) pos.line hpresent hopened (by simp [Op.operands])) ?_
      rintro v u ⟨rfl, hcu, hviewu⟩
      have hbody : u.program.view.body u.cursor.block
          = t.program.view.body t.cursor.block ++ [⟨t.program.view.values⟩] := by
        rw [hviewu, hcu]
        exact if_pos rfl
      refine meets_bindName ⟨⟨?_, ?_⟩, ?_, ?_⟩
      · show u.program.view.sort u.cursor.method = _
        rw [hviewu, hcu]
        exact hscalar.main
      · show ∀ d ∈ u.program.view.globals.symbols, _
        rw [hviewu]
        exact hscalar.shapes
      · show ∀ v ∈ u.program.view.body u.cursor.block, u.program.view.op v = _
        rw [hbody]
        intro v hv
        rw [hviewu]
        show (if v = ⟨t.program.view.values⟩ then some _ else t.program.view.op v) = _
        split
        · rfl
        · next hne =>
            rw [List.mem_append, List.mem_singleton] at hv
            exact hzeros v (hv.resolve_right hne)
      · intro y v hv
        show v ∈ u.program.view.body u.cursor.block
        rw [hbody, List.mem_append, List.mem_singleton]
        change (u.cursor.bindings.bind x _).get? y = some v at hv
        rw [Bindings.get?_bind] at hv
        split at hv
        · exact Or.inr (Option.some.inj hv).symm
        · rw [hcu] at hv
          exact Or.inl (hheld y v hv)
    · exact (quiet_report ..).meets fun ds => ⟨⟨hscalar.main, hscalar.shapes⟩, hzeros, hheld⟩
  refine ((declare_meets hopening .scalar x pos).and hview).mono ?_
  rintro _ t ⟨hd, hscalar, hzeros, hheld⟩
  exact ⟨hd.opening, hd.method.trans h.method, hscalar, hzeros, hheld⟩

theorem varDecl_zeroed (h : Zeroed s) {d : Syntax.VarDecl} (hd : d.type = .scalar) :
    Meets Expected (varDecl d) s fun _ t => Zeroed t := by
  unfold varDecl
  rw [hd]
  refine meets_bind_of_eq rfl (Meets.bind (forM_keeps (P := Zeroed) d.names ?_ h) ?_)
  · intro x _ t ht
    refine Meets.bind (name_meets "variable name" x) ?_
    rintro ⟨y, pos⟩ t rfl
    exact declare_zeroed ht y pos
  · intro _ t ht
    exact (quiet_require ..).meets fun ds => ht.quiet ds

theorem openMain_zeroed {t : Syntax.Computation} (hscalars : ∀ d ∈ t.varDecls, d.type = .scalar)
    (ds : List Diagnostic) : Meets Expected (openMain t) (.init ds) fun _ s => Zeroed s := by
  unfold openMain
  refine (quiet_require ..).bind fun ds' => ?_
  have hempty : Meets Expected (openMethod "main" .main) (.init ds') fun _ u =>
      u.program.view.globals = .empty ∧ u.program.view.body u.cursor.block = []
        ∧ u.cursor.bindings = .empty := ⟨rfl, rfl, rfl⟩
  refine Meets.bind ((openMethod_meets "main" .main (s := .init ds') sound_empty fun _ =>
    ⟨rfl, fun n => by simp [Builder.init, Program.view, Program.empty, Program.method?]⟩).and
    hempty) ?_
  rintro _ u ⟨⟨hopening, hmethod, hsort, -⟩, hglobals, hbody, hbindings⟩
  refine forM_keeps (P := Zeroed) t.varDecls (fun d hd s hs => varDecl_zeroed hs (hscalars d hd)) ?_
  refine ⟨hopening, hmethod, ⟨hsort, ?_⟩, ?_, ?_⟩
  · rw [hglobals]
    simp [Scope.empty]
  · simp [hbody]
  · simp [hbindings]

/-- The computation as it is built: its entry, and its body from there. -/
theorem computation_bodied {t : Syntax.Computation} (hmethods : t.methods = [])
    (hscalars : ∀ d ∈ t.varDecls, d.type = .scalar) (ds : List Diagnostic) :
    Meets Expected (computation t) (.init ds) fun _ z =>
      ∃ s t' u r e, Zeroed s ∧ Bodied t.body s t' u r e ∧ z.program = r.program := by
  rw [computation_eq, hmethods]
  refine Meets.bind (openMain_zeroed hscalars ds) fun _ s hs => meets_cursor ?_
  refine meets_bind_of_eq rfl ?_
  unfold closeMain
  refine meets_bind_of_eq rfl ?_
  refine Meets.bind (body_meets (s := s) hs.opening.toAtEntry t.body) ?_
  rintro _ r ⟨t', u, e, hbody⟩
  refine (quiet_require ..).bind fun ds' => ?_
  split
  · exact (quiet_report ..).meets fun _ => ⟨s, t', u, r, e, hs, hbody, rfl⟩
  · exact meets_pure ⟨s, t', u, r, e, hs, hbody, rfl⟩

/-! ## The body behind the zeros -/

section Body

variable {b : Syntax.Body} {t u r : Builder} {e : BlockId}

section

variable (h : BodyOpen s t e) (hs : s.program.view.AtEntry s.cursor)
include h hs

/-- What is left of the entry is the jump to the first block of the body. -/
theorem BodyOpen.gone : Gone s.program.view s.cursor t.program.view t.cursor.block := by
  have hstart := h.atStart hs
  refine ⟨⟨⟨s.program.view.values⟩, ?_, ?_⟩, hstart.sealed, ?_, ?_⟩
  · rw [h.view]
    exact body_depart
  · rw [h.view, h.cursor]
    exact op_depart
  · rw [hstart.led.preds, if_pos hs.reachable]
    exact List.mem_singleton_self _
  · exact Or.inl (hstart.sound.wired.isEntry_entry _ _ hstart.entry).1

theorem BodyOpen.atTop : AtTop t := by
  have hled := (h.atStart hs).led
  refine ⟨hled.body, by simp [hled.idom], ?_⟩
  rw [hled.before, h.cursor]
  rfl

theorem BodyOpen.op {v : ValueId} {o : Op} (hv : s.program.view.op v = some o) :
    t.program.view.op v = some o := by
  rw [h.view]
  exact (hs.started s.program.view_tables).keeps.op v o hv

theorem BodyOpen.scalar (hscalar : Scalar s) : Scalar t where
  main := by
    rw [h.method, h.view]
    show (s.program.view.entered s.cursor).sort _ = _
    rw [(hs.started s.program.view_tables).keeps.sort]
    exact hscalar.main
  shapes := by
    rw [h.outside.globals]
    exact hscalar.shapes

end

section

variable (h : Bodied b s t u r e)
include h

/-- What stays of a body that was built, when it is finished. -/
theorem Bodied.departed : Later (u.program.view.depart u.cursor e) r.program.view := by
  have hwaiting := h.ran.finish.waiting
  have hentered := entered_depart h.ran.finish.toPlaced (h.ran.finish.exit_apart e hwaiting.exit).2
  exact h.finished.settled.later (hentered.body.trans (List.append_eq_nil_iff.1 hwaiting.contents).2)
    (hentered.after.trans hwaiting.after) (hentered.idom.trans hwaiting.idom)

theorem Bodied.later : Later u.program.view r.program.view :=
  (later_depart h.ran.finish.toPlaced u.program.view_tables
    (h.ran.finish.exit_apart e h.ran.finish.waiting.exit).2).trans h.departed

theorem Bodied.entry (hs : s.program.view.AtEntry s.cursor) :
    r.program.view.entry s.cursor.method = some s.cursor.block := by
  rw [h.finished.settled.entry,
    (keeps_depart h.ran.finish.toOpen u.program.view_tables e).entry, h.ran.advance.entry]
  exact (h.opened.atStart hs).entry

theorem Bodied.scalar (hs : Zeroed s) : Scalar u :=
  (h.opened.scalar hs.opening.toAtEntry hs.scalar).keep h.ran.advance.toKeeps h.ran.advance.method

theorem Bodied.main (hs : Zeroed s) : r.program.view.sort s.cursor.method = some .main := by
  rw [h.finished.settled.sort,
    (keeps_depart h.ran.finish.toOpen u.program.view_tables e).sort, ← h.method]
  exact (h.scalar hs).main

theorem Bodied.done (hs : Zeroed s) : r.program.view.Done s.cursor.method e := by
  have hentry := hs.opening.toAtEntry
  have hmade : IsMade r.program.view s.cursor.method :=
    ⟨b, s, t, u, r, e, hentry, rfl, h, .refl _ _⟩
  obtain ⟨hphis, hret⟩ := h.finished.plain (by simp [(h.scalar hs).main])
  exact ⟨h.finished.sound, h.closed, hmade.placing.1, hmade.ordered, ⟨_, h.entry hentry⟩, hphis, hret⟩

end

section

variable {ys : List Source.Stmt} (h : Bodied b s t u r e) (hs : Zeroed s)
  (hys : Source.ofSequence? b.statements = some ys)
include h hs hys

/-- Behind the entry stands the code of the statements. -/
theorem Bodied.resumes : r.program.view.code.Resumes ys (place s r.program.view) := by
  have hentry := hs.opening.toAtEntry
  have hd := h.done hs
  have hreach : t.cursor.reachable = true := by
    rw [h.opened.cursor]
    rfl
  have hlater := h.ran.later.trans h.later
  have henters : r.program.view.code.Enters (place s r.program.view) (place t r.program.view) :=
    (h.opened.atTop hentry).enters hd hlater h.opened.inBody h.opened.method hreach
      (h.opened.gone hentry) hlater
  have hcode := h.laid.implements hd h.opened.inBody hys h.later h.opened.method hreach
    (h.opened.scalar hentry hs.scalar)
  refine .enter henters ?_
  rw [← List.append_nil ys]
  cases hend : u.cursor.reachable with
  | false =>
      rw [placeBehind, if_neg (by simp [hend])] at hcode
      exact .last hcode
  | true =>
      rw [placeBehind_of_reachable hend] at hcode
      refine .run hcode (.exit (hd.exits (gone_depart h.ran.finish.toPlaced ?_
        u.program.view_tables hend) h.departed))
      exact (h.ran.finish.exit_apart e h.ran.finish.waiting.exit).2

/-- The machine and the statements meet when all zeros are made. -/
theorem Bodied.sameBehaviour (env : Env) :
    SameBehaviour (fun n => (Source.State.run env n ⟨.running, ys, fun _ => 0, []⟩).seen) fun n =>
      (r.program.view.code.run env n (r.program.view.code.start s.cursor.block)).seen := by
  have hentry := hs.opening.toAtEntry
  have hlater := h.ran.later.trans h.later
  have hgone := h.opened.gone hentry
  obtain ⟨j, hplace, -, -, -⟩ := hgone.place hlater
  have hbody : r.program.view.body s.cursor.block
      = s.program.view.body s.cursor.block ++ (place s r.program.view).rest := by
    obtain ⟨i, hleft, -⟩ := hgone.jump
    obtain ⟨-, hkept⟩ := (hlater.block _ hgone.live).sealed _ hgone.after
    rw [place, placeOf, hkept, hleft, List.drop_left]
  have hnodup : (s.program.view.body s.cursor.block ++ (place s r.program.view).rest).Nodup := by
    rw [← hbody]
    refine (h.finished.sound.wired.body_sorted s.cursor.block).imp ?_
    rintro v w hlt rfl
    exact Nat.lt_irrefl _ hlt
  have happart : (place s r.program.view).Apart := by
    refine ⟨(List.nodup_append.1 hnodup).2.1, fun x v hv hmem => ?_⟩
    exact (List.nodup_append.1 hnodup).2.2 v (hs.held x v hv) v hmem rfl
  obtain ⟨m, ⟨k, -, rfl⟩, hrunning, hblock, hrest, htrace, hregs⟩ := Code.reaches_zeros env
    (c := r.program.view.code) (s := r.program.view.code.start s.cursor.block)
    (fun v hv => hlater.op _ _ (h.opened.op hentry (hs.zeros v hv)) rfl) rfl hbody
  refine sameBehaviour_of_rejoin (Source.unfolds env _) (Code.unfolds _ env _) (Rejoin.delay (k := k) ?_)
  simp only [Code.run_add]
  refine (Code.Matched.running (h.resumes hs hys) happart ?_).rejoin
  exact ⟨hrunning, hblock, hrest, fun x v hv => hregs v (Or.inl (hs.held x v hv)), htrace⟩

end

end Body

end Build

/-! ## Nothing to blame -/

namespace Syntax

/-- A place that cannot be blamed where the variables `names` are declared. -/
def Site.Allowed (names : List String) : Site → Prop
  | .gap _ => False
  | .variable x _ _ => x ∈ names
  | .value callee _ => callee = "InputNum"

theorem Site.Allowed.mono {xs ys : List String} (h : xs ⊆ ys) {site : Site}
    (hs : site.Allowed xs) : site.Allowed ys := by
  cases site with
  | gap found => exact hs
  | «variable» x line indexed => exact h hs
  | value callee line => exact hs

end Syntax

namespace Source

open Syntax (Site)

theorem names_foldr (dropped : List Expr) (e : Expr) :
    (dropped.foldr .after e).names = dropped.flatMap Expr.names ++ e.names := by
  induction dropped with
  | nil => rfl
  | cons d rest ih => simp only [List.foldr_cons, Expr.names, ih, List.flatMap_cons, List.append_assoc]

/-- All of some places are allowed for some names. -/
abbrev Allows (names : List String) (sites : List Site) : Prop := ∀ site ∈ sites, site.Allowed names

theorem Allows.append {xs ys : List String} {as bs : List Site} (ha : Allows xs as)
    (hb : Allows ys bs) : Allows (xs ++ ys) (as ++ bs) := by
  intro site hsite
  rcases List.mem_append.1 hsite with h | h
  · exact (ha site h).mono (List.subset_append_left ..)
  · exact (hb site h).mono (List.subset_append_right ..)

mutual

theorem Expr.allows : ∀ {e : Syntax.Expr} {y : Expr}, Expr.ofTree? e = some y → Allows y.names e.sites
  | .number n line, y, h => by simp [Allows, Syntax.Expr.sites]
  | .designator (.ident x pos) is, y, h => by
      simp only [Expr.ofTree?, Option.map_eq_some_iff] at h
      obtain ⟨dropped, hdropped, rfl⟩ := h
      rw [names_foldr, Syntax.Expr.sites]
      intro site hsite
      rcases List.mem_append.1 hsite with hx | his
      · obtain rfl := List.mem_singleton.1 hx
        exact List.mem_append_right _ (List.mem_singleton_self _)
      · exact (indices_allows hdropped site his).mono (List.subset_append_left ..)
  | .group inner close, y, h => by
      rw [Syntax.Expr.sites]
      exact Expr.allows (e := inner) h
  | .arith op lhs rhs line, y, h => by
      simp only [Expr.ofTree?, Option.bind_eq_bind, Option.bind_eq_some_iff, Option.pure_def,
        Option.some.injEq] at h
      obtain ⟨a, ha, b, hb, rfl⟩ := h
      rw [Syntax.Expr.sites]
      exact (Expr.allows ha).append (Expr.allows hb)
  | .call (.ident callee pos) args close, y, h => by
      simp only [Expr.ofTree?] at h
      split at h
      · next hcallee =>
          obtain ⟨dropped, hdropped, rfl⟩ := Option.map_eq_some_iff.1 h
          rw [names_foldr, Syntax.Expr.sites]
          intro site hsite
          rcases List.mem_append.1 hsite with hx | hargs
          · obtain rfl := List.mem_singleton.1 hx
            exact hcallee
          · exact (arguments_allows hdropped site hargs).mono (List.subset_append_left ..)
      · cases h
  | .designator (.missing _) _, y, h => by simp [Expr.ofTree?] at h
  | .call (.missing _) _ _, y, h => by simp [Expr.ofTree?] at h
  | .missing _, y, h => by simp [Expr.ofTree?] at h

theorem indices_allows : ∀ {is : Syntax.Indices} {ys : List Expr}, ofIndices? is = some ys →
    Allows (ys.flatMap Expr.names) is.sites
  | .nil, ys, h => by simp [Allows, Syntax.Indices.sites]
  | .cons index close rest, ys, h => by
      simp only [ofIndices?, Option.bind_eq_bind, Option.bind_eq_some_iff, Option.pure_def,
        Option.some.injEq] at h
      obtain ⟨a, ha, as, has, rfl⟩ := h
      rw [Syntax.Indices.sites, List.flatMap_cons]
      exact (Expr.allows ha).append (indices_allows has)

theorem arguments_allows : ∀ {args : Syntax.Arguments} {ys : List Expr}, ofArguments? args = some ys →
    Allows (ys.flatMap Expr.names) args.sites
  | .nil, ys, h => by simp [Allows, Syntax.Arguments.sites]
  | .cons argument rest, ys, h => by
      simp only [ofArguments?, Option.bind_eq_bind, Option.bind_eq_some_iff, Option.pure_def,
        Option.some.injEq] at h
      obtain ⟨a, ha, as, has, rfl⟩ := h
      rw [Syntax.Arguments.sites, List.flatMap_cons]
      exact (Expr.allows ha).append (arguments_allows has)

end

theorem Test.allows {r : Syntax.Relation} {t : Test} (h : Test.ofTree? r = some t) :
    Allows t.names r.sites := by
  cases r with
  | noOperator lhs found => simp [Test.ofTree?] at h
  | compare lhs op line rhs =>
      simp only [Test.ofTree?, Option.bind_eq_bind, Option.bind_eq_some_iff, Option.pure_def,
        Option.some.injEq] at h
      obtain ⟨a, ha, b, hb, rfl⟩ := h
      exact (Expr.allows ha).append (Expr.allows hb)

theorem names_ofCall {callee : String} {args : List Expr} {y : Stmt}
    (h : Stmt.ofCall? callee args = some y) : y.names = args.flatMap Expr.names := by
  unfold Stmt.ofCall? at h
  split at h
  · split at h
    · obtain rfl := Option.some.inj h
      simp [Stmt.names]
    · cases h
  · split at h
    · obtain rfl := Option.some.inj h
      simp [Stmt.names]
    · cases h

mutual

theorem Stmt.allows : ∀ {s : Syntax.Stmt} {y : Stmt}, Stmt.ofTree? s = some y → Allows y.names s.sites
  | .assign (.ident x pos) is arrow value, y, h => by
      simp only [Stmt.ofTree?, Option.bind_eq_bind, Option.bind_eq_some_iff, Option.pure_def,
        Option.some.injEq] at h
      obtain ⟨dropped, hdropped, e, he, rfl⟩ := h
      rw [Stmt.names, names_foldr, Syntax.Stmt.sites, List.append_assoc]
      have hvariable : Allows [x] [.variable x pos.line !is.isEmpty] := by
        intro site hsite
        obtain rfl := List.mem_singleton.1 hsite
        exact List.mem_singleton_self _
      exact hvariable.append ((indices_allows hdropped).append (Expr.allows he))
  | .call (.ident callee pos) args close, y, h => by
      simp only [Stmt.ofTree?, Option.bind_eq_bind, Option.bind_eq_some_iff] at h
      obtain ⟨es, hes, h⟩ := h
      rw [names_ofCall h, Syntax.Stmt.sites]
      exact arguments_allows hes
  | .ifThen line condition thenMark yes thenLine no endLine fi, y, h => by
      simp only [Stmt.ofTree?, Option.bind_eq_bind, Option.bind_eq_some_iff, Option.pure_def,
        Option.some.injEq] at h
      obtain ⟨t, ht, as, has, bs, hbs, rfl⟩ := h
      rw [Stmt.names, Syntax.Stmt.sites]
      exact ((Test.allows ht).append (sequence_allows has)).append (sequence_allows hbs)
  | .whileDo line condition doMark body endLine od, y, h => by
      simp only [Stmt.ofTree?, Option.bind_eq_bind, Option.bind_eq_some_iff, Option.pure_def,
        Option.some.injEq] at h
      obtain ⟨t, ht, as, has, rfl⟩ := h
      rw [Stmt.names, Syntax.Stmt.sites]
      exact (Test.allows ht).append (sequence_allows has)
  | .ret pos none, y, h => by simp [Allows, Syntax.Stmt.sites]
  | .ret pos (some value), y, h => by
      simp only [Stmt.ofTree?, Option.bind_eq_bind, Option.bind_eq_some_iff, Option.pure_def,
        Option.some.injEq] at h
      obtain ⟨e, he, rfl⟩ := h
      rw [Stmt.names, Syntax.Stmt.sites]
      exact Expr.allows he
  | .assign (.missing _) _ _ _, y, h => by simp [Stmt.ofTree?] at h
  | .call (.missing _) _ _, y, h => by simp [Stmt.ofTree?] at h
  | .unknown _, y, h => by simp [Stmt.ofTree?] at h

theorem sequence_allows : ∀ {q : Syntax.Sequence} {ys : List Stmt}, ofSequence? q = some ys →
    Allows (namesOf ys) q.sites
  | .nil, ys, h => by simp [Allows, Syntax.Sequence.sites]
  | .cons separated first s rest, ys, h => by
      simp only [ofSequence?, Option.bind_eq_bind, Option.bind_eq_some_iff, Option.pure_def,
        Option.some.injEq] at h
      obtain ⟨a, ha, as, has, rfl⟩ := h
      rw [namesOf, Syntax.Sequence.sites]
      exact (Stmt.allows ha).append (sequence_allows has)

end

/-- What a declaration of scalars is. -/
theorem ofDecl?_eq_some {d : Syntax.VarDecl} {xs : List String} (h : ofDecl? d = some xs) :
    d.type = .scalar ∧ d.sites = [] ∧ d.declared = xs := by
  unfold ofDecl? at h
  split at h
  · next htype =>
      refine ⟨htype, ?_⟩
      unfold Syntax.VarDecl.sites Syntax.VarDecl.declared
      rw [htype]
      generalize d.names = names at h
      induction names generalizing xs with
      | nil =>
          obtain rfl := Option.some.inj h
          exact ⟨rfl, rfl⟩
      | cons x rest ih =>
          simp only [List.mapM_cons, Option.bind_eq_bind, Option.bind_eq_some_iff, Option.pure_def,
            Option.some.injEq] at h
          obtain ⟨text, hx, ys, hys, rfl⟩ := h
          obtain ⟨hsites, hdeclared⟩ := ih hys
          cases x with
          | missing found => cases hx
          | ident y pos =>
              obtain rfl := Option.some.inj hx
              refine ⟨hsites, ?_⟩
              rw [List.flatMap_cons, hdeclared]
              rfl
  · cases h

theorem ofDecls?_eq_some {ds : List Syntax.VarDecl} {xss : List (List String)}
    (h : ds.mapM ofDecl? = some xss) : (∀ d ∈ ds, d.type = .scalar)
      ∧ ds.flatMap Syntax.VarDecl.sites = [] ∧ ds.flatMap Syntax.VarDecl.declared = xss.flatten := by
  induction ds generalizing xss with
  | nil =>
      obtain rfl := Option.some.inj h
      exact ⟨by simp, rfl, rfl⟩
  | cons d rest ih =>
      simp only [List.mapM_cons, Option.bind_eq_bind, Option.bind_eq_some_iff, Option.pure_def,
        Option.some.injEq] at h
      obtain ⟨xs, hxs, yss, hyss, rfl⟩ := h
      obtain ⟨htype, hsites, hdeclared⟩ := ofDecl?_eq_some hxs
      obtain ⟨htypes, hsites', hdeclared'⟩ := ih hyss
      refine ⟨List.forall_mem_cons.2 ⟨htype, htypes⟩, ?_, ?_⟩
      · rw [List.flatMap_cons, hsites, hsites', List.append_nil]
      · rw [List.flatMap_cons, hdeclared, hdeclared', List.flatten_cons]

/-- The parts of a tree that is a computation on scalars. -/
structure IsScalar (t : Syntax.Computation) (c : Computation) : Prop where
  methods : t.methods = []
  scalars : ∀ d ∈ t.varDecls, d.type = .scalar
  sites : t.sites = t.body.statements.sites
  declared : t.glossary.globals = c.scalars
  body : ofSequence? t.body.statements = some c.body

theorem isScalar_of_tree {t : Syntax.Computation} {c : Computation}
    (h : Computation.ofTree? t = some c) : IsScalar t c := by
  unfold Computation.ofTree? at h
  split at h
  · next hmethods =>
      rw [List.isEmpty_iff] at hmethods
      simp only [Option.bind_eq_bind, Option.bind_eq_some_iff, Option.pure_def,
        Option.some.injEq] at h
      obtain ⟨xss, hxss, ys, hys, rfl⟩ := h
      obtain ⟨htypes, hsites, hdeclared⟩ := ofDecls?_eq_some hxss
      refine ⟨hmethods, htypes, ?_, hdeclared, hys⟩
      unfold Syntax.Computation.sites
      rw [hsites, hmethods]
      rfl
  · cases h

/-- There is no error in a computation that declares the variables it uses. -/
theorem IsScalar.not_blames {t : Syntax.Computation} {c : Computation} (h : IsScalar t c)
    (hd : c.Declared) (e : Error) : ¬t.Blames e := by
  have hallows := sequence_allows h.body
  have harrays : t.glossary.arrays = [] := by
    refine List.flatMap_eq_nil_iff.2 fun d hmem => ?_
    rw [Syntax.Computation.allVarDecls, h.methods] at hmem
    exact if_pos (h.scalars d (by simpa using hmem))
  have hfunctions : t.glossary.functions = [] := by
    show t.methods.flatMap _ = []
    rw [h.methods]
    rfl
  unfold Syntax.Computation.Blames Syntax.Glossary.Justifies
  rw [h.sites, h.declared, harrays, hfunctions]
  split
  · rintro ⟨found, hfound, -⟩
    exact hallows _ hfound
  · rintro ⟨⟨indexed, hx⟩, hnot⟩
    exact hnot (hd (hallows _ hx))
  · rintro ⟨-, hmem, -⟩
    cases hmem
  · rintro ⟨hvalue, hne⟩
    exact hne (hallows _ hvalue)
  · exact List.not_mem_nil
  · exact id

end Source

/-! ## Computations on scalars -/

/-- Whatever the tokens, where their tree is a computation on scalars it is built, and
behaves as its statements do. -/
theorem buildTokens_sameBehaviour {tokens : List Token} (earlier : List Diagnostic)
    {c : Source.Computation} (hc : Source.IsScalar (Syntax.read tokens) c) (hd : c.Declared) :
    ∃ built m, buildTokens tokens earlier = .ok built ∧ built.program.method? ⟨0⟩ = some m
      ∧ m.kind = .main ∧ ∀ env, SameBehaviour (c.observe env) (built.program.observe env m) := by
  cases hbuilt : buildTokens tokens earlier with
  | error stop =>
      obtain ⟨e, -, hblames⟩ := buildTokens_blames hbuilt
      exact absurd hblames (hc.not_blames hd _)
  | ok built =>
      have hmeets := Build.computation_bodied hc.methods hc.scalars earlier
      unfold buildTokens at hbuilt
      split at hbuilt
      · next hrun =>
          obtain rfl := Except.ok.inj hbuilt
          obtain ⟨s, t, u, r, e, hs, hbody, hprogram⟩ := hmeets.of_ok hrun
          have hmain := hbody.main hs
          have hstart := hbody.entry hs.opening.toAtEntry
          rw [hs.method] at hmain hstart
          obtain ⟨m, hm⟩ := Program.method_of_sort (p := r.program) (m := ⟨0⟩) (by simp [hmain])
          obtain ⟨hkind, hentry, -⟩ := Program.view_of_method hm
          refine ⟨_, m, rfl, by rw [hprogram]; exact hm, ?_, fun env => ?_⟩
          · exact Option.some.inj (hkind.symm.trans hmain)
          · have hsame := hbody.sameBehaviour hs hc.body env
            rw [Option.some.inj (hstart.symm.trans hentry)] at hsame
            unfold Program.observe
            rw [hprogram]
            exact hsame
      · cases hbuilt

theorem Segment.kind_ne_eof {s : Segment} {kind : TokenKind} (h : s.kind? = .ok (some kind)) :
    kind ≠ .eof := by
  rintro rfl
  cases s with
  | number digits =>
      unfold Segment.kind? at h
      dsimp only at h
      split at h <;> cases h
  | word letters =>
      unfold Segment.kind? TokenKind.ofWord at h
      dsimp only at h
      split at h <;> cases h
  | punct p => cases h
  | _ => cases h

theorem lex_ne_eof (segments : List Segment) (pos : Pos) :
    ∀ t ∈ (lex segments pos).tokens, t.kind ≠ .eof := by
  induction segments generalizing pos with
  | nil => simp [lex]
  | cons s rest ih =>
      unfold lex
      dsimp only
      cases hkind : s.kind? with
      | error digits => simp
      | ok kind? =>
          cases kind? with
          | none => exact ih _
          | some kind => exact List.forall_mem_cons.2 ⟨Segment.kind_ne_eof hkind, ih _⟩

/-- The tokens of a text are closed by the only end marker. -/
theorem scan_closed {source : String} {inner : List Token} {last : Token}
    (h : (Scanner.ofText source).scan.1 = .ok (inner ++ [last])) :
    (∀ t ∈ inner, t.kind ≠ .eof) ∧ last.kind = .eof := by
  cases hfailure : (lex (Scanner.ofText source).rest (Scanner.ofText source).pos).failure with
  | some e => cases h.symm.trans (Scanner.scan_of_some hfailure)
  | none =>
      obtain ⟨htokens, -⟩ := Scanner.scan_of_none hfailure
      obtain ⟨rfl, hlast⟩ := List.append_inj' (Except.ok.inj (h.symm.trans htokens)) rfl
      obtain rfl := List.singleton_inj.1 hlast
      exact ⟨lex_ne_eof _ _, rfl⟩

/-- A text that is a sentence, with anything behind it, is built where its tree is a
computation on scalars that declares the variables it uses. Whatever it reads, the program
shows what the statements show, and comes to the same end if they come to one. -/
theorem build_sameBehaviour {source : String} {t : Syntax.Computation} {sentence more : List Token}
    {last : Token} {c : Source.Computation}
    (hscan : (Scanner.ofText source).scan.1 = .ok (sentence ++ more ++ [last]))
    (htext : Syntax.ComputationText t sentence) (hc : Source.Computation.ofTree? t = some c)
    (hd : c.Declared) :
    ∃ built m, build source = .ok built ∧ built.program.method? ⟨0⟩ = some m ∧ m.kind = .main
      ∧ ∀ env, SameBehaviour (c.observe env) (built.program.observe env m) := by
  obtain ⟨hinner, hlast⟩ := scan_closed hscan
  obtain ⟨trailing, hread⟩ := Syntax.read_sentence htext hinner hlast
  have hscalar : Source.IsScalar (Syntax.read (sentence ++ more ++ [last])) c := by
    rw [hread]
    exact Source.isScalar_of_tree hc
  obtain ⟨built, m, hbuilt, hmain⟩ := buildTokens_sameBehaviour
    (Scanner.ofText source).scan.2.diagnostics hscalar hd
  refine ⟨{ built with diagnostics := Diagnostic.sort built.diagnostics }, m, ?_, hmain⟩
  unfold build
  generalize (Scanner.ofText source).scan = scanned at hscan hbuilt
  obtain ⟨_, scanner⟩ := scanned
  obtain rfl := hscan
  dsimp only at hbuilt ⊢
  rw [hbuilt]
  rfl

/-- Count down from a number of the input, and divide by what is left. -/
def countdown : String :=
  "main var a; \x7b let a <- call InputNum(); while a > 0 do let a <- a - 1 od; "
    ++ "call OutputNum(1 / a) \x7d."

def countdownTokens : List Token :=
  [(.keyword .main, 1), (.keyword .var, 6), (.ident "a", 10), (.punct .semicolon, 11),
    (.punct .lbrace, 13), (.keyword .let_, 15), (.ident "a", 19), (.punct .arrow, 21),
    (.keyword .call, 24), (.ident "InputNum", 29), (.punct .lparen, 37), (.punct .rparen, 38),
    (.punct .semicolon, 39), (.keyword .while_, 41), (.ident "a", 47), (.punct .gt, 49),
    (.number 0, 51), (.keyword .do_, 53), (.keyword .let_, 56), (.ident "a", 60),
    (.punct .arrow, 62), (.ident "a", 65), (.punct .minus, 67), (.number 1, 69),
    (.keyword .od, 71), (.punct .semicolon, 73), (.keyword .call, 75), (.ident "OutputNum", 80),
    (.punct .lparen, 89), (.number 1, 90), (.punct .slash, 92), (.ident "a", 94),
    (.punct .rparen, 95), (.punct .rbrace, 97), (.punct .period, 98)].map fun p => ⟨p.1, p.1.text, ⟨1, p.2⟩⟩

open Syntax in
theorem countdown_sameBehaviour : ∃ t c built m,
    (Scanner.ofText countdown).scan.1 = .ok (countdownTokens ++ [] ++ [⟨.eof, "", ⟨1, 99⟩⟩])
    ∧ ComputationText t countdownTokens ∧ Source.Computation.ofTree? t = some c ∧ c.Declared
    ∧ build countdown = .ok built ∧ built.program.method? ⟨0⟩ = some m
    ∧ ∀ env, SameBehaviour (c.observe env) (built.program.observe env m) := by
  have hscan : (Scanner.ofText countdown).scan.1.toOption
      = some (countdownTokens ++ [] ++ [⟨.eof, "", ⟨1, 99⟩⟩]) := by
    decide +kernel
  have hdecl : VarDeclText _ ((countdownTokens.drop 1).take 3) := .intro (.scalar rfl) (.one rfl) rfl
  have hinput : CallText _ _ ((countdownTokens.drop 8).take 4) := .empty rfl rfl rfl rfl
  have hfirst : StmtText _ ((countdownTokens.drop 5).take 7) :=
    .assign rfl rfl .nil rfl (.term (.factor (.call hinput)))
  have htest : RelationText (.compare _ .gt _ _) ((countdownTokens.drop 14).take 3) :=
    .compare (.term (.factor (.designator rfl .nil))) rfl (.term (.factor (.number rfl)))
  have hless : ExprText _ ((countdownTokens.drop 21).take 3) :=
    .sum (.term (.factor (.designator rfl .nil))) (Or.inr rfl) rfl (.factor (.number rfl))
  have hbody : SequenceText _ ((countdownTokens.drop 18).take 6) :=
    .one (.assign rfl rfl .nil rfl hless)
  have hloop : StmtText _ ((countdownTokens.drop 13).take 12) := .whileDo rfl htest rfl hbody rfl
  have hquotient : TermText _ ((countdownTokens.drop 29).take 3) :=
    .product (.factor (.number rfl)) (Or.inr rfl) rfl (.designator rfl .nil)
  have hlast : StmtText _ ((countdownTokens.drop 26).take 7) :=
    .call (.parens rfl rfl rfl (.one (.term hquotient)) rfl)
  have hall : SequenceText _ ((countdownTokens.drop 5).take 28) :=
    .cons hfirst rfl (.cons hloop rfl (.one hlast))
  have htext : ComputationText ⟨.present, _, [], _, .present, none⟩ countdownTokens :=
    .intro rfl (.cons hdecl .nil) .nil (.intro rfl hall rfl) rfl
  cases hrun : (Scanner.ofText countdown).scan.1 with
  | error e =>
      rw [hrun] at hscan
      cases hscan
  | ok tokens =>
      rw [hrun] at hscan
      obtain rfl := Option.some.inj hscan
      obtain ⟨built, m, hbuilt, hm, -, hsame⟩ := build_sameBehaviour hrun htext rfl (by decide)
      exact ⟨_, _, built, m, rfl, htext, rfl, by decide, hbuilt, hm, hsame⟩

/-- A variable that is assigned but nowhere declared. -/
def undeclaredAssign : String := "main \x7b let a <- 1 \x7d."

def undeclaredAssignTokens : List Token :=
  [(.keyword .main, 1), (.punct .lbrace, 6), (.keyword .let_, 8), (.ident "a", 12),
    (.punct .arrow, 14), (.number 1, 17), (.punct .rbrace, 19), (.punct .period, 20)].map fun p =>
      ⟨p.1, p.1.text, ⟨1, p.2⟩⟩

open Syntax in
/-- Without the declaration the computation is still one on scalars, but it is not built. -/
theorem undeclaredAssign_not_built : ∃ t c,
    (Scanner.ofText undeclaredAssign).scan.1.toOption
      = some (undeclaredAssignTokens ++ [⟨.eof, "", ⟨1, 21⟩⟩])
    ∧ ComputationText t undeclaredAssignTokens ∧ Source.Computation.ofTree? t = some c
    ∧ ¬c.Declared ∧ ∀ built, build undeclaredAssign ≠ .ok built := by
  have hassign : StmtText _ ((undeclaredAssignTokens.drop 2).take 4) :=
    .assign rfl rfl .nil rfl (.term (.factor (.number rfl)))
  have htext : ComputationText ⟨.present, [], [], _, .present, none⟩ undeclaredAssignTokens :=
    .intro rfl .nil .nil (.intro rfl (.one hassign) rfl) rfl
  have hfails : (build undeclaredAssign).toOption.isNone = true := by decide +kernel
  refine ⟨_, _, by decide +kernel, htext, rfl, by decide, fun built hbuilt => ?_⟩
  rw [hbuilt] at hfails
  cases hfails

end StructuredSsa
