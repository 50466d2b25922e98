import StructuredSsa.Proofs.Finish

/-!
# Declarations

Names are declared while the cursor is in the entry block of their method, which
is the only block the method has then (`Opening`). A scalar gets a value in the
step that declares it, so that whatever is tracked is bound.
-/

namespace StructuredSsa

/-- An operation that no variable in memory is passed by: it neither reads nor writes
one, nor does it call a method. -/
def Op.isLocal : Op → Bool
  | .phi .. | .call .. | .loadGlobal _ | .storeGlobal .. => false
  | _ => true

theorem Scope.scalars_declare (sc : Scope) (d : Symbol) : (sc.declare d).scalars =
    if sc.contains d.name = false ∧ d.shape = .scalar then sc.scalars ++ [d.name]
    else sc.scalars := by
  unfold Scope.declare
  by_cases hc : sc.contains d.name = true
  · simp [hc]
  · by_cases hd : d.shape = .scalar <;> simp [hc, hd, Scope.scalars]

theorem Scope.not_mem_scalars {sc : Scope} {x : String} (h : sc.contains x = false) :
    x ∉ sc.scalars := by
  intro hx
  rw [Scope.scalars, List.mem_map] at hx
  obtain ⟨d, hd, rfl⟩ := hx
  have hfound : sc.contains d.name = true := by
    rw [Scope.contains, Scope.find?, List.find?_isSome]
    exact ⟨d, List.mem_of_mem_filter hd, by simp⟩
  rw [h] at hfound
  cases hfound

namespace View

/-! ## Declaring a name -/

/-- Declare a name in the scope of a method. -/
def declareIn (w : View) (m : MethodId) (d : Symbol) : View :=
  { w with
    symbols := fun n =>
      if n = m ∧ w.sort m ≠ some .main then (w.symbols m).declare d else w.symbols n
    globals := if w.sort m = some .main then w.globals.declare d else w.globals }

theorem scopeOf_declareIn (w : View) (m : MethodId) (d : Symbol) :
    (w.declareIn m d).scopeOf m = (w.scopeOf m).declare d := by
  unfold declareIn scopeOf
  cases hs : w.sort m with
  | none => simp
  | some k => cases k <;> simp

theorem scopeOf_of_ne {w : View} {m : MethodId} (h : w.sort m ≠ some .main) :
    w.scopeOf m = w.symbols m := by
  unfold scopeOf
  split
  · next hm => exact absurd hm h
  · rfl

/-- A method of which only the entry exists, with the cursor there. -/
structure AtEntry (w : View) (c : Cursor) : Prop extends Ready w c where
  before : w.before c.block = some .empty
  code : ∀ v ∈ w.body c.block, ∃ o, w.op v = some o ∧ o.isLocal = true
  reachable : c.reachable = true
  start : w.entry c.method = some c.block
  no_exit : w.exit c.method = none
  alone : ∀ b, w.home b = some c.method → b = c.block
  distinct : (w.tracked c.method).Nodup

/-- Names can be declared: no other method declares them in the same scope. -/
structure Opening (w : View) (c : Cursor) : Prop extends AtEntry w c where
  one_main : ∀ n, w.sort c.method = some .main → w.sort n = some .main → n = c.method

section Opening

variable {w : View} {c : Cursor}

theorem scopeOf_declareIn_of_ne (h : w.Opening c) (d : Symbol) {n : MethodId}
    (hn : n ≠ c.method) : (w.declareIn c.method d).scopeOf n = w.scopeOf n := by
  have hmain := h.one_main n
  have hsort : (w.declareIn c.method d).sort n = w.sort n := rfl
  rw [scopeOf, hsort]
  cases hs : w.sort n with
  | none => simp [scopeOf, declareIn, hs, hn]
  | some k =>
      cases k with
      | main =>
          have hne : w.sort c.method ≠ some .main := fun hc => hn (hmain hc hs)
          simp [scopeOf, declareIn, hs, hne]
      | function => simp [scopeOf, declareIn, hs, hn]
      | procedure => simp [scopeOf, declareIn, hs, hn]

theorem AtEntry.phis (h : w.AtEntry c) : w.phis c.block = [] := by
  have hentry := (h.wired.isEntry_entry c.block c.method h.start).1
  by_contra hne
  exact h.wired.phis_preds c.block hne (h.wired.entry_preds c.block hentry)

/-- The blocks of other methods track what they did, and the entry has no phis
and is not sealed. -/
theorem Opening.sound_declare (h : w.Opening c) (d : Symbol) :
    (w.declareIn c.method d).Sound := by
  have htracked {b : BlockId} {n : MethodId} (hb : w.home b = some n) (hbc : b ≠ c.block) :
      (w.declareIn c.method d).tracked n = w.tracked n := by
    have hn : n ≠ c.method := by
      rintro rfl
      exact hbc (h.alone b hb)
    rw [tracked, scopeOf_declareIn_of_ne h d hn, tracked]
  refine ⟨{ h.wired with }, ?_, h.ended, h.sole⟩
  refine { h.scoping with
    phi_tracked := fun v b n x os hv ho hn hk => ?_
    after_bound := fun b n st x hst hn hx => ?_ }
  · have hbc : b ≠ c.block := by
      rintro rfl
      change v ∈ w.phis c.block at hv
      rw [h.phis] at hv
      cases hv
    rw [htracked hn hbc]
    exact h.scoping.phi_tracked v b n x os hv ho hn hk
  · have hbc : b ≠ c.block := by
      rintro rfl
      change w.after c.block = some st at hst
      rw [h.opened] at hst
      cases hst
    rw [htracked hn hbc] at hx
    exact h.scoping.after_bound b n st x hst hn hx

/-- With the new name bound, if it is tracked. -/
theorem Opening.declare (h : w.Opening c) (d : Symbol) (st : Bindings)
    (hbound : ∀ x ∈ (w.declareIn c.method d).tracked c.method, ∃ v, st.get? x = some v)
    (husable : ∀ x v, st.get? x = some v → w.Usable c v)
    (hknown : ∀ x v, st.get? x = some v → x ∈ (w.declareIn c.method d).tracked c.method)
    (hdistinct : ((w.declareIn c.method d).tracked c.method).Nodup) :
    (w.declareIn c.method d).Opening { c with bindings := st } :=
  { h with
    toSound := h.sound_declare d
    bound := hbound
    usable := husable
    known := fun _ => hknown
    distinct := hdistinct }

/-- A declaration in a method touches no other one. -/
theorem outside_declareIn {m : MethodId} (hm : w.sort m ≠ some .main) (d : Symbol) :
    Outside w (w.declareIn m d) m :=
  { Outside.refl w m with
    block := fun _ _ _ _ => ⟨rfl, rfl, rfl, rfl, rfl, rfl, rfl, rfl, rfl⟩
    symbols := fun _ hn => if_neg fun h => hn h.1
    globals := if_neg hm }

/-- A name that adds nothing to what is tracked. -/
theorem Opening.declare_same (h : w.Opening c) (d : Symbol)
    (hsame : (w.declareIn c.method d).tracked c.method = w.tracked c.method) :
    (w.declareIn c.method d).Opening c := by
  refine h.declare d c.bindings ?_ h.usable ?_ ?_ <;> rw [hsame]
  · exact h.bound
  · exact h.known h.reachable
  · exact h.distinct

/-- A name that is bound to a value that was made for it. -/
theorem Opening.declare_new (h : w.Opening c) (d : Symbol) {v : ValueId} (hv : w.Usable c v)
    (hfresh : (w.scopeOf c.method).contains d.name = false) (hshape : d.shape = .scalar) :
    (w.declareIn c.method d).Opening { c with bindings := c.bindings.bind d.name v } := by
  have hnew : (w.declareIn c.method d).tracked c.method = w.tracked c.method ++ [d.name] := by
    rw [tracked, scopeOf_declareIn, Scope.scalars_declare, if_pos ⟨hfresh, hshape⟩]
    rfl
  refine h.declare d _ ?_ ?_ ?_ ?_
  case refine_4 =>
    rw [hnew, List.nodup_append]
    refine ⟨h.distinct, by simp, fun x hx y hy hxy => ?_⟩
    rw [List.mem_singleton.1 hy] at hxy
    exact Scope.not_mem_scalars hfresh (hxy ▸ hx)
  all_goals intro x
  · intro hx
    rw [Bindings.get?_bind]
    rw [hnew, List.mem_append, List.mem_singleton] at hx
    by_cases hxd : x = d.name
    · exact ⟨v, if_pos hxd⟩
    · obtain ⟨u, hu⟩ := h.bound x (hx.resolve_right hxd)
      exact ⟨u, (if_neg hxd).trans hu⟩
  · intro u hu
    rw [Bindings.get?_bind] at hu
    split at hu
    · exact Option.some.inj hu ▸ hv
    · exact h.usable x u hu
  · intro u hu
    rw [Bindings.get?_bind] at hu
    rw [hnew, List.mem_append, List.mem_singleton]
    split at hu
    · next hxd => exact Or.inr hxd
    · exact Or.inl (h.known h.reachable x u hu)

theorem Opening.emit (h : w.Opening c) (ht : w.Tables) (op : Op) (hphi : op.isPhi = false)
    (hterm : op.isTerminator = false) (hops : op.operands = []) (hlocal : op.isLocal = true) :
    (w.emit c.block op).Opening c := by
  refine { h with
    toReady := h.toReady.emit ht hphi hterm (by simp [hops])
    code := fun v hv => ?_ }
  change v ∈ (if c.block = c.block then w.body c.block ++ [⟨w.values⟩] else _) at hv
  rw [if_pos rfl, List.mem_append, List.mem_singleton] at hv
  by_cases hnew : v = ⟨w.values⟩
  · exact ⟨op, if_pos hnew, hlocal⟩
  · obtain ⟨o, ho, hlocal⟩ := h.code v (hv.resolve_right hnew)
    exact ⟨o, (if_neg hnew).trans ho, hlocal⟩

/-- Listing a parameter. -/
theorem Opening.setKind (h : w.Opening c) {vs : List ValueId} (vs' : List ValueId)
    (hvs : w.kind c.block = some (.entry vs)) : (w.setKind c.block (.entry vs')).Opening c := by
  have hsole : ∀ b m, (w.setKind c.block (.entry vs')).kind b = some .exit →
      w.home b = some m → w.exit m = some b := by
    intro b m hb hm
    change (if b = c.block then some (.entry vs') else w.kind b) = _ at hb
    split at hb
    · cases hb
    · exact h.sole b m hb hm
  have hkind : (w.setKind c.block (.entry vs')).kind c.block = some (.entry vs') := if_pos rfl
  refine { h with
    wired := h.wired.setKind hvs
    scoping := h.scoping.setKind hvs
    ended := fun b hl hb => h.ended b ((live_setKind hvs).1 hl) hb
    sole := hsole
    present := by simp [hkind]
    not_exit := by simp [hkind]
    exit_apart := fun b hb => ?_
    live := h.live.trans (live_setKind hvs).symm }
  rw [show (w.setKind c.block (.entry vs')).exit c.method = w.exit c.method from rfl, h.no_exit] at hb
  cases hb

theorem outside_setKind {m : MethodId} {b : BlockId} (hb : w.home b = some m) (k : BlockKind) :
    Outside w (w.setKind b k) m := by
  refine { Outside.refl w m with block := fun c n hc hn => ?_ }
  have hcb : c ≠ b := by
    rintro rfl
    exact hn (Option.some.inj (hc.symm.trans hb))
  exact ⟨if_neg hcb, rfl, rfl, rfl, rfl, rfl, rfl, rfl, rfl⟩

end Opening

end View

namespace Program

open View

/-- A change to a method that only declares a name. -/
theorem view_declareLocal {p : Program} {m : MethodId} {r : Method} (f : Method → Method)
    (hr : p.method? m = some r) (hm : p.view.sort m ≠ some .main) (d : Symbol)
    (hkind : (f r).kind = r.kind) (hentry : (f r).entry = r.entry) (hexit : (f r).exit = r.exit)
    (hblocks : (f r).blocks = r.blocks) (hsymbols : (f r).symbols = r.symbols.declare d) :
    (p.modifyMethod m f).view = p.view.declareIn m d := by
  obtain ⟨h1, h2, h3, h4, h5⟩ := view_of_method hr
  rw [view_modifyMethod f hr, hkind, hentry, hexit, hblocks, hsymbols, ite_eq_self h1,
    ite_eq_self h2, ite_eq_self h3, ite_eq_self h4, ← h5]
  simp [declareIn, hm]

end Program

namespace Build

open View

abbrev Opening (s : Builder) : Prop := s.program.view.Opening s.cursor

/-- What declarations do. -/
structure Declares (s t : Builder) : Prop where
  opening : Opening t
  method : t.cursor.method = s.cursor.method
  sort : t.program.view.sort = s.program.view.sort
  outside : s.program.view.sort s.cursor.method ≠ some .main →
    Outside s.program.view t.program.view s.cursor.method

theorem Declares.refl {s : Builder} (h : Opening s) : Declares s s :=
  ⟨h, rfl, rfl, fun _ => .refl _ _⟩

theorem Declares.trans {s t u : Builder} (h : Declares s t) (k : Declares t u) : Declares s u where
  opening := k.opening
  method := k.method.trans h.method
  sort := k.sort.trans h.sort
  outside hm := by
    have hk := k.outside
    rw [h.method, h.sort] at hk
    exact (h.outside hm).trans (hk hm)

variable {E : Error → Prop} {s : Builder}

theorem declareName_meets (hm : s.program.view.sort s.cursor.method ≠ none) (d : Symbol) :
    Meets E (declareName d) s fun new t =>
      new = !(s.program.view.scopeOf s.cursor.method).contains d.name ∧ t.cursor = s.cursor
        ∧ t.program.view = s.program.view.declareIn s.cursor.method d := by
  unfold declareName
  refine meets_cursor (method_meets hm fun r hr => ?_)
  obtain ⟨hsort, -, -, -, hsymbols⟩ := Program.view_of_method hr
  split
  · next hmain =>
      rw [hmain] at hsort
      refine meets_get (meets_bind_edit rfl (meets_pure ⟨?_, rfl, ?_⟩))
      · rw [scopeOf, hsort]
        rfl
      · simp only [declareIn, hsort, if_true, ne_eq, not_true_eq_false, and_false, if_false]
        rfl
  · next hmain =>
      have hne : s.program.view.sort s.cursor.method ≠ some .main := by
        rw [hsort]
        exact fun h => hmain (Option.some.inj h)
      refine meets_bind_edit rfl (meets_pure ⟨?_, rfl, ?_⟩)
      · rw [scopeOf_of_ne hne, hsymbols]
      · exact Program.view_declareLocal _ hr hne d rfl rfl rfl rfl rfl

/-- A declared name and an instruction for it. -/
theorem outside_emit (h : Opening s) (hm : s.program.view.sort s.cursor.method ≠ some .main)
    (d : Symbol) {op : Op} (hphi : op.isPhi = false) (hops : op.operands = []) {p q : Program}
    (hp : p.view = s.program.view.declareIn s.cursor.method d)
    (hq : q.view = p.view.emit s.cursor.block op) :
    Outside s.program.view q.view s.cursor.method := by
  have hdeclare := outside_declareIn hm d
  have hwired : p.view.Wired := hp ▸ (h.sound_declare d).wired
  have htq := q.view_tables
  rw [hq] at htq ⊢
  rw [← hp] at hdeclare
  refine hdeclare.trans ((keeps_emit p.view_tables _ op).outside p.view_tables htq hwired
    (hwired.emit p.view_tables (fun n hn => ?_) hphi (by simp [hops])) (fun b n hb hn => ?_)
    fun b hb hz => absurd hb hz)
  · rw [hp] at hn ⊢
    exact h.listed n hn
  · rw [hb, hp] at hn
    exact Option.some.inj (hn.symm.trans h.home)

theorem declares_only (d : Symbol) {t : Builder} (ht : Opening t)
    (hct : t.cursor.method = s.cursor.method)
    (hview : t.program.view = s.program.view.declareIn s.cursor.method d) : Declares s t := by
  refine ⟨ht, hct, by rw [hview]; rfl, fun hm => ?_⟩
  rw [hview]
  exact outside_declareIn hm d

/-- Declaring a variable. -/
theorem declare_meets (h : Opening s) (shape : Shape) (x : String) (pos : Pos) :
    Meets E (declare shape x pos) s fun _ t => Declares s t := by
  unfold declare
  refine Meets.bind (declareName_meets h.has_method _) ?_
  rintro new t ⟨rfl, hc, hview⟩
  have ht := s.program.view_tables
  have hpresent : t.program.view.kind t.cursor.block ≠ none := by
    rw [hview, hc]
    exact h.present
  have hopen : t.program.view.after t.cursor.block = none := by
    rw [hview, hc]
    exact h.opened
  dsimp only at hview ⊢
  split
  · next hnew =>
      rw [Bool.not_eq_true'] at hnew
      cases shape with
      | scalar =>
          refine Meets.bind (emit_view (.const 0) pos.line hpresent hopen (by simp [Op.operands])) ?_
          rintro v u ⟨rfl, hcu, hviewu⟩
          rw [hc] at hcu hviewu
          have hmethod : u.cursor.method = s.cursor.method := congrArg Cursor.method hcu
          refine meets_bindName ⟨?_, hmethod, by rw [hviewu, hview]; rfl,
            fun hm => outside_emit h hm _ rfl rfl hview hviewu⟩
          have hv : (s.program.view.emit s.cursor.block (.const 0)).Usable s.cursor
              ⟨s.program.view.values⟩ := usable_emit rfl
          have hdecl := (h.emit ht (.const 0) rfl rfl rfl rfl).declare_new
            ⟨x, .scalar, false, pos.line⟩ hv hnew rfl
          show u.program.view.Opening { u.cursor with bindings := _ }
          rw [hviewu, hview, hcu]
          exact hdecl
      | array sizes =>
          refine Meets.bind (emit_view (.declareArray x sizes) pos.line hpresent hopen
            (by simp [Op.operands])) ?_
          rintro v u ⟨-, hcu, hviewu⟩
          rw [hc] at hcu hviewu
          refine meets_pure ⟨?_, congrArg Cursor.method hcu, by rw [hviewu, hview]; rfl,
            fun hm => outside_emit h hm _ rfl rfl hview hviewu⟩
          have hdecl := (h.emit ht (.declareArray x sizes) rfl rfl rfl rfl).declare_same
            ⟨x, .array sizes, false, pos.line⟩ ?_
          · show u.program.view.Opening u.cursor
            rw [hviewu, hview, hcu]
            exact hdecl
          · rw [tracked, scopeOf_declareIn, Scope.scalars_declare, if_neg (by simp)]
            rfl
  · next hold =>
      refine (quiet_report ..).meets fun ds => ?_
      refine declares_only _ ?_ (congrArg Cursor.method hc) hview
      show t.program.view.Opening t.cursor
      rw [hview, hc]
      refine h.declare_same _ ?_
      rw [tracked, scopeOf_declareIn, Scope.scalars_declare, if_neg]
      · rfl
      · rintro ⟨hnew, -⟩
        exact hold (by simpa using hnew)

/-- Declaring a parameter, in a method that is not the computation itself. -/
theorem declareParameter_meets (h : Opening s)
    (hm : s.program.view.sort s.cursor.method ≠ some .main) (x : String) (pos : Pos) :
    Meets E (declareParameter x pos) s fun _ t => Declares s t := by
  have ht := s.program.view_tables
  obtain ⟨vs, hvs⟩ := (h.wired.isEntry_entry _ _ h.start).1
  unfold declareParameter
  refine meets_cursor (method_meets h.has_method fun r hr => ?_)
  have hsymbols := (Program.view_of_method hr).2.2.2.2
  refine meets_bind_edit rfl ?_
  have hview := Program.view_declareLocal (fun m => { m with
    arity := m.arity + 1
    symbols := m.symbols.declare ⟨x, .scalar, true, pos.line⟩ }) hr hm
    ⟨x, .scalar, true, pos.line⟩ rfl rfl rfl rfl rfl
  have hscope : s.program.view.scopeOf s.cursor.method = r.symbols := by
    rw [scopeOf_of_ne hm, hsymbols]
  split
  · next hold =>
      refine (quiet_report ..).meets fun ds => declares_only _ ?_ rfl hview
      show View.Opening _ s.cursor
      dsimp only
      rw [hview]
      refine h.declare_same _ ?_
      rw [tracked, scopeOf_declareIn, Scope.scalars_declare, if_neg]
      · rfl
      · rw [hscope]
        simp [hold]
  · next hnew =>
      refine Meets.bind (emit_view (.param x r.arity) pos.line ?_ ?_ (by simp [Op.operands])) ?_
      · dsimp only
        rw [hview]
        exact h.present
      · dsimp only
        rw [hview]
        exact h.opened
      · rintro v u ⟨rfl, hcu, hviewu⟩
        dsimp only at hcu hviewu ⊢
        have hkind : u.program.view.kind s.cursor.block = some (.entry vs) := by
          rw [hviewu, hview]
          exact hvs
        have hmethod : u.cursor.method = s.cursor.method := congrArg Cursor.method hcu
        rw [hview]
        obtain ⟨p, hp, hparam⟩ := Program.addParameter_ok ⟨s.program.view.values⟩ hkind
        rw [hviewu, hview] at hparam
        refine meets_bind_edit hp (meets_bindName ⟨?_, hmethod, by rw [hparam]; rfl, fun _ => ?_⟩)
        · have hv : (s.program.view.emit s.cursor.block (.param x r.arity)).Usable s.cursor
              ⟨s.program.view.values⟩ := usable_emit rfl
          have hopen := (h.emit ht (.param x r.arity) rfl rfl rfl rfl).setKind
            (vs ++ [⟨s.program.view.values⟩]) hvs
          have hfresh : (s.program.view.scopeOf s.cursor.method).contains x = false := by
            rw [hscope]
            simpa using hnew
          have hdecl := hopen.declare_new ⟨x, .scalar, true, pos.line⟩ hv hfresh rfl
          show p.view.Opening { u.cursor with bindings := _ }
          rw [hparam, hcu]
          exact hdecl
        · rw [hparam, ← hview, ← hviewu]
          refine (outside_emit h hm _ rfl rfl hview hviewu).trans (outside_setKind ?_ _)
          rw [hviewu, hview]
          exact h.home

/-! ## Lists of declarations -/

theorem sizes_meets : ∀ (dims : List Syntax.Dimension) (s : Builder),
    Meets Expected (sizes dims) s fun _ t => ∃ ds, t = { s with diagnostics := ds }
  | [], s => meets_pure ⟨s.diagnostics, rfl⟩
  | .missing opening found :: _, s => by
      unfold sizes
      exact (quiet_require ..).bind fun _ => meets_fail trivial
  | .sized opening n pos close :: rest, s => by
      have hrest (ds : List Diagnostic) : Meets Expected (do
          require (.punct .rbracket) close
          return n :: (← sizes rest)) { s with diagnostics := ds }
          fun _ t => ∃ ds, t = { s with diagnostics := ds } := by
        refine (quiet_require ..).bind fun ds' => Meets.bind (sizes_meets rest _) ?_
        rintro ns _ ⟨ds, rfl⟩
        exact meets_pure ⟨ds, rfl⟩
      unfold sizes
      refine (quiet_require ..).bind fun ds => ?_
      dsimp only
      split
      · exact (quiet_report ..).bind fun ds' => hrest ds'
      · exact hrest ds

theorem shape_meets (d : Syntax.TypeDecl) :
    Meets Expected (shape d) s fun _ t => ∃ ds, t = { s with diagnostics := ds } := by
  cases d with
  | scalar => exact meets_pure ⟨s.diagnostics, rfl⟩
  | array dims =>
      refine Meets.bind (sizes_meets dims s) ?_
      rintro ns _ ⟨ds, rfl⟩
      exact meets_pure ⟨ds, rfl⟩

/-- A list of things that are declared one after the other. -/
theorem forM_declares {α : Type} {f : α → BuildM Unit} {Q : Builder → Prop}
    (hQ : ∀ s t, Declares s t → Q s → Q t)
    (hf : ∀ s x, Opening s → Q s → Meets Expected (f x) s fun _ t => Declares s t) :
    ∀ (xs : List α) {s : Builder}, Opening s → Q s →
      Meets Expected (xs.forM f) s fun _ t => Declares s t
  | [], s, h, _ => meets_pure (.refl h)
  | x :: rest, s, h, hs => by
      refine Meets.bind (hf s x h hs) ?_
      intro _ t ht
      exact (forM_declares hQ hf rest ht.opening (hQ s t ht hs)).mono fun _ u hu => ht.trans hu

theorem varDecl_meets (h : Opening s) (d : Syntax.VarDecl) :
    Meets Expected (varDecl d) s fun _ t => Declares s t := by
  unfold varDecl
  refine Meets.bind (shape_meets d.type) ?_
  rintro sh _ ⟨ds, rfl⟩
  have hquiet : Opening { s with diagnostics := ds } := h
  refine Meets.bind (forM_declares (Q := fun _ => True) (fun _ _ _ => id) (fun t x ht _ => ?_)
    d.names hquiet trivial) ?_
  · refine Meets.bind (name_meets "variable name" x) ?_
    rintro ⟨y, pos⟩ _ rfl
    exact declare_meets ht sh y pos
  · intro _ t ht
    refine (quiet_require ..).meets fun ds' => ?_
    exact ⟨ht.opening, ht.method, ht.sort, ht.outside⟩

theorem varDecls_meets (h : Opening s) (ds : List Syntax.VarDecl) :
    Meets Expected (ds.forM varDecl) s fun _ t => Declares s t :=
  forM_declares (Q := fun _ => True) (fun _ _ _ => id) (fun _ d ht _ => varDecl_meets ht d) ds h
    trivial

theorem parameters_meets (h : Opening s)
    (hm : s.program.view.sort s.cursor.method ≠ some .main) (xs : List Syntax.Name) :
    Meets Expected (xs.forM fun x => do
      let (x, pos) ← name "parameter name" x
      declareParameter x pos) s fun _ t => Declares s t := by
  refine forM_declares (Q := fun s => s.program.view.sort s.cursor.method ≠ some .main)
    (fun s t hd hs => ?_) (fun t x ht hs => ?_) xs h hm
  · rw [hd.sort, hd.method]
    exact hs
  · refine Meets.bind (name_meets "parameter name" x) ?_
    rintro ⟨y, pos⟩ _ rfl
    exact declareParameter_meets ht hs y pos

end Build

end StructuredSsa
