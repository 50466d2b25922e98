import StructuredSsa.Proofs.Ready

/-!
# What building an expression does

An expression adds instructions to the block at the cursor and stays there.
Its value may be read behind it, and is one that was bound before or is new.
The only errors are those of the source text.
-/

namespace StructuredSsa

namespace View

/-- Instructions were added to the block at the cursor. -/
structure Extends (w : View) (c : Cursor) (z : View) (d : Cursor) : Prop where
  start : w.Ready c
  ready : z.Ready d
  advance : Advance w c z d
  block : d.block = c.block
  reachable : d.reachable = c.reachable
  /-- No blocks were added. -/
  kinds : z.kind = w.kind
  keeps : Keeps w z (· = c.block)

/-- A value that may be read at `d`, and that was bound at `c` or is new since. -/
structure Yields (w : View) (c : Cursor) (z : View) (d : Cursor) (v : ValueId) : Prop where
  usable : z.Usable d v
  sourced : w.Sourced c v

theorem Extends.refl {w : View} {c : Cursor} (h : w.Ready c) : Extends w c w c :=
  ⟨h, h, .refl w c, rfl, rfl, rfl, (Keeps.refl w).weaken fun _ _ => False.elim⟩

end View

namespace Build

open View

/-! ## States of the construction -/

abbrev Ready (s : Builder) : Prop := s.program.view.Ready s.cursor

abbrev Extends (s t : Builder) : Prop :=
  View.Extends s.program.view s.cursor t.program.view t.cursor

abbrev Yields (s t : Builder) (v : ValueId) : Prop :=
  View.Yields s.program.view s.cursor t.program.view t.cursor v

variable {s t u : Builder}

theorem extends_trans (h : Extends s t) (k : Extends t u) : Extends s u :=
  ⟨h.start, k.ready, h.advance.trans k.advance h.start.toOpen,
    k.block.trans h.block, k.reachable.trans h.reachable, k.kinds.trans h.kinds,
    (h.keeps.trans k.keeps).weaken fun _ _ hb => hb.elim id fun hb => hb.trans h.block⟩

/-- A value stays readable. -/
theorem yields_extend {v : ValueId} (h : Yields s t v) (k : Extends t u) : Yields s u v :=
  ⟨h.usable.advance k.advance, h.sourced⟩

/-- What is new later is new. -/
theorem yields_after {v : ValueId} (h : Extends s t) (k : Yields t u v) : Yields s u v :=
  ⟨k.usable, k.sourced.advance h.advance⟩

/-- The errors of source text that the construction reports. -/
def Expected : Error → Prop
  | .unexpectedToken .. | .undefinedVariable .. | .invalidDesignator .. | .voidValue ..
  | .missingReturnValue _ => True
  | _ => False

/-! ## Single steps -/

theorem emit_meets {E : Error → Prop} (h : Ready s) (op : Op) (line : Nat)
    (hphi : op.isPhi = false) (hterm : op.isTerminator = false)
    (hops : ∀ v ∈ op.operands, s.program.view.Usable s.cursor v) :
    Meets E (emit op line) s fun v t =>
      Extends s t ∧ t.cursor = s.cursor ∧ (op.hasValue = true → Yields s t v) := by
  have ht := s.program.view_tables
  obtain ⟨p, hp, hview⟩ := Program.emit_ok line h.present h.opened
    fun v hv => (hops v hv).1.exists_op
  refine meets_cursor (meets_editWith hp ?_)
  rw [Extends, Yields, hview]
  refine ⟨⟨h, h.emit ht hphi hterm hops, .emit h.toOpen ht op, rfl, rfl, rfl, keeps_emit ht ..⟩, rfl,
    fun hv => ?_⟩
  exact ⟨usable_emit hv, Or.inr (Nat.le_refl _)⟩

theorem method_meets {E : Error → Prop}
    (hm : s.program.view.sort s.cursor.method ≠ none) {β : Type} {f : Method → BuildM β}
    {Q : β → Builder → Prop}
    (hf : ∀ r, s.program.method? s.cursor.method = some r → Meets E (f r) s Q) :
    Meets E (method >>= f) s Q := by
  obtain ⟨r, hr⟩ := Program.method_of_sort hm
  refine Meets.bind (P := fun a t => a = r ∧ t = s) ?_ ?_
  · exact meets_cursor (meets_look (Program.getMethod_ok hr) ⟨rfl, rfl⟩)
  · rintro a t ⟨rfl, rfl⟩
    exact hf a hr

theorem trackedNames_meets {E : Error → Prop}
    (hm : s.program.view.sort s.cursor.method ≠ none) :
    Meets E trackedNames s fun names t => t = s ∧ names = s.program.view.tracked s.cursor.method := by
  refine method_meets hm fun r hr => ?_
  obtain ⟨hsort, -, -, -, hsymbols⟩ := Program.view_of_method hr
  unfold View.tracked View.scopeOf
  rw [hsort, hsymbols]
  cases r.kind with
  | main => exact meets_get (meets_pure ⟨rfl, rfl⟩)
  | function => exact meets_pure ⟨rfl, rfl⟩
  | procedure => exact meets_pure ⟨rfl, rfl⟩

theorem name_meets (what : String) (x : Syntax.Name) :
    Meets Expected (name what x) s fun _ t => t = s := by
  cases x with
  | ident text pos => exact meets_pure rfl
  | missing found => exact meets_fail trivial

theorem mem_scalars {sc : Scope} {x : String} {d : Symbol} (h : sc.find? x = some d)
    (hd : d.shape = .scalar) : x ∈ sc.scalars := by
  have hmem := List.mem_of_find?_eq_some h
  have hname : d.name = x := by simpa using List.find?_some h
  rw [Scope.scalars, List.mem_map]
  exact ⟨d, by simp [hmem, hd], hname⟩

/-- A scalar that is not in memory is tracked. -/
theorem resolve_meets (h : Ready s) (x : String) (line : Nat) :
    Meets Expected (resolve x line) s fun r t => t = s ∧
      (r = (.scalar, .tracked) → x ∈ s.program.view.tracked s.cursor.method) := by
  refine method_meets h.has_method fun r hr => meets_get ?_
  obtain ⟨hsort, -, -, -, hsymbols⟩ := Program.view_of_method hr
  unfold View.tracked View.scopeOf
  rw [hsort, hsymbols]
  cases r.kind with
  | main =>
      dsimp only
      cases hg : s.program.globals.find? x with
      | some d => exact meets_pure ⟨rfl, fun hp => mem_scalars hg (Prod.mk.inj hp).1⟩
      | none => exact meets_fail trivial
  | function | procedure =>
      dsimp only
      cases hl : r.symbols.find? x with
      | some d => exact meets_pure ⟨rfl, fun hp => mem_scalars hl (Prod.mk.inj hp).1⟩
      | none =>
          cases s.program.globals.find? x with
          | some d => exact meets_pure ⟨rfl, fun hp => by cases (Prod.mk.inj hp).2⟩
          | none => exact meets_fail trivial

/-! ## Calls -/

theorem yieldsValue_meets {E : Error → Prop} (callee : String) (pos : Pos) (given : Nat) :
    Meets E (yieldsValue callee pos given) s fun _ t => ∃ ds, t = { s with diagnostics := ds } := by
  refine meets_get ?_
  dsimp only
  split
  · exact (quiet_checkArguments ..).bind fun ds => meets_pure ⟨ds, rfl⟩
  · exact (quiet_report ..).bind fun ds => meets_pure ⟨ds, rfl⟩

theorem spilledNames_meets {E : Error → Prop} (h : Ready s) :
    Meets E spilledNames s fun names t => t = s ∧
      names = if s.program.view.sort s.cursor.method = some .main then
        s.program.view.tracked s.cursor.method else [] := by
  refine method_meets h.has_method fun r hr => ?_
  rw [(Program.view_of_method hr).1]
  split
  · next hmain =>
      refine (trackedNames_meets h.has_method).mono ?_
      rintro names t ⟨rfl, rfl⟩
      exact ⟨rfl, (if_pos (congrArg some hmain)).symm⟩
  · next hmain => exact meets_pure ⟨rfl, (if_neg fun he => hmain (Option.some.inj he)).symm⟩

theorem spill_meets {E : Error → Prop} (h : Ready s) (line : Nat) (x : String) :
    Meets E (spill line x) s fun _ t => Extends s t := by
  refine meets_cursor ?_
  split
  · next v hv =>
      refine (emit_meets h (.storeGlobal x v) line rfl rfl fun w hw => ?_).bind fun _ t ht =>
        meets_pure ht.1
      rw [List.mem_singleton.1 hw]
      exact h.usable x v hv
  · exact meets_pure (.refl h)

theorem tracked_extends (h : Extends s t) :
    t.program.view.tracked t.cursor.method = s.program.view.tracked s.cursor.method := by
  rw [h.advance.tracked, h.advance.method]

theorem reload_meets {E : Error → Prop} (h : Ready s) (line : Nat) {x : String}
    (hx : x ∈ s.program.view.tracked s.cursor.method) :
    Meets E (reload line x) s fun _ t => Extends s t := by
  refine (emit_meets h (.loadGlobal x) line rfl rfl (by simp [Op.operands])).bind
    fun v t ⟨ht, _, hv⟩ => ?_
  have hx' : x ∈ t.program.view.tracked t.cursor.method := tracked_extends ht ▸ hx
  refine meets_bindName ⟨h, ht.ready.bind (hv rfl).usable fun _ => hx', ?_, ht.block, ht.reachable,
    ht.kinds, ht.keeps⟩
  exact ht.advance.bind (hv rfl).sourced

/-- A step made for every name of a list. -/
theorem forM_meets {E : Error → Prop} {f : String → BuildM Unit} {P : Builder → String → Prop}
    (hP : ∀ s t x, Extends s t → P s x → P t x)
    (hf : ∀ s x, Ready s → P s x → Meets E (f x) s fun _ t => Extends s t) :
    ∀ (names : List String) {s : Builder}, Ready s → (∀ x ∈ names, P s x) →
      Meets E (names.forM f) s fun _ t => Extends s t
  | [], s, h, _ => meets_pure (.refl h)
  | x :: rest, s, h, hnames => by
      refine (hf s x h (hnames x (List.mem_cons_self ..))).bind fun _ t ht => ?_
      refine (forM_meets hP hf rest ht.ready fun y hy => ?_).mono fun _ u hu => extends_trans ht hu
      exact hP s t y ht (hnames y (List.mem_cons_of_mem _ hy))

section

variable {E : Error → Prop} (h : Ready s) (callee : String) (pos : Pos) {args : List ValueId}
  (hargs : ∀ v ∈ args, s.program.view.Usable s.cursor v)
include h hargs

theorem callMethod_meets :
    Meets E (callMethod callee pos args) s fun r t => Extends s t ∧ ∀ v ∈ r, Yields s t v := by
  refine Meets.bind (yieldsValue_meets callee pos args.length) ?_
  rintro yields _ ⟨ds, rfl⟩
  refine Meets.bind (spilledNames_meets h) ?_
  rintro spilled _ ⟨rfl, hnames⟩
  have hspilled : ∀ x ∈ spilled, x ∈ s.program.view.tracked s.cursor.method := by
    intro x hx
    rw [hnames] at hx
    split at hx
    · exact hx
    · cases hx
  refine Meets.bind (forM_meets (P := fun _ _ => True) (fun _ _ _ _ => id)
    (fun _ x h _ => spill_meets h pos.line x) spilled h (by simp)) fun _ t ht => ?_
  refine Meets.bind (emit_meets ht.ready (.call callee args) pos.line rfl rfl fun v hv => ?_)
    fun v u ⟨hu, _, hv⟩ => ?_
  · exact (hargs v hv).advance ht.advance
  have hsu := extends_trans ht hu
  refine Meets.bind (forM_meets (P := fun s x => x ∈ s.program.view.tracked s.cursor.method)
    (fun _ _ _ h hx => tracked_extends h ▸ hx) (fun _ _ h hx => reload_meets h pos.line hx)
    spilled hu.ready fun x hx => ?_) fun _ r hr => meets_pure ⟨extends_trans hsu hr, ?_⟩
  · rw [tracked_extends hsu]
    exact hspilled x hx
  · intro w hw
    split at hw
    · obtain rfl := Option.mem_some.1 hw
      exact yields_extend (yields_after ht (hv rfl)) hr
    · cases hw

theorem callNamed_meets :
    Meets E (callNamed callee pos args) s fun r t => Extends s t ∧ ∀ v ∈ r, Yields s t v := by
  have quiet (ds : List Diagnostic) : Ready { s with diagnostics := ds } := h
  unfold callNamed
  split
  · refine (quiet_checkArguments ..).bind fun ds => ?_
    refine Meets.bind (emit_meets (quiet ds) .read pos.line rfl rfl (by simp [Op.operands]))
      fun v t ⟨ht, _, hv⟩ => meets_pure ⟨ht, fun w hw => ?_⟩
    obtain rfl := Option.mem_some.1 hw
    exact hv rfl
  split
  · refine (quiet_checkArguments ..).bind fun ds => ?_
    cases args with
    | nil => exact meets_pure ⟨.refl h, by simp⟩
    | cons v rest =>
        refine Meets.bind (emit_meets (quiet ds) (.write v) pos.line rfl rfl fun w hw => ?_)
          fun _ t ht => meets_pure ⟨ht.1, by simp⟩
        rw [List.mem_singleton.1 hw]
        exact hargs v (List.mem_cons_self ..)
  split
  · refine (quiet_checkArguments ..).bind fun ds => ?_
    exact Meets.bind (emit_meets (quiet ds) .writeLine pos.line rfl rfl (by simp [Op.operands]))
      fun _ t ht => meets_pure ⟨ht.1, by simp⟩
  · exact callMethod_meets h callee pos hargs

end

/-! ## Array elements -/

theorem scaled_meets {E : Error → Prop} (h : Ready s) (line : Nat) {index : ValueId}
    (hindex : s.program.view.Usable s.cursor index) (stride : Int64) :
    Meets E (scaled line index stride) s fun v t =>
      Extends s t ∧ t.program.view.Usable t.cursor v := by
  unfold scaled
  split
  · exact meets_pure ⟨.refl h, hindex⟩
  · refine Meets.bind (emit_meets h (.const stride) line rfl rfl (by simp [Op.operands])) ?_
    rintro scale t ⟨ht, -, hs⟩
    refine (emit_meets ht.ready (.arith .mul index scale) line rfl rfl fun v hv => ?_).mono ?_
    · have hv : v = index ∨ v = scale := by simpa [Op.operands] using hv
      rcases hv with rfl | rfl
      · exact hindex.advance ht.advance
      · exact (hs rfl).usable
    · rintro v u ⟨hu, -, hv⟩
      exact ⟨extends_trans ht hu, (hv rfl).usable⟩

theorem addScaled_meets {E : Error → Prop} (line : Nat) :
    ∀ (rest : List (ValueId × Int64)) {s : Builder} {sum : ValueId}, Ready s →
      s.program.view.Usable s.cursor sum →
      (∀ p ∈ rest, s.program.view.Usable s.cursor p.1) →
      Meets E (addScaled line sum rest) s fun v t => Extends s t ∧ t.program.view.Usable t.cursor v
  | [], s, sum, h, hsum, _ => meets_pure ⟨.refl h, hsum⟩
  | (index, stride) :: rest, s, sum, h, hsum, hrest => by
      refine Meets.bind (scaled_meets h line (hrest _ (List.mem_cons_self ..)) stride) ?_
      rintro scaledIndex t ⟨ht, hscaled⟩
      refine Meets.bind (emit_meets ht.ready (.arith .add sum scaledIndex) line rfl rfl
        fun v hv => ?_) ?_
      · have hv : v = sum ∨ v = scaledIndex := by simpa [Op.operands] using hv
        rcases hv with rfl | rfl
        · exact hsum.advance ht.advance
        · exact hscaled
      rintro v u ⟨hu, -, hv⟩
      have hsu := extends_trans ht hu
      refine (addScaled_meets line rest hu.ready (hv rfl).usable fun p hp => ?_).mono ?_
      · exact (hrest p (List.mem_cons_of_mem _ hp)).advance hsu.advance
      · rintro v r ⟨hr, hv⟩
        exact ⟨extends_trans hsu hr, hv⟩

theorem elementAddress_meets (h : Ready s) (x : String) (pos : Pos) :
    ∀ {pairs : List (ValueId × Int64)}, (∀ p ∈ pairs, s.program.view.Usable s.cursor p.1) →
      Meets Expected (elementAddress x pos pairs) s fun v t =>
        Extends s t ∧ t.program.view.Usable t.cursor v
  | [], _ => meets_fail trivial
  | (index, stride) :: rest, hpairs => by
      refine Meets.bind (scaled_meets h pos.line (hpairs _ (List.mem_cons_self ..)) stride) ?_
      rintro first t ⟨ht, hfirst⟩
      refine Meets.bind (addScaled_meets pos.line rest ht.ready hfirst fun p hp => ?_) ?_
      · exact (hpairs p (List.mem_cons_of_mem _ hp)).advance ht.advance
      rintro offset u ⟨hu, hoffset⟩
      refine Meets.bind (emit_meets hu.ready (.arrayBase x) pos.line rfl rfl
        (by simp [Op.operands])) ?_
      rintro base r ⟨hr, -, hbase⟩
      refine (emit_meets hr.ready (.index base offset) pos.line rfl rfl fun v hv => ?_).mono ?_
      · have hv : v = base ∨ v = offset := by simpa [Op.operands] using hv
        rcases hv with rfl | rfl
        · exact (hbase rfl).usable
        · exact hoffset.advance hr.advance
      · rintro v e ⟨he, -, hv⟩
        exact ⟨extends_trans (extends_trans (extends_trans ht hu) hr) he, (hv rfl).usable⟩

theorem addressOf_meets (h : Ready s) (x : String) (pos : Pos) (shape : Shape) {is : List ValueId}
    (his : ∀ v ∈ is, s.program.view.Usable s.cursor v) :
    Meets Expected (addressOf x pos shape is) s fun v t =>
      Extends s t ∧ t.program.view.Usable t.cursor v := by
  have hzip : ∀ p ∈ is.zip shape.strides, s.program.view.Usable s.cursor p.1 := by
    rintro ⟨v, n⟩ hp
    exact his v (List.of_mem_zip hp).1
  unfold addressOf
  dsimp only
  split
  · exact meets_fail trivial
  split
  · exact (quiet_report ..).bind fun ds =>
      elementAddress_meets (s := { s with diagnostics := ds }) h x pos hzip
  · exact elementAddress_meets h x pos hzip

/-! ## Designators -/

theorem readDesignator_meets (h : Ready s) (x : String) (pos : Pos) (shape : Shape)
    (storage : Storage) {is : List ValueId} (his : ∀ v ∈ is, s.program.view.Usable s.cursor v)
    (hx : (shape, storage) = (.scalar, .tracked) → x ∈ s.program.view.tracked s.cursor.method) :
    Meets Expected (readDesignator x pos shape storage is) s fun v t =>
      Extends s t ∧ Yields s t v := by
  cases shape with
  | scalar =>
      refine (quiet_checkScalar ..).bind fun ds => ?_
      cases storage with
      | tracked =>
          refine meets_cursor ?_
          obtain ⟨v, hv⟩ := h.bound x (hx rfl)
          rw [hv]
          exact meets_pure ⟨.refl h, h.usable x v hv, Or.inl ⟨x, hv⟩⟩
      | memory =>
          have quiet : Ready { s with diagnostics := ds } := h
          refine (emit_meets quiet (.loadGlobal x) pos.line rfl rfl (by simp [Op.operands])).mono ?_
          rintro v t ⟨ht, -, hv⟩
          exact ⟨ht, hv rfl⟩
  | array sizes =>
      refine Meets.bind (addressOf_meets h x pos _ his) ?_
      rintro address t ⟨ht, haddress⟩
      refine (emit_meets ht.ready (.load address) pos.line rfl rfl fun v hv => ?_).mono ?_
      · rw [List.mem_singleton.1 hv]
        exact haddress
      · rintro v u ⟨hu, -, hv⟩
        exact ⟨extends_trans ht hu, yields_after ht (hv rfl)⟩

/-- A written variable holds a value that was bound before `s` or is new. -/
theorem writeDesignator_meets (h : Extends s t) (x : String) (pos : Pos) (shape : Shape)
    (storage : Storage) {is : List ValueId} (his : ∀ v ∈ is, t.program.view.Usable t.cursor v)
    (hx : (shape, storage) = (.scalar, .tracked) → x ∈ s.program.view.tracked s.cursor.method)
    {v : ValueId} (hv : Yields s t v) :
    Meets Expected (writeDesignator x pos shape storage is v) t fun _ u => Extends s u := by
  cases shape with
  | scalar =>
      refine (quiet_checkScalar ..).bind fun ds => ?_
      cases storage with
      | tracked =>
          have hx' : x ∈ t.program.view.tracked t.cursor.method := tracked_extends h ▸ hx rfl
          exact meets_bindName ⟨h.start, h.ready.bind hv.usable fun _ => hx',
            h.advance.bind hv.sourced, h.block, h.reachable, h.kinds, h.keeps⟩
      | memory =>
          have quiet : Ready { t with diagnostics := ds } := h.ready
          refine Meets.bind (emit_meets quiet (.storeGlobal x v) pos.line rfl rfl fun w hw => ?_)
            fun _ u ⟨hu, _, _⟩ => meets_pure (extends_trans h hu)
          rw [List.mem_singleton.1 hw]
          exact hv.usable
  | array sizes =>
      refine Meets.bind (addressOf_meets h.ready x pos _ his) fun address u ⟨hu, haddress⟩ => ?_
      refine Meets.bind (emit_meets hu.ready (.store address v) pos.line rfl rfl fun w hw => ?_)
        fun _ r ⟨hr, _, _⟩ => meets_pure (extends_trans (extends_trans h hu) hr)
      have hw : w = address ∨ w = v := by simpa [Op.operands] using hw
      rcases hw with rfl | rfl
      · exact haddress
      · exact hv.usable.advance hu.advance

/-! ## Expressions -/

mutual

theorem expr_meets : ∀ (e : Syntax.Expr) {s : Builder}, Ready s →
    Meets Expected (expr e) s fun v t => Extends s t ∧ Yields s t v
  | .number n line, s, h => by
      unfold expr
      exact (emit_meets h (.const n) line rfl rfl (by simp [Op.operands])).mono
        fun v t ⟨ht, _, hv⟩ => ⟨ht, hv rfl⟩
  | .designator x is, s, h => by
      unfold expr
      refine Meets.bind (name_meets _ x) ?_
      rintro ⟨x, pos⟩ _ rfl
      refine Meets.bind (resolve_meets h x pos.line) ?_
      rintro ⟨shape, storage⟩ _ ⟨rfl, hx⟩
      refine Meets.bind (indices_meets is h) fun is t ⟨ht, his⟩ => ?_
      refine (readDesignator_meets ht.ready x pos shape storage (fun v hv => (his v hv).usable)
        fun hp => ?_).mono fun v u ⟨hu, hv⟩ => ⟨extends_trans ht hu, yields_after ht hv⟩
      rw [tracked_extends ht]
      exact hx hp
  | .group inner close, s, h => by
      unfold expr
      refine Meets.bind (expr_meets inner h) fun v t ⟨ht, hv⟩ => ?_
      exact (quiet_require ..).bind fun ds => meets_pure ⟨ht, hv⟩
  | .arith op lhs rhs line, s, h => by
      unfold expr
      refine Meets.bind (expr_meets lhs h) fun a t ⟨ht, ha⟩ => ?_
      refine Meets.bind (expr_meets rhs ht.ready) fun b u ⟨hu, hb⟩ => ?_
      have hsu := extends_trans ht hu
      refine (emit_meets hu.ready (.arith op a b) line rfl rfl fun v hv => ?_).mono
        fun v r ⟨hr, _, hv⟩ => ⟨extends_trans hsu hr, yields_after hsu (hv rfl)⟩
      have hv : v = a ∨ v = b := by simpa [Op.operands] using hv
      rcases hv with rfl | rfl
      · exact (yields_extend ha hu).usable
      · exact hb.usable
  | .call callee args close, s, h => by
      unfold expr
      refine Meets.bind (name_meets _ callee) ?_
      rintro ⟨callee, pos⟩ _ rfl
      refine Meets.bind (arguments_meets args h) fun args t ⟨ht, hargs⟩ => ?_
      refine (quiet_require ..).bind fun ds => ?_
      have quiet : Ready { t with diagnostics := ds } := ht.ready
      refine Meets.bind (callNamed_meets quiet callee pos fun v hv => (hargs v hv).usable)
        fun r u ⟨hu, hr⟩ => ?_
      cases r with
      | some v => exact meets_pure ⟨extends_trans ht hu, yields_after ht (hr v rfl)⟩
      | none => exact meets_fail trivial
  | .missing found, s, h => by
      unfold expr
      exact meets_fail trivial

theorem indices_meets : ∀ (is : Syntax.Indices) {s : Builder}, Ready s →
    Meets Expected (indices is) s fun vs t => Extends s t ∧ ∀ v ∈ vs, Yields s t v
  | .nil, s, h => by
      unfold indices
      exact meets_pure ⟨.refl h, by simp⟩
  | .cons index close rest, s, h => by
      unfold indices
      refine Meets.bind (expr_meets index h) fun v t ⟨ht, hv⟩ => ?_
      refine (quiet_require ..).bind fun ds => ?_
      have quiet : Ready { t with diagnostics := ds } := ht.ready
      refine Meets.bind (indices_meets rest quiet) fun vs u ⟨hu, hvs⟩ => ?_
      refine meets_pure ⟨extends_trans ht hu, List.forall_mem_cons.2 ⟨yields_extend hv hu, ?_⟩⟩
      exact fun w hw => yields_after ht (hvs w hw)

theorem arguments_meets : ∀ (args : Syntax.Arguments) {s : Builder}, Ready s →
    Meets Expected (arguments args) s fun vs t => Extends s t ∧ ∀ v ∈ vs, Yields s t v
  | .nil, s, h => by
      unfold arguments
      exact meets_pure ⟨.refl h, by simp⟩
  | .cons argument rest, s, h => by
      unfold arguments
      refine Meets.bind (expr_meets argument h) fun v t ⟨ht, hv⟩ => ?_
      refine Meets.bind (arguments_meets rest ht.ready) fun vs u ⟨hu, hvs⟩ => ?_
      refine meets_pure ⟨extends_trans ht hu, List.forall_mem_cons.2 ⟨yields_extend hv hu, ?_⟩⟩
      exact fun w hw => yields_after ht (hvs w hw)

end

theorem relation_meets (h : Ready s) (r : Syntax.Relation) :
    Meets Expected (relation r) s fun v t => Extends s t ∧ Yields s t v := by
  cases r with
  | compare lhs op line rhs =>
      refine Meets.bind (expr_meets lhs h) fun a t ⟨ht, ha⟩ => ?_
      refine Meets.bind (expr_meets rhs ht.ready) fun b u ⟨hu, hb⟩ => ?_
      have hsu := extends_trans ht hu
      refine (emit_meets hu.ready (.compare op a b) line rfl rfl fun v hv => ?_).mono
        fun v r ⟨hr, _, hv⟩ => ⟨extends_trans hsu hr, yields_after hsu (hv rfl)⟩
      have hv : v = a ∨ v = b := by simpa [Op.operands] using hv
      rcases hv with rfl | rfl
      · exact (yields_extend ha hu).usable
      · exact hb.usable
  | noOperator lhs found =>
      exact Meets.bind (expr_meets lhs h) fun _ _ _ => meets_fail trivial

end Build

end StructuredSsa
