import StructuredSsa.Proofs.Upheld

/-!
# Variables in memory

The body of the computation keeps the global variables as values. A method that is
called finds them in memory, so they are written there right before a call, and read
back right behind it. Any other method has them in memory all the time.

`Laden` says of the code of a block that this is all that is done with memory. Straight
code is built up piece by piece, and each piece is a single instruction that its method
may do with (`Permits`) or all that is built for a call (`Surrounds`).
-/

namespace StructuredSsa

theorem forall₂_imp_mem {α β : Type} {R S : α → β → Prop} {xs : List α} {ys : List β}
    (h : List.Forall₂ R xs ys) (k : ∀ x, ∀ y ∈ ys, R x y → S x y) : List.Forall₂ S xs ys :=
  List.forall₂_iff_zip.2 ⟨h.length_eq, fun hp => k _ _ (List.of_mem_zip hp).2 (List.forall₂_zip h hp)⟩

namespace View

open Build (CallSite)

/-- A variable that the method `m` has in memory. -/
structure InMemory (w : View) (m : MethodId) (x : String) : Prop where
  not_main : w.sort m ≠ some .main
  global : x ∈ w.globals.scalars
  not_local : (w.symbols m).find? x = none

/-- An instruction that stands for itself in the method `m`. -/
def Permits (w : View) (m : MethodId) : Op → Prop
  | .phi .. => False
  | .call .. => w.sort m ≠ some .main
  | .loadGlobal x | .storeGlobal x _ => w.InMemory m x
  | _ => True

/-- In the block `b` the call `v` was built for `κ`, behind `front`. The globals are
written as they are bound there, and read back into their bindings. -/
structure Surrounds (w : View) (κ : CallSite) (b : BlockId) (front stores : List ValueId)
    (v : ValueId) (loads : List ValueId) : Prop where
  block : κ.state.cursor.block = b
  behind : κ.state.program.view.body b = front
  call : w.op v = some (.call κ.callee κ.args)
  written : List.Forall₂ (fun x u => ∃ held, κ.state.cursor.bindings.get? x = some held
    ∧ w.op u = some (.storeGlobal x held)) w.globals.scalars stores
  read : List.Forall₂ (fun x u => w.op u = some (.loadGlobal x)) w.globals.scalars loads
  run : ∃ r t, κ.run = .ok r t ∧ t.program.view.body b = front ++ (stores ++ v :: loads)
    ∧ List.Forall₂ (fun x u => t.cursor.bindings.get? x = some u) w.globals.scalars loads

/-- Code of the block `b` of the method `m`: instructions that stand for themselves and,
in the body of the computation, calls that `K` knows. -/
inductive Laden (w : View) (K : CallSite → Prop) (m : MethodId) (b : BlockId) :
    List ValueId → Prop where
  | nil : Laden w K m b []
  | single {l : List ValueId} {v : ValueId} {o : Op} (code : Laden w K m b l)
      (op : w.op v = some o) (permits : w.Permits m o) : Laden w K m b (l ++ [v])
  | call {l stores loads : List ValueId} {v : ValueId} {κ : CallSite} (code : Laden w K m b l)
      (main : w.sort m = some .main) (known : K κ) (around : w.Surrounds κ b l stores v loads) :
      Laden w K m b (l ++ (stores ++ v :: loads))

/-- Variables and the code of some instructions are as they were. -/
structure Stands (w z : View) (m : MethodId) (l : List ValueId) : Prop where
  op : ∀ v ∈ l, ∀ o, w.op v = some o → o.isPhi = false → z.op v = some o
  sort : z.sort m = w.sort m
  symbols : z.symbols m = w.symbols m
  globals : z.globals = w.globals

section Laden

variable {w z : View} {K : CallSite → Prop} {m : MethodId} {b : BlockId} {l code : List ValueId}
  {x : String} {o : Op}

theorem Keeps.stands {S : BlockId → Prop} (k : Keeps w z S) : Stands w z m l :=
  ⟨fun v _ o ho _ => k.op v o ho, congrFun k.sort m, congrFun k.symbols m, k.globals⟩

theorem Stands.mono (h : Stands w z m l) (hcode : code ⊆ l) : Stands w z m code :=
  { h with op := fun v hv => h.op v (hcode hv) }

theorem InMemory.stands (h : w.InMemory m x) (k : Stands w z m l) : z.InMemory m x where
  not_main := k.sort ▸ h.not_main
  global := k.globals ▸ h.global
  not_local := k.symbols ▸ h.not_local

theorem Permits.not_phi (h : w.Permits m o) : o.isPhi = false := by
  cases o <;> first | rfl | exact h.elim

theorem Permits.stands (h : w.Permits m o) (k : Stands w z m l) : z.Permits m o := by
  cases o with
  | call =>
      show z.sort m ≠ _
      rw [k.sort]
      exact h
  | loadGlobal => exact InMemory.stands h k
  | storeGlobal => exact InMemory.stands h k
  | _ => exact h

theorem permits_of_isLocal (h : o.isLocal = true) : w.Permits m o := by
  cases o with
  | phi | call | loadGlobal | storeGlobal => cases h
  | _ => trivial

theorem isLocal_of_isTerminator (h : o.isTerminator = true) : o.isLocal = true := by
  cases o <;> first | rfl | cases h

theorem Surrounds.stands {κ : CallSite} {front stores loads : List ValueId} {v : ValueId}
    (h : w.Surrounds κ b front stores v loads) (k : Stands w z m (stores ++ v :: loads)) :
    z.Surrounds κ b front stores v loads where
  block := h.block
  behind := h.behind
  call := k.op v (by simp) _ h.call rfl
  written := by
    rw [k.globals]
    refine forall₂_imp_mem h.written fun x u hu ⟨held, hheld, hop⟩ => ?_
    exact ⟨held, hheld, k.op u (by simp [hu]) _ hop rfl⟩
  read := by
    rw [k.globals]
    exact forall₂_imp_mem h.read fun x u hu hop => k.op u (by simp [hu]) _ hop rfl
  run := by
    rw [k.globals]
    exact h.run

theorem Laden.stands (h : w.Laden K m b l) (k : Stands w z m l) : z.Laden K m b l := by
  induction h with
  | nil => exact .nil
  | single _ op permits ih =>
      exact .single (ih (k.mono (List.subset_append_left ..)))
        (k.op _ (by simp) _ op permits.not_phi) (permits.stands k)
  | call _ main known around ih =>
      exact .call (ih (k.mono (List.subset_append_left ..))) (k.sort.trans main) known
        (around.stands (k.mono (List.subset_append_right ..)))

theorem Laden.append (h : w.Laden K m b l)
    (hcode : ∀ v ∈ code, ∃ o, w.op v = some o ∧ o.isLocal = true) : w.Laden K m b (l ++ code) := by
  induction code generalizing l with
  | nil => rwa [List.append_nil]
  | cons v code ih =>
      obtain ⟨⟨o, ho, hlocal⟩, hcode⟩ := List.forall_mem_cons.1 hcode
      rw [List.append_cons]
      exact ih (h.single ho (permits_of_isLocal hlocal)) hcode

end Laden

end View

namespace Build

open View
variable {pos : Pos} {v : ValueId}

/-! ## Instructions at the cursor -/

/-- Instructions were added at the cursor, which stayed in its block. -/
structure Lists (s t : Builder) (code : List ValueId) : Prop where
  keeps : Keeps s.program.view t.program.view (· = s.cursor.block)
  body : t.program.view.body s.cursor.block = s.program.view.body s.cursor.block ++ code
  block : t.cursor.block = s.cursor.block
  method : t.cursor.method = s.cursor.method

/-- The code at the cursor is as it should be, and no name is tracked twice. -/
structure Loaded (K : CallSite → Prop) (s : Builder) : Prop where
  distinct : (s.program.view.tracked s.cursor.method).Nodup
  laden : s.program.view.Laden K s.cursor.method s.cursor.block
    (s.program.view.body s.cursor.block)

variable {K : CallSite → Prop} {s t u : Builder} {α β : Type}

theorem Lists.refl (s : Builder) : Lists s s [] :=
  ⟨(Keeps.refl _).weaken fun _ _ => False.elim, (List.append_nil _).symm, rfl, rfl⟩

theorem Lists.trans {xs ys : List ValueId} (h : Lists s t xs) (k : Lists t u ys) :
    Lists s u (xs ++ ys) where
  keeps := (h.keeps.trans k.keeps).weaken fun _ _ hb => hb.elim id fun hb => hb.trans h.block
  body := by
    have hbody := k.body
    rw [h.block, h.body, List.append_assoc] at hbody
    exact hbody
  block := k.block.trans h.block
  method := k.method.trans h.method

theorem emit_lists {op : Op} {line : Nat} (run : emit op line s = .ok v t) :
    Lists s t [v] ∧ t.program.view.op v = some op ∧ t.cursor = s.cursor := by
  obtain ⟨c, s', hcursor, run⟩ := of_bind_ok run
  obtain ⟨rfl, rfl⟩ : c = s.cursor ∧ s' = s := by
    cases hcursor
    exact ⟨rfl, rfl⟩
  unfold editWith at run
  split at run
  · next a p hp =>
      cases run
      obtain ⟨rfl, hview⟩ := Program.view_of_emit hp
      have k := keeps_emit s'.program.view_tables s'.cursor.block op
      refine ⟨⟨?_, ?_, rfl, rfl⟩, ?_, rfl⟩ <;> dsimp only <;> rw [hview]
      · exact k
      · exact body_emit ..
      · exact if_pos rfl
  · cases run

theorem Loaded.lists {code : List ValueId} (h : Loaded K s) (k : Lists s t code)
    (hcode : t.program.view.Laden K s.cursor.method s.cursor.block
        (s.program.view.body s.cursor.block) →
      t.program.view.Laden K s.cursor.method s.cursor.block
        (s.program.view.body s.cursor.block ++ code)) : Loaded K t := by
  refine ⟨?_, ?_⟩
  · rw [k.keeps.tracked, k.method]
    exact h.distinct
  · rw [k.method, k.block, k.body]
    exact hcode (h.laden.stands k.keeps.stands)

theorem Loaded.emit {op : Op} {line : Nat} (h : Loaded K s) (run : emit op line s = .ok v t)
    (hop : s.program.view.Permits s.cursor.method op) : Loaded K t := by
  obtain ⟨k, hv, -⟩ := emit_lists run
  exact h.lists k fun hladen => hladen.single hv (hop.stands k.keeps.stands (l := []))

/-! ## Steps that leave memory alone -/

/-- A step that leaves the code at the cursor as it should be, wherever it is run. -/
def Steady (K : CallSite → Prop) (x : BuildM α) : Prop :=
  ∀ ⦃s a t⦄, x s = .ok a t → Loaded K s → Loaded K t

theorem Steady.pure (a : α) : Steady K (Pure.pure a : BuildM α) := by
  intro s b t run hs
  cases run
  exact hs

theorem Steady.fail (e : Error) : Steady K (Build.fail e : BuildM α) := by
  intro s a t run hs
  cases run

theorem Steady.bind {x : BuildM α} {f : α → BuildM β} (hx : Steady K x)
    (hf : ∀ a, Steady K (f a)) : Steady K (x >>= f) := by
  intro s b u run hs
  obtain ⟨a, t, hrun, run⟩ := of_bind_ok run
  exact hf a run (hx hrun hs)

theorem Quiet.steady {x : BuildM Unit} (hx : Quiet x) : Steady K x := by
  intro s a t run hs
  obtain ⟨ds, rfl⟩ := hx.of_ok run
  exact ⟨hs.distinct, hs.laden⟩

theorem Steady.emit {op : Op} (hop : op.isLocal = true) (line : Nat) : Steady K (emit op line) :=
  fun _ _ _ run hs => hs.emit run (permits_of_isLocal hop)

theorem Steady.bindName (x : String) (v : ValueId) : Steady K (Build.bind x v) := by
  intro s a t run hs
  cases run
  exact ⟨hs.distinct, hs.laden⟩

theorem steady_scaled (line : Nat) (index : ValueId) (stride : Int64) :
    Steady K (scaled line index stride) := by
  unfold scaled
  split
  · exact .pure _
  · exact .bind (.emit rfl line) fun _ => .emit rfl line

theorem steady_addScaled (line : Nat) : ∀ (rest : List (ValueId × Int64)) (sum : ValueId),
    Steady K (addScaled line sum rest)
  | [], sum => .pure sum
  | (index, stride) :: rest, _ => .bind (steady_scaled line index stride) fun _ =>
      .bind (.emit rfl line) fun sum => steady_addScaled line rest sum

theorem steady_elementAddress (x : String) (pos : Pos) : ∀ pairs : List (ValueId × Int64),
    Steady K (elementAddress x pos pairs)
  | [] => .fail _
  | (index, stride) :: rest => .bind (steady_scaled pos.line index stride) fun _ =>
      .bind (steady_addScaled pos.line rest _) fun _ => .bind (.emit rfl pos.line) fun _ =>
        .emit rfl pos.line

theorem steady_addressOf (x : String) (pos : Pos) (shape : Shape) (is : List ValueId) :
    Steady K (addressOf x pos shape is) := by
  have hrest : Steady K (do
      if is.length ≠ shape.strides.length then
        report pos (.indexCount x shape.strides.length is.length)
      elementAddress x pos (is.zip shape.strides)) := by
    split
    · exact .bind (quiet_report ..).steady fun _ => steady_elementAddress ..
    · exact steady_elementAddress ..
  unfold addressOf
  dsimp only
  split
  · exact .bind (.fail _) fun _ => hrest
  · exact hrest

/-! ## Variables -/

/-- A scalar that is not tracked is in memory. -/
theorem resolve_inMemory (h : Ready s) (x : String) (line : Nat) :
    Meets Expected (resolve x line) s fun r t => t = s ∧
      (r = (.scalar, .memory) → s.program.view.InMemory s.cursor.method x) := by
  refine method_meets h.has_method fun r hr => meets_get ?_
  obtain ⟨hsort, -, -, -, hsymbols⟩ := Program.view_of_method hr
  cases hkind : r.kind with
  | main =>
      dsimp only
      cases s.program.globals.find? x with
      | some d => exact meets_pure ⟨rfl, fun hp => by cases (Prod.mk.inj hp).2⟩
      | none => exact meets_fail trivial
  | function | procedure =>
      dsimp only
      cases hl : r.symbols.find? x with
      | some d => exact meets_pure ⟨rfl, fun hp => by cases (Prod.mk.inj hp).2⟩
      | none =>
          cases hg : s.program.globals.find? x with
          | none => exact meets_fail trivial
          | some d =>
              refine meets_pure ⟨rfl, fun hp => ⟨?_, mem_scalars hg (Prod.mk.inj hp).1, ?_⟩⟩
              · rw [hsort, hkind]
                simp
              · rw [hsymbols]
                exact hl

theorem readDesignator_loaded {x : String} {shape : Shape} {storage : Storage} {is : List ValueId}
    (run : readDesignator x pos shape storage is s = .ok v t)
    (hx : (shape, storage) = (.scalar, .memory) → s.program.view.InMemory s.cursor.method x)
    (hs : Loaded K s) : Loaded K t := by
  cases shape with
  | array sizes => exact Steady.bind (steady_addressOf ..) (fun _ => .emit rfl pos.line) run hs
  | scalar =>
      obtain ⟨_, s', hcheck, run⟩ := of_bind_ok run
      obtain ⟨ds, rfl⟩ := (quiet_checkScalar x pos is).of_ok hcheck
      have hs : Loaded K { s with diagnostics := ds } := ⟨hs.distinct, hs.laden⟩
      cases storage with
      | memory => exact hs.emit run (hx rfl)
      | tracked =>
          obtain ⟨_, _, hcursor, run⟩ := of_bind_ok run
          cases hcursor
          cases hget : s.cursor.bindings.get? x with
          | none =>
              dsimp only at run
              rw [hget] at run
              cases run
          | some u =>
              dsimp only at run
              rw [hget] at run
              cases run
              exact hs

theorem writeDesignator_loaded {x : String} {shape : Shape} {storage : Storage} {is : List ValueId}
    (run : writeDesignator x pos shape storage is v s = .ok () t)
    (hx : (shape, storage) = (.scalar, .memory) → s.program.view.InMemory s.cursor.method x)
    (hs : Loaded K s) : Loaded K t := by
  cases shape with
  | array sizes =>
      exact Steady.bind (steady_addressOf ..)
        (fun _ => .bind (.emit rfl pos.line) fun _ => .pure ()) run hs
  | scalar =>
      obtain ⟨_, s', hcheck, run⟩ := of_bind_ok run
      obtain ⟨ds, rfl⟩ := (quiet_checkScalar x pos is).of_ok hcheck
      have hs : Loaded K { s with diagnostics := ds } := ⟨hs.distinct, hs.laden⟩
      cases storage with
      | tracked => exact Steady.bindName x v run hs
      | memory =>
          obtain ⟨w, t', hemit, run⟩ := of_bind_ok run
          cases run
          exact hs.emit hemit (hx rfl)

/-! ## Calls -/

/-- Each variable is written as it is bound. -/
theorem spills_run (line : Nat) : ∀ {names : List String} {s t : Builder},
    (∀ x ∈ names, ∃ v, s.cursor.bindings.get? x = some v) →
    names.forM (spill line) s = .ok () t → ∃ stores, Lists s t stores ∧ t.cursor = s.cursor
      ∧ List.Forall₂ (fun x u => ∃ held, s.cursor.bindings.get? x = some held
        ∧ t.program.view.op u = some (.storeGlobal x held)) names stores
  | [], s, t, _, run => by
      cases run
      exact ⟨[], .refl s, rfl, .nil⟩
  | x :: rest, s, t, hbound, run => by
      obtain ⟨⟨held, hheld⟩, hrest⟩ := List.forall_mem_cons.1 hbound
      obtain ⟨_, s', hspill, run⟩ := of_bind_ok (x := spill line x)
        (f := fun _ => rest.forM (spill line)) run
      unfold spill at hspill
      rw [bind_run (show cursor s = .ok s.cursor s from rfl), hheld] at hspill
      obtain ⟨u, s'', hemit, hspill⟩ := of_bind_ok hspill
      cases hspill
      obtain ⟨hlists, hop, hcursor⟩ := emit_lists hemit
      obtain ⟨stores, hmore, hsame, hstores⟩ := spills_run line (hcursor ▸ hrest) run
      rw [hcursor] at hstores
      exact ⟨u :: stores, hlists.trans hmore, hsame.trans hcursor,
        .cons ⟨held, hheld, hmore.keeps.op _ _ hop⟩ hstores⟩

/-- Each variable is bound to what is read. -/
theorem reloads_run (line : Nat) : ∀ {names : List String} {s t : Builder}, names.Nodup →
    names.forM (reload line) s = .ok () t → ∃ loads, Lists s t loads
      ∧ (∀ x, x ∉ names → t.cursor.bindings.get? x = s.cursor.bindings.get? x)
      ∧ List.Forall₂ (fun x u => t.program.view.op u = some (.loadGlobal x)) names loads
      ∧ List.Forall₂ (fun x u => t.cursor.bindings.get? x = some u) names loads
  | [], s, t, _, run => by
      cases run
      exact ⟨[], .refl s, fun _ _ => rfl, .nil, .nil⟩
  | x :: rest, s, t, hdistinct, run => by
      obtain ⟨hx, hdistinct⟩ := List.nodup_cons.1 hdistinct
      obtain ⟨_, s', hreload, run⟩ := of_bind_ok (x := reload line x)
        (f := fun _ => rest.forM (reload line)) run
      obtain ⟨u, s'', hemit, hbind⟩ := of_bind_ok hreload
      cases hbind
      obtain ⟨hlists, hop, hcursor⟩ := emit_lists hemit
      obtain ⟨loads, hmore, hothers, hloads, hbound⟩ := reloads_run line hdistinct run
      have hfirst : Lists s { s'' with cursor := { s''.cursor with
          bindings := s''.cursor.bindings.bind x u } } [u] :=
        ⟨hlists.keeps, hlists.body, hlists.block, hlists.method⟩
      have hget (y : String) (hy : y ∉ rest) :
          t.cursor.bindings.get? y = (s''.cursor.bindings.bind x u).get? y := hothers y hy
      refine ⟨u :: loads, hfirst.trans hmore, fun y hy => ?_,
        .cons (hmore.keeps.op _ _ hop) hloads, .cons ?_ hbound⟩
      · rw [List.mem_cons, not_or] at hy
        rw [hget y hy.2, Bindings.get?_bind, if_neg hy.1, hcursor]
      · rw [hget x hx, Bindings.get?_bind, if_pos rfl]

theorem callMethod_loaded {callee : String} {args : List ValueId} {r : Option ValueId} (h : Ready s)
    (run : callMethod callee pos args s = .ok r t) (hK : K ⟨s, callee, pos, args⟩) (hs : Loaded K s) :
    Loaded K t := by
  have hrun := run
  unfold callMethod at run
  obtain ⟨yields, s1, hyields, run⟩ := of_bind_ok run
  obtain ⟨ds, rfl⟩ := (yieldsValue_meets (E := Expected) callee pos args.length).of_ok hyields
  obtain ⟨names, s2, hspilled, run⟩ := of_bind_ok run
  obtain ⟨rfl, hnames⟩ := (spilledNames_meets (E := Expected) (s := { s with diagnostics := ds })
    h).of_ok hspilled
  obtain ⟨_, s3, hspills, run⟩ := of_bind_ok run
  obtain ⟨v, s4, hcall, run⟩ := of_bind_ok run
  obtain ⟨_, s5, hreloads, run⟩ := of_bind_ok run
  cases run
  obtain ⟨hfirst, hop, hcursor⟩ := emit_lists hcall
  have hs : Loaded K { s with diagnostics := ds } := ⟨hs.distinct, hs.laden⟩
  by_cases hmain : s.program.view.sort s.cursor.method = some .main
  · have htracked : s.program.view.tracked s.cursor.method = s.program.view.globals.scalars := by
      rw [tracked, scopeOf, hmain]
    obtain rfl : names = s.program.view.globals.scalars :=
      hnames.trans ((if_pos hmain).trans htracked)
    have hbound : ∀ x ∈ s.program.view.globals.scalars,
        ∃ v, s.cursor.bindings.get? x = some v := htracked ▸ h.bound
    obtain ⟨stores, hbefore, -, hstores⟩ :=
      spills_run (s := { s with diagnostics := ds }) pos.line hbound hspills
    obtain ⟨loads, hafter, -, hloads, hheld⟩ := reloads_run pos.line (htracked ▸ hs.distinct) hreloads
    have hrest := hfirst.trans hafter
    have hall := hbefore.trans hrest
    have hglobals : t.program.view.globals = s.program.view.globals := hall.keeps.globals
    refine hs.lists hall fun hladen => ?_
    refine hladen.call ((congrFun hall.keeps.sort _).trans hmain) hK
      ⟨rfl, rfl, hafter.keeps.op _ _ hop, ?_, ?_, _, t, hrun, hall.body, ?_⟩
    · rw [hglobals]
      refine hstores.imp fun x u hu => ?_
      obtain ⟨held, hheld, hu⟩ := hu
      exact ⟨held, hheld, hrest.keeps.op _ _ hu⟩
    · rw [hglobals]
      exact hloads
    · rw [hglobals]
      exact hheld
  · obtain rfl : names = [] := hnames.trans (if_neg hmain)
    cases hspills
    cases hreloads
    exact hs.emit hcall hmain

theorem callNamed_loaded {callee : String} {args : List ValueId} {r : Option ValueId} (h : Ready s)
    (run : callNamed callee pos args s = .ok r t)
    (hK : callee ∉ builtins → K ⟨s, callee, pos, args⟩) (hs : Loaded K s) : Loaded K t := by
  unfold callNamed at run
  split at run
  · exact Steady.bind (quiet_checkArguments ..).steady
      (fun _ => .bind (.emit rfl pos.line) fun v => .pure (some v)) run hs
  next hread =>
  split at run
  · refine Steady.bind (quiet_checkArguments ..).steady (fun _ => ?_) run hs
    split
    · exact .bind (.emit rfl pos.line) fun _ => .pure none
    · exact .pure none
  next hwrite =>
  split at run
  · exact Steady.bind (quiet_checkArguments ..).steady
      (fun _ => .bind (.emit rfl pos.line) fun _ => .pure none) run hs
  next hline =>
  exact callMethod_loaded h run (hK (by simp [builtins, hread, hwrite, hline])) hs

/-- A call behind its arguments. -/
theorem call_loaded {callee : String} {args : Syntax.Arguments} {close : Syntax.Mark}
    {vs : List ValueId} {r : Option ValueId} {t' : Builder} (h : Ready s)
    (hargs : arguments args s = .ok vs t) (hclose : require (.punct .rparen) close t = .ok () t')
    (hcall : callNamed callee pos vs t' = .ok r u)
    (hK : ∀ κ, callMakes (.ident callee pos) args close s κ → K κ) (ht : Loaded K t) :
    Loaded K u := by
  have hready := ((arguments_meets args h).of_ok hargs).1.ready
  obtain ⟨ds, rfl⟩ := (quiet_require (.punct .rparen) close).of_ok hclose
  refine callNamed_loaded (s := { t with diagnostics := ds }) hready hcall
    (fun hbuiltin => hK _ ⟨rfl, hbuiltin, ?_⟩) ⟨ht.distinct, ht.laden⟩
  unfold callArguments
  rw [bind_run hargs, bind_run hclose]
  rfl

/-! ## Expressions -/

theorem inMemory_extends {x : String} (h : s.program.view.InMemory s.cursor.method x)
    (k : Extends s t) : t.program.view.InMemory t.cursor.method x := by
  rw [k.advance.method]
  exact h.stands (l := []) k.keeps.stands

mutual

theorem expr_loaded : ∀ (e : Syntax.Expr) {s t : Builder} {v : ValueId}, Ready s →
    expr e s = .ok v t → (∀ κ, exprMakes e s κ → K κ) → Loaded K s → Loaded K t
  | .number n line, s, t, v, h, run, hK, hs => by
      unfold expr at run
      exact Steady.emit rfl line run hs
  | .designator (.missing found) is, s, t, v, h, run, hK, hs => by
      unfold expr at run
      cases run
  | .designator (.ident x pos) is, s, t, v, h, run, hK, hs => by
      unfold expr at run
      obtain ⟨_, _, hname, run⟩ := of_bind_ok run
      cases hname
      obtain ⟨⟨shape, storage⟩, _, hresolve, behind⟩ := of_bind_ok run
      obtain ⟨rfl, hx⟩ := (resolve_inMemory h x pos.line).of_ok hresolve
      obtain ⟨vs, t', his, behind⟩ := of_bind_ok behind
      have hextends := ((indices_meets is h).of_ok his).1
      refine readDesignator_loaded behind (fun hp => inMemory_extends (hx hp) hextends) ?_
      exact indices_loaded is h his (by simpa only [exprMakes] using hK) hs
  | .group inner close, s, t, v, h, run, hK, hs => by
      unfold expr at run
      obtain ⟨w, t', hinner, run⟩ := of_bind_ok run
      refine Steady.bind (quiet_require ..).steady (fun _ => .pure w) run ?_
      exact expr_loaded inner h hinner (by simpa only [exprMakes] using hK) hs
  | .arith op lhs rhs line, s, t, v, h, run, hK, hs => by
      unfold expr at run
      simp only [exprMakes] at hK
      obtain ⟨a, s', hlhs, run⟩ := of_bind_ok run
      obtain ⟨b, s'', hrhs, run⟩ := of_bind_ok run
      have hready := ((expr_meets lhs h).of_ok hlhs).1.ready
      refine Steady.emit rfl line run ?_
      refine expr_loaded rhs hready hrhs (fun κ hκ => hK κ (.inr ⟨_, _, hlhs, hκ⟩)) ?_
      exact expr_loaded lhs h hlhs (fun κ hκ => hK κ (.inl hκ)) hs
  | .call (.missing found) args close, s, t, v, h, run, hK, hs => by
      unfold expr at run
      cases run
  | .call (.ident callee pos) args close, s, t, v, h, run, hK, hs => by
      unfold expr at run
      simp only [exprMakes] at hK
      obtain ⟨_, _, hname, run⟩ := of_bind_ok run
      cases hname
      obtain ⟨vs, s', hargs, run⟩ := of_bind_ok run
      obtain ⟨_, s'', hclose, run⟩ := of_bind_ok run
      obtain ⟨r, u, hcall, run⟩ := of_bind_ok run
      have hu : Loaded K u := call_loaded h hargs hclose hcall (fun κ hκ => hK κ (.inr hκ))
        (arguments_loaded args h hargs (fun κ hκ => hK κ (.inl hκ)) hs)
      cases r with
      | none => cases run
      | some w =>
          cases run
          exact hu
  | .missing found, s, t, v, h, run, hK, hs => by
      unfold expr at run
      cases run

theorem indices_loaded : ∀ (is : Syntax.Indices) {s t : Builder} {vs : List ValueId}, Ready s →
    indices is s = .ok vs t → (∀ κ, indicesMakes is s κ → K κ) → Loaded K s → Loaded K t
  | .nil, s, t, vs, h, run, hK, hs => by
      unfold indices at run
      cases run
      exact hs
  | .cons index close rest, s, t, vs, h, run, hK, hs => by
      unfold indices at run
      simp only [indicesMakes] at hK
      obtain ⟨v, s', hindex, run⟩ := of_bind_ok run
      obtain ⟨_, s'', hclose, run⟩ := of_bind_ok run
      obtain ⟨ws, u, hrest, run⟩ := of_bind_ok run
      cases run
      have hready := ((expr_meets index h).of_ok hindex).1.ready
      have hboth := (bind_run (f := fun _ => require (.punct .rbracket) close) hindex).trans hclose
      have hs' := expr_loaded index h hindex (fun κ hκ => hK κ (.inl hκ)) hs
      obtain ⟨ds, rfl⟩ := (quiet_require (.punct .rbracket) close).of_ok hclose
      exact indices_loaded rest (s := { s' with diagnostics := ds }) hready hrest
        (fun κ hκ => hK κ (.inr ⟨_, _, hboth, hκ⟩)) ⟨hs'.distinct, hs'.laden⟩

theorem arguments_loaded : ∀ (args : Syntax.Arguments) {s t : Builder} {vs : List ValueId}, Ready s →
    arguments args s = .ok vs t → (∀ κ, argumentsMakes args s κ → K κ) → Loaded K s → Loaded K t
  | .nil, s, t, vs, h, run, hK, hs => by
      unfold arguments at run
      cases run
      exact hs
  | .cons argument rest, s, t, vs, h, run, hK, hs => by
      unfold arguments at run
      simp only [argumentsMakes] at hK
      obtain ⟨v, s', hargument, run⟩ := of_bind_ok run
      obtain ⟨ws, u, hrest, run⟩ := of_bind_ok run
      cases run
      have hready := ((expr_meets argument h).of_ok hargument).1.ready
      refine arguments_loaded rest hready hrest (fun κ hκ => hK κ (.inr ⟨_, _, hargument, hκ⟩)) ?_
      exact expr_loaded argument h hargument (fun κ hκ => hK κ (.inl hκ)) hs

end

theorem relation_loaded {r : Syntax.Relation} (h : Ready s) (run : relation r s = .ok v t)
    (hK : ∀ κ, relationMakes r s κ → K κ) (hs : Loaded K s) : Loaded K t := by
  cases r with
  | compare lhs op line rhs =>
      obtain ⟨a, s', hlhs, run⟩ := of_bind_ok run
      obtain ⟨b, s'', hrhs, run⟩ := of_bind_ok run
      have hready := ((expr_meets lhs h).of_ok hlhs).1.ready
      refine Steady.emit rfl line run ?_
      refine expr_loaded rhs hready hrhs (fun κ hκ => hK κ (.inr ⟨_, _, hlhs, hκ⟩)) ?_
      exact expr_loaded lhs h hlhs (fun κ hκ => hK κ (.inl hκ)) hs
  | noOperator lhs found =>
      obtain ⟨a, s', hlhs, run⟩ := of_bind_ok run
      cases run

theorem assign_loaded {x : String} {is : Syntax.Indices} {arrow : Syntax.Mark} {value : Syntax.Expr}
    (h : Ready s) (run : Build.stmt (.assign (.ident x pos) is arrow value) s = .ok () t)
    (hK : ∀ κ, stmtMakes (.assign (.ident x pos) is arrow value) s κ → K κ) (hs : Loaded K s) :
    Loaded K t := by
  unfold Build.stmt at run
  simp only [stmtMakes] at hK
  obtain ⟨_, _, hname, run⟩ := of_bind_ok run
  cases hname
  obtain ⟨⟨shape, storage⟩, _, hresolve, behind⟩ := of_bind_ok run
  obtain ⟨rfl, hx⟩ := (resolve_inMemory h x pos.line).of_ok hresolve
  obtain ⟨vs, t1, his, behind⟩ := of_bind_ok behind
  obtain ⟨_, t2, harrow, behind⟩ := of_bind_ok behind
  obtain ⟨v, t3, hvalue, hwrite⟩ := of_bind_ok behind
  have hboth := (bind_run (f := fun _ => require (.punct .arrow) arrow) his).trans harrow
  have hextends := ((indices_meets is h).of_ok his).1
  have ht1 := indices_loaded is h his (fun κ hκ => hK κ (.inl hκ)) hs
  obtain ⟨ds, rfl⟩ := (quiet_require (.punct .arrow) arrow).of_ok harrow
  have ht2 : Loaded K { t1 with diagnostics := ds } := ⟨ht1.distinct, ht1.laden⟩
  have hvalued := ((expr_meets value (s := { t1 with diagnostics := ds })
    hextends.ready).of_ok hvalue).1
  refine writeDesignator_loaded hwrite (fun hp => ?_) (expr_loaded value hvalued.start hvalue
    (fun κ hκ => hK κ (.inr ⟨_, _, hboth, hκ⟩)) ht2)
  exact inMemory_extends (s := { t1 with diagnostics := ds }) (inMemory_extends (hx hp) hextends)
    hvalued

theorem callStmt_loaded {callee : String} {args : Syntax.Arguments} {close : Syntax.Mark}
    (h : Ready s) (run : Build.stmt (.call (.ident callee pos) args close) s = .ok () t)
    (hK : ∀ κ, stmtMakes (.call (.ident callee pos) args close) s κ → K κ) (hs : Loaded K s) :
    Loaded K t := by
  unfold Build.stmt at run
  simp only [stmtMakes] at hK
  obtain ⟨_, _, hname, run⟩ := of_bind_ok run
  cases hname
  obtain ⟨vs, t1, hargs, run⟩ := of_bind_ok run
  obtain ⟨_, t2, hclose, run⟩ := of_bind_ok run
  obtain ⟨r, t3, hcall, run⟩ := of_bind_ok run
  cases run
  exact call_loaded h hargs hclose hcall (fun κ hκ => hK κ (.inr hκ))
    (arguments_loaded args h hargs (fun κ hκ => hK κ (.inl hκ)) hs)

theorem Straight.loaded (h : Straight K s t) (hr : Ready s) (hs : Loaded K s) : Loaded K t := by
  cases h with
  | expr run calls => exact expr_loaded _ hr run calls hs
  | relation run calls => exact relation_loaded hr run calls hs
  | @stmt x plain run calls =>
      cases x with
      | assign x is arrow value =>
          cases x with
          | missing found =>
              unfold Build.stmt at run
              cases run
          | ident x pos => exact assign_loaded hr run calls hs
      | call callee args close =>
          cases callee with
          | missing found =>
              unfold Build.stmt at run
              cases run
          | ident callee pos => exact callStmt_loaded hr run calls hs
      | unknown found =>
          unfold Build.stmt at run
          exact (quiet_report ..).steady run hs
      | _ => cases plain

end Build

namespace View

open Build (CallSite)

/-! ## While a body is built -/

/-- The code of all blocks of a method is as it should be. -/
structure Spilling (K : CallSite → Prop) (w : View) (m : MethodId) : Prop where
  distinct : (w.tracked m).Nodup
  laden : ∀ b, w.home b = some m → w.Laden K m b (w.body b)

section Spilling

variable {K : CallSite → Prop} {w z : View} {c : Cursor} {m : MethodId} {e b t : BlockId}

theorem unwritten (h : z.body b = w.body b) : ∃ code, z.body b = w.body b ++ code
    ∧ ∀ v ∈ code, ∃ o, z.op v = some o ∧ o.isLocal = true :=
  ⟨[], by rw [List.append_nil, h], by simp⟩

/-- Blocks are new and empty, or got code that leaves memory alone. -/
theorem Spilling.keep {S : BlockId → Prop} (h : Spilling K w m) (k : Keeps w z S)
    (hcode : ∀ b, z.home b = some m → z.body b = [] ∨ w.home b = some m ∧ ∃ code,
      z.body b = w.body b ++ code ∧ ∀ v ∈ code, ∃ o, z.op v = some o ∧ o.isLocal = true) :
    Spilling K z m := by
  refine ⟨k.tracked m ▸ h.distinct, fun b hb => ?_⟩
  rcases hcode b hb with hnil | ⟨hhome, code, hbody, hlocal⟩
  · rw [hnil]
    exact .nil
  · rw [hbody]
    exact ((h.laden b hhome).stands k.stands).append hlocal

theorem Spilling.depart (h : Spilling K w c.method) (hp : w.Placed c) (ht : w.Tables)
    (hne : t ≠ c.block) : Spilling K (w.depart c t) c.method := by
  have k := keeps_depart hp.toOpen ht t
  refine h.keep k fun b hb => ?_
  rw [home_depart] at hb
  rcases k.or_same (ht.present_of_home hb) with (rfl | ⟨-, rfl⟩) | hsame
  · refine Or.inr ⟨hb, [⟨w.values⟩], body_depart, fun v hv => ?_⟩
    rw [List.mem_singleton.1 hv]
    exact ⟨.jump t, op_depart, rfl⟩
  · exact Or.inr ⟨hb, unwritten (entered_depart hp hne).body⟩
  · exact Or.inr ⟨hb, unwritten hsame.body⟩

theorem framed_spilling (K : CallSite → Prop) (e : BlockId) : Framed e (Spilling K) where
  turned := by
    intro w z c hb ht htz _ k h
    refine h.keep k.toKeeps fun b hhome => ?_
    by_cases hold : w.kind b = none
    · exact Or.inl (k.blank b hold (htz.present_of_home hhome))
    obtain ⟨n, hn⟩ := Option.ne_none_iff_exists'.1 (mt ht.home_none.1 hold)
    obtain rfl := Option.some.inj ((k.home b n hn).symm.trans hhome)
    refine Or.inr ⟨hn, ?_⟩
    rcases k.or_same hold with (rfl | hbe) | hsame
    · obtain ⟨v, o, hbody, hop, hterm⟩ := k.ended
      refine ⟨[v], hbody, fun u hu => ⟨o, ?_, isLocal_of_isTerminator hterm⟩⟩
      rw [List.mem_singleton.1 hu]
      exact hop
    · exact unwritten (k.exit b hbe).body
    · exact unwritten hsame.body
  passed hb ht hj _ _ _ h := h.depart hb.toPlaced ht hj.apart
  met := by
    intro w z m join branch left right d _ htz k _ hm h
    refine h.keep hm.keeps fun b hhome => ?_
    rcases hm.keeps.or_same (hm.kinds ▸ htz.present_of_home hhome) with rfl | hsame
    · exact Or.inl hm.body
    · exact Or.inr ⟨hsame.home ▸ hhome, unwritten hsame.body⟩
  back hb ht hj _ _ _ _ _ _ h := h.depart hb.toPlaced ht hj.apart

/-! ## The ends of a body -/

theorem AtEntry.spilling {s t : Builder} (h : s.program.view.AtEntry s.cursor)
    (ho : Build.BodyOpen s t e) : Spilling K t.program.view t.cursor.method := by
  have hstart := ho.atStart h
  have k := (h.started s.program.view_tables).keeps
  have hview := ho.view
  have hbody : ∀ b, t.program.view.body b = (s.program.view.entered s.cursor).body b := by
    intro b
    rw [hview]
    rfl
  have hentry : t.program.view.body s.cursor.block
      = s.program.view.body s.cursor.block ++ [⟨s.program.view.values⟩] := by
    rw [hbody]
    exact body_depart
  rw [ho.method]
  refine ⟨?_, fun b hb => ?_⟩
  · rw [hview]
    exact k.tracked s.cursor.method ▸ h.distinct
  rcases hstart.blocks b hb with rfl | rfl | rfl
  · rw [hentry]
    have hcode : ∀ v ∈ s.program.view.body s.cursor.block,
        ∃ o, t.program.view.op v = some o ∧ o.isLocal = true := by
      intro v hv
      obtain ⟨o, ho, hlocal⟩ := h.code v hv
      refine ⟨o, ?_, hlocal⟩
      rw [hview]
      exact k.op v o ho
    refine (Laden.append .nil hcode).append fun v hv => ⟨.jump ⟨s.program.view.blocks⟩, ?_, rfl⟩
    rw [List.mem_singleton.1 hv, hview]
    exact op_depart
  · rw [hstart.led.body]
    exact .nil
  · rw [(List.append_eq_nil_iff.1 hstart.waiting.contents).2]
    exact .nil

/-- What is left when a body is closed. -/
theorem Spilling.finished (h : Spilling K w c.method) (hf : Build.Finished w c e z)
    (hb : w.InBody c e) (ht : w.Tables) (hhome : z.home b = some c.method) (hlive : z.Live b) :
    z.Laden K c.method b (z.body b) := by
  have htarget := hb.waiting.target hb.toOpen
  have hleft := h.depart hb.toPlaced ht htarget.apart
  have hsettled := hf.settled
  by_cases hbe : b = e
  · subst hbe
    obtain ⟨v, o, hbody, hop, hlocal⟩ :
        ∃ v o, z.body b = [v] ∧ z.op v = some o ∧ o.isLocal = true := by
      by_cases hfunction : w.sort c.method = some .function
      · obtain ⟨-, r, -, v, hbody, hop⟩ := hf.returns hfunction
        exact ⟨v, _, hbody, hop, rfl⟩
      · obtain ⟨-, v, hbody, hop⟩ := hf.plain hfunction
        exact ⟨v, _, hbody, hop, rfl⟩
    rw [hbody]
    exact .single .nil hop (permits_of_isLocal hlocal)
  · rw [(hsettled.contents b (hsettled.live.1 hlive) hbe).2]
    refine (hleft.laden b (hsettled.home ▸ hhome)).stands ⟨fun v _ o ho hno => hsettled.op v o ho hno,
      by rw [hsettled.sort], by rw [hsettled.symbols], ?_⟩
    rw [hf.outside.globals, (keeps_depart hb.toOpen ht e).globals]

end Spilling

end View

namespace Build

open View

/-- The code of every block of a method that is built. -/
theorem Made.laden {K : CallSite → Prop} {z : View} {m : MethodId} {b : Syntax.Body}
    {s t u r : Builder} {e c : BlockId} (h : Made z m b s t u r e)
    (hK : ∀ κ, sequenceMakes true b.statements t κ → K κ) (hc : c ∈ z.owned m) :
    z.Laden K m c (z.body c) := by
  obtain ⟨hentry, rfl, hbody, huntouched⟩ := h
  have hend := hbody.laid.held (framed_spilling K e)
    (fun {s t} hs k hstraight hI => ?_) hK (hentry.spilling hbody.opened)
  · have hsound := hbody.finished.sound
    have howned := (huntouched.owned c).1 hc
    have hhome := hsound.wired.owned_home _ _ howned
    have hsame := huntouched.block c hhome
    have hladen := hend.finished hbody.finished hbody.ran.finish u.program.view_tables
      (hbody.method ▸ hhome) (hbody.closed.alive c howned)
    rw [hbody.method] at hladen
    rw [hsame.body]
    refine hladen.stands ⟨fun v hv o ho _ => ?_, huntouched.sort, huntouched.symbols,
      huntouched.globals⟩
    have howner := (hsound.wired.listed v c).1 (List.mem_append_right _ hv)
    rw [(huntouched.instr v c howner hhome).1, ho]
  · -- straight code: only the block at the cursor gets code
    have hloaded := hstraight.loaded hs.toReady ⟨hI.distinct, hI.laden _ hs.home⟩
    refine ⟨hloaded.distinct, fun b hb => ?_⟩
    have hold := k.kinds ▸ t.program.view_tables.present_of_home hb
    rcases k.keeps.or_same hold with rfl | hsame
    · have hladen := hloaded.laden
      rwa [k.block] at hladen
    · rw [k.advance.method] at hb ⊢
      rw [hsame.body]
      exact (hI.laden b (hsame.home ▸ hb)).stands k.keeps.stands

end Build

end StructuredSsa
