import StructuredSsa.Proofs.DefiniteReturn

/-!
# The cursor while a body is built

`TakenUp t ds task s`: in the course of building the computation `t`, the statement
or the rest of a sequence `task` is built from the state `s`. The construction need
not get any further than that. Whenever it takes something up or ends it, the cursor
fits the program so far (`takenUp_fits`): its mark says whether control gets
there, and where a return made it false the exit can be reached.
-/

namespace StructuredSsa

namespace Build

open View Syntax

/-- What is built at a cursor: a statement, or what is left of a sequence. -/
inductive Task where
  | stmt (y : Stmt)
  | sequence (watch : Bool) (ts : Sequence)

def Task.build : Task → BuildM Unit
  | stmt y => Build.stmt y
  | sequence watch ts => Build.sequence watch ts

/-- The statements and sequences that are built in the course of a computation, each
with the state it is built from. Every call is followed that `computation_eq`,
`methodDecl_parts`, `sequence_cons`, `stmt_ifThen` and `stmt_whileDo` show. -/
inductive TakenUp (t : Computation) (ds : List Diagnostic) : Task → Builder → Prop where
  | main {s : Builder} (run : beginMain t (.init ds) = .ok () s) :
      TakenUp t ds (.sequence true t.body.statements) s
  | method {before after : List MethodDecl} {d : MethodDecl} {s : Builder}
      (declared : t.methods = before ++ d :: after)
      (run : (do toDecl t before; toStatements d) (.init ds) = .ok () s) :
      TakenUp t ds (.sequence true d.body.statements) s
  | first {watch watch' separated : Bool} {first : Token} {y : Stmt} {rest : Sequence}
      {s u : Builder} (within : TakenUp t ds (.sequence watch (.cons separated first y rest)) s)
      (run : announce watch separated first s = .ok watch' u) : TakenUp t ds (.stmt y) u
  | rest {watch watch' separated : Bool} {first : Token} {y : Stmt} {rest : Sequence}
      {s u r : Builder} (within : TakenUp t ds (.sequence watch (.cons separated first y rest)) s)
      (run : announce watch separated first s = .ok watch' u) (built : stmt y u = .ok () r) :
      TakenUp t ds (.sequence watch' rest) r
  | yes {line thenLine endLine : Nat} {condition : Relation} {thenMark fi : Mark}
      {yes no : Sequence} {s left : Builder} {c : Cursor} {b j : BlockId}
      (within : TakenUp t ds (.stmt (.ifThen line condition thenMark yes thenLine no endLine fi)) s)
      (run : openParts line condition thenMark s = .ok (c, b, j) left) :
      TakenUp t ds (.sequence c.reachable yes) left
  | no {line thenLine endLine : Nat} {condition : Relation} {thenMark fi : Mark}
      {yes no : Sequence} {s left left' right : Builder} {c : Cursor} {b j : BlockId}
      {way : Departure}
      (within : TakenUp t ds (.stmt (.ifThen line condition thenMark yes thenLine no endLine fi)) s)
      (run : openParts line condition thenMark s = .ok (c, b, j) left)
      (built : sequence c.reachable yes left = .ok () left')
      (turned : nextPart c b j thenLine left' = .ok way right) :
      TakenUp t ds (.sequence c.reachable no) right
  | body {line endLine : Nat} {condition : Relation} {doMark od : Mark} {body : Sequence}
      {s inside : Builder} {header b : BlockId} {c : Cursor}
      (within : TakenUp t ds (.stmt (.whileDo line condition doMark body endLine od)) s)
      (run : openLoop line condition doMark s = .ok (header, c, b) inside) :
      TakenUp t ds (.sequence c.reachable body) inside

theorem beginMain_meets (t : Computation) (ds : List Diagnostic) :
    Meets Expected (beginMain t) (.init ds) fun _ s => ∃ e, InBody s e := by
  refine Meets.bind (openMain_meets t ds) fun _ s hs => meets_cursor ?_
  refine Meets.bind (methodDecls_meets t.methods hs) fun _ u hu => meets_bind_of_eq rfl ?_
  refine (quiet_require ..).bind fun ds' => ?_
  have hentry : View.AtEntry u.program.view s.cursor := hu.1.entry
  exact (openBody_meets (s := ⟨u.program, s.cursor, ds'⟩) hentry t.body.openLine).mono
    fun _ _ ⟨e, he⟩ => ⟨e, he.inBody⟩

theorem Task.build_meets (e : BlockId) (task : Task) {s : Builder} (h : InBody s e) :
    Meets Expected task.build s fun _ u => Ran e s u := by
  cases task with
  | stmt y => exact (stmt_meets e y s h).mono fun _ _ hu => hu.1
  | sequence watch ts => exact (sequence_meets e watch ts s h).mono fun _ _ hu => hu.1

theorem inBody_announce {watch watch' separated : Bool} {first : Token} {s u : Builder}
    {e : BlockId} (h : InBody s e) (run : announce watch separated first s = .ok watch' u) :
    InBody u e := by
  obtain ⟨_, ds, hquiet⟩ := announce_quiet watch separated first s
  cases hquiet.symm.trans run
  exact h

/-- Whatever is taken up is built in the body of a method. -/
theorem TakenUp.inBody {t : Computation} {ds : List Diagnostic} {task : Task} {s : Builder}
    (h : TakenUp t ds task s) : ∃ e, InBody s e := by
  induction h with
  | main run => exact (beginMain_meets t ds).of_ok run
  | method _ run =>
      obtain ⟨_, _, hdecl, hstatements⟩ := of_bind_ok run
      obtain ⟨e, he⟩ := (toStatements_meets ((toDecl_meets t _ ds).of_ok hdecl) _).of_ok hstatements
      exact ⟨e, he.inBody⟩
  | first _ run ih => exact ih.imp fun e he => inBody_announce he run
  | rest _ run built ih =>
      exact ih.imp fun e he => ((stmt_meets e _ _ (inBody_announce he run)).of_ok built).1.finish
  | yes _ run ih =>
      obtain ⟨e, he⟩ := ih
      obtain ⟨_, _, _, _, _, -, -, -, hopen⟩ := (openParts_meets he _ _ _).of_ok run
      exact ⟨e, hopen.inBody⟩
  | no _ run built turned ih =>
      obtain ⟨e, he⟩ := ih
      obtain ⟨_, _, _, _, _, hr, -, -, hopen⟩ := (openParts_meets he _ _ _).of_ok run
      cases hr
      -- the first part may have ended in a return, but it left the other way as it was
      have ran := ((sequence_meets e _ _ _ hopen.inBody).of_ok built).1
      obtain ⟨rfl, at_right, -, hleft⟩ := (nextPart_meets (E := Expected) hopen ran _).of_ok turned
      exact ⟨e, hopen.inBody_right hleft at_right⟩
  | body _ run ih =>
      obtain ⟨e, he⟩ := ih
      obtain ⟨_, _, _, _, _, _, -, -, -, hopen⟩ := (openLoop_meets he _ _ _).of_ok run
      exact ⟨e, hopen.inBody⟩

end Build

/-- The cursor stands in a block of its method that can still be written to, knows what
every tracked variable holds, and is marked as reachable just if its block is. -/
structure Cursor.Fits (p : Program) (c : Cursor) (m : Method) (r : Block) : Prop where
  method : p.method? c.method = some m
  block : p.block? c.block = some r
  home : r.method = c.method ∧ c.block ∈ m.blocks
  unsealed : r.after = none
  bound : ∀ x ∈ p.view.tracked c.method, ∃ v i, c.bindings.get? x = some v ∧ p.instr? v = some i
  reachable : c.reachable = true ↔ Reaches p.succs m.entry c.block
  dead : c.reachable = false → r.preds = []

namespace View

variable {p : Program} {c : Cursor} {e : BlockId}

theorem Wired.live_iff {w : View} (h : w.Wired) {m : MethodId} {b a : BlockId}
    (hb : w.home b = some m) (ha : w.entry m = some a) : w.Live b ↔ Reaches w.succs a b := by
  refine ⟨fun hlive => h.live_reached b m a hlive hb ha, ?_⟩
  rintro ⟨_, hwalk⟩
  cases hwalk with
  | here => exact Or.inl (h.isEntry_entry _ m ha).1
  | step _ hedge => exact Or.inr (List.ne_nil_of_mem ((h.edge _ _).1 hedge))

theorem InBody.fits (h : p.view.InBody c e) : ∃ m r, c.Fits p m r := by
  obtain ⟨m, hm⟩ := Program.method_of_sort h.has_method
  obtain ⟨_, hk⟩ := Option.ne_none_iff_exists'.1 h.present
  obtain ⟨r, hr, -⟩ := Program.exists_block hk
  obtain ⟨-, hentry, -, howned, -⟩ := Program.view_of_method hm
  obtain ⟨-, hhome, -, -, hpreds, -, -, hafter, -⟩ := Program.view_of_block hr
  refine ⟨m, r, hm, hr, ⟨Option.some.inj (hhome.symm.trans h.home), howned ▸ h.owned⟩,
    hafter.symm.trans h.opened, fun x hx => ?_, h.live.trans (h.wired.live_iff h.home hentry),
    fun hdead => ?_⟩
  · obtain ⟨v, hv⟩ := h.bound x hx
    obtain ⟨o, ho, -⟩ := (h.usable x v hv).1
    obtain ⟨i, hi, -⟩ := Program.exists_instr ho
    exact ⟨v, i, hv, hi⟩
  · by_contra hne
    rw [← hpreds] at hne
    simp [h.live.2 (Or.inr hne)] at hdead

/-- In dead code there is a way to the exit. -/
theorem InBody.exit_reached (h : p.view.InBody c e) {m : Method} (hm : p.method? c.method = some m)
    (hdead : c.reachable = false) :
    m.exit = some e ∧ ∃ b ∈ p.preds e, Reaches p.succs m.entry b := by
  obtain ⟨-, hentry, hexit, -⟩ := Program.view_of_method hm
  obtain ⟨b, hb⟩ := List.exists_mem_of_ne_nil _ (h.returns.resolve_left (by simp [hdead]))
  have hedge := (h.wired.edge b e).2 hb
  have hhome := (h.wired.edge_home b e hedge).symm.trans h.waiting.home
  exact ⟨hexit.symm.trans h.waiting.exit, b, hb,
    (h.wired.live_iff hhome hentry).1 (h.wired.edge_live b e hedge)⟩

end View

open Build

/-- Whatever the tokens, the cursor fits the program so far whenever a statement or a
sequence is taken up and whenever it is done. Where control gets to its start but not
behind it, control gets to the exit of the method. -/
theorem takenUp_fits {tokens : List Token} {earlier : List Diagnostic} {task : Task} {s : Builder}
    (h : TakenUp (Syntax.read tokens) earlier task s) :
    (∃ m r, s.cursor.Fits s.program m r) ∧ ∀ u, task.build s = .ok () u →
      u.cursor.method = s.cursor.method ∧ ∃ m r, u.cursor.Fits u.program m r ∧
        (s.cursor.reachable = true → u.cursor.reachable = false →
          ∃ e, m.exit = some e ∧ ∃ b ∈ u.program.preds e, Reaches u.program.succs m.entry b) := by
  obtain ⟨e, he⟩ := h.inBody
  refine ⟨he.fits, fun u hu => ?_⟩
  have hran := (task.build_meets e he).of_ok hu
  obtain ⟨m, r, hfits⟩ := hran.finish.fits
  exact ⟨hran.advance.method, m, r, hfits, fun _ hdead =>
    ⟨e, hran.finish.exit_reached hfits.method hdead⟩⟩

/-- A body that returns on both ways through a conditional. -/
def leaving : List Token :=
  [.keyword .main, .punct .lbrace, .keyword .if_, .number 1, .punct .lt, .number 2, .keyword .then_,
    .keyword .ret, .keyword .else_, .keyword .ret, .keyword .fi, .punct .rbrace, .punct .period,
    .eof].map fun k => ⟨k, k.text, .start⟩

theorem leaving_fits : ∃ ts s u, TakenUp (Syntax.read leaving) [] (.sequence true ts) s
    ∧ sequence true ts s = .ok () u ∧ s.cursor.reachable = true ∧ u.cursor.reachable = false
    ∧ ∃ m r, u.cursor.Fits u.program m r
      ∧ ∃ e, m.exit = some e ∧ ∃ b ∈ u.program.preds e, Reaches u.program.succs m.entry b := by
  have hrun : EStateM.run' (do
      beginMain (Syntax.read leaving)
      let before ← cursor
      sequence true (Syntax.read leaving).body.statements
      return (before.reachable, (← cursor).reachable)) (.init []) = some (true, false) := by
    decide +kernel
  obtain ⟨_, hrun⟩ := ok_of_run' hrun
  obtain ⟨_, s, hs, hrun⟩ := of_bind_ok hrun
  obtain ⟨_, _, ⟨⟩, hrun⟩ := of_bind_ok hrun
  obtain ⟨_, u, hu, hrun⟩ := of_bind_ok hrun
  obtain ⟨-, m, r, hfits, hexit⟩ := (takenUp_fits (.main hs)).2 u hu
  obtain ⟨hlive, hdead⟩ := Prod.mk.inj (EStateM.Result.ok.inj hrun).1
  exact ⟨_, s, u, .main hs, hu, hlive, hdead, m, r, hfits, hexit hlive hdead⟩

end StructuredSsa
