import StructuredSsa.Proofs.Locals

/-!
# Functions return a value

Whether a function returns a value on every way out is found in its graph, from
what the ways to its exit are left with. It can be told from its text as well:
control must not get behind the body (`Sequence.completes`), nor to a return
without a value (`Sequence.returnsBare`). `definite_return` says that the two
agree, and what the exit of an accepted function returns.

`sequenceWays` lists the returns that are built where control gets to, each with
the block that it ends. Every statement adds its ways to the predecessors of the
exit, in order, and nothing else does (`LaidAll.leaves`).
-/

namespace StructuredSsa

namespace Syntax

/-! ## What the text says -/

mutual

/-- Whether control can get behind a statement. -/
def Stmt.completes : Stmt → Bool
  | .ifThen _ _ _ yes _ no _ _ => yes.completes || no.completes
  | .ret .. => false
  | .assign .. | .call .. | .whileDo .. | .unknown _ => true

def Sequence.completes : Sequence → Bool
  | .nil => true
  | .cons _ _ t rest => t.completes && rest.completes

end

mutual

/-- Whether a statement holds a return without a value that control can get to. -/
def Stmt.returnsBare : Stmt → Bool
  | .ifThen _ _ _ yes _ no _ _ => yes.returnsBare || no.returnsBare
  | .whileDo _ _ _ body _ _ => body.returnsBare
  | .ret _ value => value.isNone
  | .assign .. | .call .. | .unknown _ => false

def Sequence.returnsBare : Sequence → Bool
  | .nil => false
  | .cons _ _ t rest => t.returnsBare || t.completes && rest.returnsBare

end

end Syntax

namespace Build

open View Syntax

/-! ## What is built -/

/-- A way out of a method: the block that a return ends, and the value it
returns. -/
structure Way where
  block : BlockId
  value : Option ValueId

/-- The ways out that are found behind a run of `x`. -/
def waysBehind {α : Type} (x : BuildM α) (s : Builder) (f : α → Builder → List Way) : List Way :=
  match x s with
  | .ok a t => f a t
  | .error _ _ => []

/-- A return at the cursor is a way out if control gets there. -/
def wayOut (value : Option ValueId) (s : Builder) : List Way :=
  if s.cursor.reachable then [⟨s.cursor.block, value⟩] else []

mutual

/-- The ways out that a statement has when it is built from a state, in the order
of its text. -/
def stmtWays : Stmt → Builder → List Way
  | .ret _ none, s => wayOut none s
  | .ret _ (some value), s => waysBehind (expr value) s fun v t => wayOut (some v) t
  | .ifThen line condition thenMark yes thenLine no _ _, s =>
      waysBehind (openParts line condition thenMark) s fun r left =>
        sequenceWays yes r.1.reachable left
          ++ waysBehind (do sequence r.1.reachable yes; nextPart r.1 r.2.1 r.2.2 thenLine) left
            fun _ right => sequenceWays no r.1.reachable right
  | .whileDo line condition doMark body _ _, s =>
      waysBehind (openLoop line condition doMark) s fun r inside =>
        sequenceWays body r.2.1.reachable inside
  | .assign .., _ | .call .., _ | .unknown _, _ => []

def sequenceWays : Sequence → Bool → Builder → List Way
  | .nil, _, _ => []
  | .cons separated first t rest, watch, s =>
      waysBehind (announce watch separated first) s fun watch t₀ =>
        stmtWays t t₀ ++ waysBehind (stmt t) t₀ fun _ u => sequenceWays rest watch u

end

/-- The body of a function is built, and its value is called as no variable is. -/
structure Function (s : Builder) : Prop where
  sort : s.program.view.sort s.cursor.method = some .function
  untracked : Bindings.returnName ∉ s.program.view.tracked s.cursor.method

theorem Function.keep {s t : Builder} {S : BlockId → Prop} (h : Function s)
    (k : Keeps s.program.view t.program.view S) (hm : t.cursor.method = s.cursor.method) :
    Function t where
  sort := by
    rw [k.sort, hm]
    exact h.sort
  untracked := by
    rw [k.tracked, hm]
    exact h.untracked

/-- From `s` to `u` code was built that has the ways `ws` to the exit `e`. Control
gets behind it if `completes` says so, and to a return without a value if `bare`
does. -/
structure Leaves (e : BlockId) (s u : Builder) (ws : List Way) (completes bare : Bool) : Prop where
  preds : u.program.view.preds e = s.program.view.preds e ++ ws.map (·.block)
  returned : ∀ way ∈ ws, ∃ st, u.program.view.after way.block = some st
    ∧ st.get? Bindings.returnName = way.value
  reachable : u.cursor.reachable = (s.cursor.reachable && completes)
  bare : (∃ way ∈ ws, way.value = none) ↔ s.cursor.reachable = true ∧ bare = true

section Leaves

variable {e : BlockId} {s t u : Builder} {ws ws' : List Way} {c c' b b' : Bool}

theorem Leaves.nil (e : BlockId) (s : Builder) : Leaves e s s [] true false :=
  ⟨by simp, by simp, by simp, by simp⟩

/-- A step that does not go to the exit comes first. -/
theorem Leaves.following (h : Leaves e t u ws c b)
    (hpreds : t.program.view.preds e = s.program.view.preds e)
    (hreach : t.cursor.reachable = s.cursor.reachable) : Leaves e s u ws c b :=
  ⟨hpreds ▸ h.preds, h.returned, hreach ▸ h.reachable, hreach ▸ h.bare⟩

theorem preds_extends (h : Extends s t) (hb : InBody s e) :
    t.program.view.preds e = s.program.view.preds e :=
  (h.keeps.same e (by simp [hb.waiting.kind]) (hb.exit_apart e hb.waiting.exit).2).preds

/-- What a block was left with, it stays left with. -/
theorem Leaves.kept {S : BlockId → Prop} (h : Leaves e s t ws c b)
    (k : Keeps t.program.view u.program.view S) (way : Way) (hway : way ∈ ws) :
    ∃ st, u.program.view.after way.block = some st
      ∧ st.get? Bindings.returnName = way.value := by
  obtain ⟨st, hst, hvalue⟩ := h.returned way hway
  exact ⟨st, k.after _ _ hst, hvalue⟩

theorem Leaves.trans {S : BlockId → Prop} (h : Leaves e s t ws c b) (h' : Leaves e t u ws' c' b')
    (k : Keeps t.program.view u.program.view S) :
    Leaves e s u (ws ++ ws') (c && c') (b || c && b') where
  preds := by rw [h'.preds, h.preds, List.map_append, List.append_assoc]
  returned way hway := by
    rcases List.mem_append.1 hway with hway | hway
    · exact h.kept k way hway
    · exact h'.returned way hway
  reachable := by rw [h'.reachable, h.reachable, Bool.and_assoc]
  bare := by
    have hsplit : (∃ way ∈ ws ++ ws', way.value = none)
        ↔ (∃ way ∈ ws, way.value = none) ∨ ∃ way ∈ ws', way.value = none := by
      simp only [List.mem_append, or_and_right, exists_or]
    rw [hsplit, h.bare, h'.bare, h.reachable]
    simp only [Bool.and_eq_true, Bool.or_eq_true]
    tauto

/-- A return is a way out, and nothing gets behind it. -/
theorem Left.leaves {value : Option ValueId} {d : Cursor} (h : Left t u e value d)
    (hr : Ready t) (hf : Function t) : Leaves e t u (wayOut value t) false value.isNone := by
  have hpreds : u.program.view.preds e = (t.program.view.depart d e).preds e := by
    rw [h.view]
    rfl
  have hafter : u.program.view.after t.cursor.block = some d.bindings := by
    rw [h.view, ← h.block]
    exact after_depart
  rw [preds_depart h.placed, h.reachable, h.block] at hpreds
  refine ⟨?_, fun way hway => ?_, by rw [h.cursor]; simp [afterLeave], ?_⟩
  · rw [hpreds]
    unfold wayOut
    split <;> simp
  · unfold wayOut at hway
    split at hway
    · next hreach =>
        rw [List.mem_singleton.1 hway]
        refine ⟨d.bindings, hafter, ?_⟩
        rw [h.bindings _ hf.sort]
        cases value with
        | some v => simp [leavingWith]
        | none =>
            -- control gets here, so that only what is tracked is bound
            cases hget : t.cursor.bindings.get? Bindings.returnName with
            | none => exact hget
            | some v => exact absurd (hr.known hreach _ v hget) hf.untracked
    · cases hway
  · unfold wayOut
    cases hreach : t.cursor.reachable <;> cases value <;> simp

end Leaves

/-! ## Conditionals and loops -/

section Parts

variable {e : BlockId} {s t left left' right right' ends u : Builder} {v : ValueId}
  {a b j : BlockId} {ws ws' : List Way} {c c' n n' : Bool}

/-- The ways of a conditional are those of its parts. -/
theorem Conditional.leaves (h : Conditional e t left left' right right' ends u v a b j)
    (hleft : Leaves e left left' ws c n) (hright : Leaves e right right' ws' c' n') :
    Leaves e t u (ws ++ ws') (c || c') (n || n') := by
  have hexit : t.program.view.kind e ≠ none := by simp [h.body.waiting.kind]
  have hej : e ≠ j := by
    rintro rfl
    exact hexit h.branched.new_join
  have hne {d : Builder} (hd : InBody d e) : e ≠ d.cursor.block :=
    (hd.exit_apart e hd.waiting.exit).2
  have hdepart {d : Builder} (hd : InBody d e) :
      Same d.program.view (d.program.view.depart d.cursor j) e :=
    (keeps_depart hd.toOpen d.program.view_tables j).same e (by simp [hd.waiting.kind]) (by
      rintro (he | he)
      · exact hne hd he
      · exact hej he.2)
  have kleft := keeps_depart h.ran_left.finish.toOpen left'.program.view_tables j
  have kright := keeps_depart h.ran_right.finish.toOpen right'.program.view_tables j
  rw [← h.between] at kleft
  rw [← h.behind] at kright
  have hpreds : u.program.view.preds e = right'.program.view.preds e := by
    rw [(h.met.keeps.same e ?_ hej).preds, h.behind, (hdepart h.ran_right.finish).preds]
    exact kright.exists_kind (by simp [h.ran_right.finish.waiting.kind])
  have hstart : left.program.view.preds e = t.program.view.preds e :=
    (h.branched.keeps.same e hexit (hne h.body)).preds
  have hbetween : right.program.view.preds e = left'.program.view.preds e := by
    rw [h.between, (hdepart h.ran_left.finish).preds]
  have hreach_left : left.cursor.reachable = t.cursor.reachable := by
    rw [h.at_left]
    rfl
  have hreach_right : right.cursor.reachable = t.cursor.reachable := by
    rw [h.at_right]
    rfl
  refine ⟨?_, fun way hway => ?_, ?_, ?_⟩
  · rw [hpreds, hright.preds, hbetween, hleft.preds, hstart, List.map_append, List.append_assoc]
  · rcases List.mem_append.1 hway with hway | hway
    · exact hleft.kept (((kleft.trans h.ran_right.advance.toKeeps).trans kright).trans h.met.keeps)
        way hway
    · exact hright.kept (kright.trans h.met.keeps) way hway
  · rw [h.met.reachable]
    show (left'.cursor.reachable || right'.cursor.reachable) = _
    rw [hleft.reachable, hright.reachable, hreach_left, hreach_right, Bool.and_or_distrib_left]
  · have hsplit : (∃ way ∈ ws ++ ws', way.value = none)
        ↔ (∃ way ∈ ws, way.value = none) ∨ ∃ way ∈ ws', way.value = none := by
      simp only [List.mem_append, or_and_right, exists_or]
    rw [hsplit, hleft.bare, hright.bare, hreach_left, hreach_right, ← and_or_left, Bool.or_eq_true]

/-- The ways of a loop are those of its body. -/
theorem Loop.leaves {t' inside inside' : Builder} {header : BlockId}
    (h : Loop e s t t' inside inside' u v header a b) (hbody : Leaves e inside inside' ws c n) :
    Leaves e s u ws true n := by
  obtain ⟨z, hlooped⟩ := h.looped
  have hexit : s.program.view.kind e ≠ none := by simp [h.entered.start.waiting.kind]
  have hne {d : Builder} (hd : InBody d e) : e ≠ d.cursor.block :=
    (hd.exit_apart e hd.waiting.exit).2
  have ht' : InBody t' e := h.entered.finish.extends h.extended
  have hheader : e ≠ header := by
    rintro rfl
    exact hexit hlooped.headed.new
  have kback := keeps_depart h.ran.finish.toOpen inside'.program.view_tables header
  have hpreds : u.program.view.preds e = inside'.program.view.preds e := by
    rw [h.back, (kback.same e (by simp [h.ran.finish.waiting.kind]) ?_).preds]
    rintro (he | he)
    · exact hne h.ran.finish he
    · exact hheader he.2
  have hstart : inside.program.view.preds e = s.program.view.preds e := by
    rw [(h.forked.keeps.same e (by simp [ht'.waiting.kind]) (hne ht')).preds,
      (h.extended.keeps.same e (by simp [h.entered.finish.waiting.kind])
        (hne h.entered.finish)).preds, hlooped.view]
    exact (hlooped.headed.keeps.same e hexit (hne h.entered.start)).preds
  have hreach_t : t'.cursor.reachable = s.cursor.reachable := by
    rw [h.extended.reachable, hlooped.cursor]
  have hreach : inside.cursor.reachable = s.cursor.reachable := by
    rw [h.at_body]
    exact hreach_t
  rw [← h.back] at kback
  refine ⟨by rw [hpreds, hbody.preds, hstart], hbody.kept kback, ?_, by rw [hbody.bare, hreach]⟩
  rw [h.behind, Bool.and_true]
  exact hreach_t

end Parts

/-! ## Whole bodies -/

theorem waysBehind_of_ok {α : Type} {x : BuildM α} {s t : Builder} {a : α}
    (h : x s = .ok a t) (f : α → Builder → List Way) : waysBehind x s f = f a t := by
  rw [waysBehind, h]

theorem LaidAll.ran {e : BlockId} {watch : Bool} {x : Sequence} {s u : Builder} :
    LaidAll e watch x s u → InBody s e → Ran e s u
  | .nil, h => ⟨h, h, .refl _ _⟩
  | .cons _ _ _ ran after, h =>
      ⟨h, (after.ran ran.finish).finish,
        ran.advance.trans (after.ran ran.finish).advance h.toOpen⟩

mutual

/-- What a statement adds to the ways to the exit. -/
theorem Laid.leaves {e : BlockId} {x : Stmt} {s u : Builder} :
    Laid e x s u → Ran e s u → Function s → Leaves e s u (stmtWays x s) x.completes x.returnsBare
  | .straight plain _ extended, ran, _ => by
      have hstill := (Leaves.nil e u).following (preds_extends extended ran.start)
        extended.reachable
      cases x with
      | assign | call | unknown =>
          simpa [stmtWays, Stmt.completes, Stmt.returnsBare] using hstill
      | ifThen | whileDo | ret => cases plain
  | .left gone, ran, hf => by
      simpa [stmtWays, Stmt.completes, Stmt.returnsBare] using gone.leaves ran.start.toReady hf
  | .leftWith run extended gone, ran, hf => by
      have hgone := gone.leaves extended.ready (hf.keep extended.keeps extended.advance.method)
      rw [stmtWays, waysBehind_of_ok run]
      simpa [Stmt.completes, Stmt.returnsBare] using
        hgone.following (preds_extends extended ran.start) extended.reachable
  | .conditional test extended opened run_left turned parts laid_left laid_right, ran, hf => by
      have hf_left := (hf.keep extended.keeps extended.advance.method).keep parts.branched.keeps
        (by rw [parts.at_left]; rfl)
      have hf_right := hf_left.keep parts.passed_left.keeps
        (by rw [parts.at_right, parts.at_left]; rfl)
      have hparts := parts.leaves (laid_left.leaves hf_left) (laid_right.leaves hf_right)
      rw [stmtWays, waysBehind_of_ok opened]
      dsimp only
      rw [waysBehind_of_ok ((bind_run run_left).trans turned)]
      simpa [Stmt.completes, Stmt.returnsBare] using
        hparts.following (preds_extends extended ran.start) extended.reachable
  | .loop _ test opened parts laid, ran, hf => by
      have hf_inside := hf.keep ((parts.entered.advance.toKeeps.trans parts.extended.keeps).trans
        parts.forked.keeps) (by
          rw [parts.at_body]
          exact parts.extended.advance.method.trans parts.entered.advance.method)
      rw [stmtWays, waysBehind_of_ok opened]
      simpa [Stmt.completes, Stmt.returnsBare] using parts.leaves (laid.leaves hf_inside)

theorem LaidAll.leaves {e : BlockId} {watch : Bool} {x : Sequence} {s u : Builder} :
    LaidAll e watch x s u → Function s →
      Leaves e s u (sequenceWays x watch s) x.completes x.returnsBare
  | .nil, _ => by
      simpa [sequenceWays, Sequence.completes, Sequence.returnsBare] using Leaves.nil e s
  | .cons announced run laid ran after, hf => by
      have hfirst := laid.leaves ⟨ran.start, ran.finish, ran.advance⟩ ⟨hf.sort, hf.untracked⟩
      have hrest := after.leaves (hf.keep ran.advance.toKeeps ran.advance.method)
      rw [sequenceWays, waysBehind_of_ok announced, waysBehind_of_ok run, Sequence.completes,
        Sequence.returnsBare]
      exact (hfirst.trans hrest (after.ran ran.finish).advance.toKeeps).following rfl rfl

end

/-! ## The exit -/

/-- The exit `e` of the method `m` returns what the ways `ws` to it are left with:
the values `vs`, one for each, for which `v` stands. -/
structure Returns (w : View) (m : MethodId) (ws : List Way) (e : BlockId) (vs : List ValueId)
    (v : ValueId) : Prop where
  exit : w.exit m = some e
  ways : w.preds e = ws.map (·.block)
  values : ws.map (·.value) = vs.map some
  returning : Returning w w e vs v
  ret : ∃ u, w.body e = [u] ∧ w.op u = some (.ret (some v))

section Closing

variable {e : BlockId} {start stop : Builder} {ws : List Way} {c b : Bool}

/-- What the ways of a body are left with when it is closed. -/
theorem Leaves.returned_depart (h : Leaves e start stop ws c b) (hb : InBody stop e) (way : Way)
    (hway : way ∈ ws) :
    (stop.program.view.depart stop.cursor e).returned way.block = way.value := by
  obtain ⟨st, hst, hvalue⟩ := h.returned way hway
  have hafter := (keeps_depart hb.toOpen stop.program.view_tables e).after _ _ hst
  rw [View.returned, hafter]
  exact hvalue

/-- Control that gets to the end of a function has no value to return. -/
theorem Function.returned_depart (hf : Function stop) (hb : InBody stop e)
    (hreach : stop.cursor.reachable = true) :
    (stop.program.view.depart stop.cursor e).returned stop.cursor.block = none := by
  rw [View.returned, after_depart, Option.bind_some]
  cases hget : stop.cursor.bindings.get? Bindings.returnName with
  | none => rfl
  | some v => exact absurd (hb.known hreach _ v hget) hf.untracked

/-- A way to the exit has no value just where the text says so. -/
theorem Leaves.unreturned_iff (h : Leaves e start stop ws c b) (hb : InBody stop e)
    (hf : Function stop) (hreach : start.cursor.reachable = true)
    (hpreds : start.program.view.preds e = []) :
    (stop.program.view.depart stop.cursor e).Unreturned e ↔ c = true ∨ b = true := by
  have hbare : (∃ way ∈ ws, way.value = none) ↔ b = true := by simp [h.bare, hreach]
  have hlive : stop.cursor.reachable = c := by simp [h.reachable, hreach]
  have hways : (stop.program.view.depart stop.cursor e).preds e =
      ws.map (·.block) ++ if c = true then [stop.cursor.block] else [] := by
    rw [preds_depart hb.toPlaced, h.preds, hpreds, hlive]
    split <;> simp
  rw [← hbare]
  constructor
  · rintro ⟨q, hq, hnone⟩
    rw [hways] at hq
    rcases List.mem_append.1 hq with hq | hq
    · obtain ⟨way, hway, rfl⟩ := List.mem_map.1 hq
      exact Or.inr ⟨way, hway, (h.returned_depart hb way hway).symm.trans hnone⟩
    · split at hq
      · next hc => exact Or.inl hc
      · cases hq
  · rintro (hc | ⟨way, hway, hvalue⟩)
    · refine ⟨stop.cursor.block, by simp [hways, hc], hf.returned_depart hb (hlive.trans hc)⟩
    · refine ⟨way.block, ?_, (h.returned_depart hb way hway).trans hvalue⟩
      rw [hways]
      exact List.mem_append_left _ (List.mem_map_of_mem hway)

/-- The finished exit of a function whose ways all have a value. -/
theorem Leaves.returns {done : Builder} (h : Leaves e start stop ws c b) (hb : InBody stop e)
    (hf : Function stop) (hreach : start.cursor.reachable = true)
    (hpreds : start.program.view.preds e = [])
    (hdone : Finished stop.program.view stop.cursor e done.program.view) :
    (c = false ∧ b = false) ∧ ∃ vs v, Returns done.program.view stop.cursor.method ws e vs v := by
  obtain ⟨vs, v, hvs, hret⟩ := hdone.returns hf.sort
  have hsome : ¬(stop.program.view.depart stop.cursor e).Unreturned e := by
    rintro ⟨q, hq, hnone⟩
    have hmem := List.mem_map_of_mem (f := (stop.program.view.depart stop.cursor e).returned) hq
    rw [hvs.ways, hnone] at hmem
    simp at hmem
  rw [h.unreturned_iff hb hf hreach hpreds] at hsome
  obtain ⟨hc, hn⟩ := not_or.1 hsome
  have hways : (stop.program.view.depart stop.cursor e).preds e = ws.map (·.block) := by
    rw [preds_depart hb.toPlaced, h.preds, hpreds, h.reachable, hreach]
    simp [hc]
  have hapart : ∀ q ∈ (stop.program.view.depart stop.cursor e).preds e, q ≠ e := by
    rintro q hq rfl
    have hedge := (hdone.sound.wired.edge q q).2 (hdone.settled.preds ▸ hq)
    rw [hdone.sound.wired.exit_succs q hdone.closed.kind] at hedge
    cases hedge
  have hreturned : ∀ q ∈ (stop.program.view.depart stop.cursor e).preds e,
      done.program.view.returned q = (stop.program.view.depart stop.cursor e).returned q := by
    intro q hq
    rw [View.returned, View.returned, hdone.settled.after q (hapart q hq)]
  refine ⟨⟨by simpa using hc, by simpa using hn⟩, vs, v, hdone.closed.exit, ?_, ?_, ⟨?_, ?_⟩, hret⟩
  · rw [hdone.settled.preds, hways]
  · rw [← hvs.ways, hways, List.map_map]
    exact List.map_congr_left fun way hway => (h.returned_depart hb way hway).symm
  · rw [hdone.settled.preds, ← hvs.ways]
    exact List.map_congr_left hreturned
  · rw [hdone.settled.preds]
    exact hvs.value

end Closing

/-! ## Up to the statements of a declaration -/

/-- A computation up to the declarations behind `before`. -/
def toDecl (t : Computation) (before : List MethodDecl) : BuildM Unit := do
  openMain t
  before.forM methodDecl

/-- A declaration of a method up to its statements. -/
def toStatements (d : MethodDecl) : BuildM Unit := do
  openDecl d
  require (.punct .lbrace) d.body.opening
  openBody d.body.openLine

/-- The statements of a method, up to the end of its body. -/
def toClose (d : MethodDecl) : BuildM Unit := do
  sequence true d.body.statements
  require (.punct .rbrace) d.body.closing

theorem methodDecl_parts (d : MethodDecl) : methodDecl d = (do
    toStatements d
    toClose d
    closeBody d.body.closeLine
    require (.punct .semicolon) d.terminator) := by
  rw [methodDecl_eq]
  unfold body toStatements toClose
  simp only [bind_assoc]

/-- A method that cannot be closed ends the construction. -/
theorem computation_error {t : Computation} {before after : List MethodDecl} {d : MethodDecl}
    {init start stop r : Builder} {e : Stop} (hd : t.methods = before ++ d :: after)
    (hstart : (do toDecl t before; toStatements d) init = .ok () start)
    (hstop : toClose d start = .ok () stop)
    (hclose : closeBody d.body.closeLine stop = .error e r) : computation t init = .error e r := by
  obtain ⟨_, s, hdecl, hstatements⟩ := of_bind_ok hstart
  obtain ⟨_, main, hmain, hbefore⟩ := of_bind_ok hdecl
  have hmethod : methodDecl d s = .error e r := by
    rw [methodDecl_parts, bind_run hstatements, bind_run hstop, bind_error hclose]
  rw [computation_eq, bind_run hmain, bind_run (x := cursor) (a := main.cursor) rfl, hd,
    List.forM_eq_forM, List.forM_append, bind_assoc, ← List.forM_eq_forM, bind_run hbefore,
    List.forM_eq_forM, List.forM_cons, bind_assoc, bind_error hmethod]

/-- The body of a method is open, with the cursor at its first statement. -/
structure AtStatements (kind : MethodKind) (start : Builder) (e : BlockId) : Prop where
  inBody : InBody start e
  fresh : start.program.view.preds e = []
  reachable : start.cursor.reachable = true
  sort : start.program.view.sort start.cursor.method = some kind
  strict : Strict start
  sealed : ∀ {u}, Advance start u → ∀ b, u.program.view.home b = some u.cursor.method → b ≠ e →
    b ≠ u.cursor.block → u.program.view.after b ≠ none

theorem toDecl_meets (t : Computation) (before : List MethodDecl) (ds : List Diagnostic) :
    Meets Expected (toDecl t before) (.init ds) fun _ s => s.program.view.Sound :=
  Meets.bind (openMain_meets t ds) fun _ _ hunder =>
    (methodDecls_meets before hunder).mono fun _ _ hunder => hunder.1.entry.toSound

theorem toStatements_meets {s : Builder} (h : s.program.view.Sound) (d : MethodDecl) :
    Meets Expected (toStatements d) s fun _ start => ∃ e,
      AtStatements (if d.isFunction then .function else .procedure) start e := by
  unfold toStatements
  refine Meets.bind (openDecl_meets d h) fun _ t hopen => (quiet_require ..).bind fun ds => ?_
  have hentry : View.AtEntry t.program.view t.cursor := hopen.entry
  refine (openBody_meets (s := { t with diagnostics := ds }) hentry d.body.openLine).mono ?_
  rintro _ start ⟨e, hbody⟩
  refine ⟨e, hbody.inBody, hbody.fresh, by rw [hbody.cursor]; rfl, ?_, ?_, sealed_advance hbody⟩
  · rw [hbody.method, hbody.view, ← hopen.sort]
    show ((t.program.view.newBlock _ _).depart _ _).sort _ = _
    unfold View.depart
    split <;> rfl
  · show start.program.view.Strict start.cursor.method
    rw [hbody.method, hbody.view]
    exact hentry.strict t.program.view_tables

theorem toStatements_heads (d : MethodDecl) : Honest (fun _ => True) (fun _ => True)
    (toStatements d) fun _ n => ∃ x pos, d.name = .ident x pos
      ∧ Heads x (if d.isFunction then .function else .procedure) d.locals n := by
  refine .bind (openDecl_heads d) fun _ => .bind (Calm.require ..).honest fun _ => ?_
  rintro s ⟨x, pos, hname, hheads⟩
  have hopen := openBody_heads (E := fun _ => True) d.body.openLine s hheads
  split at hopen
  · exact ⟨x, pos, hname, hopen⟩
  · trivial
  · trivial

/-- A variable whose value a function tracks is one that it declares. -/
theorem Heads.function {x : String} {xs : List String} {s : Builder}
    (h : Heads x .function xs s.names) (hret : Bindings.returnName ∉ xs) :
    Function s ∧ ∀ r, s.program.method? s.cursor.method = some r → r.name = x := by
  obtain ⟨k, hk, hname, hkind, hsymbols⟩ := h.header
  have hget : s.program.headers[s.cursor.method.index]? =
      (s.program.method? s.cursor.method).map Method.header := by
    simp [Program.headers, Program.method?]
  obtain ⟨r, hr, rfl⟩ := Option.map_eq_some_iff.1 (hget.symm.trans hk)
  have hview := Program.view_of_method hr
  have hsort : s.program.view.sort s.cursor.method = some .function :=
    hview.1.trans (congrArg some hkind)
  refine ⟨⟨hsort, fun htracked => hret ?_⟩, fun q hq => ?_⟩
  · rw [tracked, scopeOf, hsort] at htracked
    dsimp only at htracked
    rw [hview.2.2.2.2, Scope.scalars, List.mem_map] at htracked
    obtain ⟨y, hy, hyname⟩ := htracked
    exact hyname ▸ hsymbols y (List.mem_of_mem_filter hy)
  · obtain rfl := Option.some.inj (hr.symm.trans hq)
    exact hname

/-- The statements `ts` of the function `x` are built, and its exit `e` is still
to be closed. -/
structure AtClose (x : String) (ts : Sequence) (start stop : Builder) (e : BlockId) : Prop where
  begun : AtStatements .function start e
  ran : Ran e start stop
  function : Function stop
  strict : Strict stop
  leaves : Leaves e start stop (sequenceWays ts true start) ts.completes ts.returnsBare
  called : ∀ r, stop.program.method? stop.cursor.method = some r → r.name = x

theorem toClose_meets {x : String} {d : MethodDecl} {start stop : Builder} {e : BlockId}
    (hbegun : AtStatements .function start e) (hheads : Heads x .function d.locals start.names)
    (hret : Bindings.returnName ∉ d.locals) (hstop : toClose d start = .ok () stop) :
    AtClose x d.body.statements start stop e := by
  obtain ⟨_, t, hsequence, hrequire⟩ := of_bind_ok hstop
  obtain ⟨ran, laid⟩ := (sequence_meets e true d.body.statements start hbegun.inBody).of_ok hsequence
  obtain ⟨ds, hds⟩ := (quiet_require (.punct .rbrace) d.body.closing).run t
  obtain rfl : { t with diagnostics := ds } = stop :=
    (EStateM.Result.ok.inj (hds.symm.trans hrequire)).2
  have hheaders : t.names.methods = start.names.methods :=
    ((durable_headers _).sustains_sequence true d.body.statements).run _ _ _ rfl hsequence
  have hnames : t.names.current = start.names.current := ran.advance.method
  have hheads' : Heads x .function d.locals t.names :=
    ⟨by rw [hheaders, hnames]; exact hheads.header⟩
  obtain ⟨hfunction, hcalled⟩ := hheads'.function hret
  have hleaves := laid.leaves (hheads.function hret).1
  exact ⟨hbegun, ⟨ran.start, ran.finish, ran.advance⟩, ⟨hfunction.sort, hfunction.untracked⟩,
    laid.strict hbegun.strict,
    ⟨hleaves.preds, hleaves.returned, hleaves.reachable, hleaves.bare⟩, hcalled⟩

/-- Closing a function fails for want of a value where its text says so, and else
its exit returns what the ways to it are left with. -/
theorem AtClose.closeBody_meets {x : String} {ts : Sequence} {start stop : Builder} {e : BlockId}
    (h : AtClose x ts start stop e) (line : Nat) :
    Meets (fun err => err = .missingReturnValue x
        ∧ (ts.completes = true ∨ ts.returnsBare = true)) (closeBody line) stop fun _ done =>
      ¬(ts.completes = true ∨ ts.returnsBare = true)
        ∧ ∃ vs v, Returns done.program.view stop.cursor.method (sequenceWays ts true start) e vs v := by
  have hbody := h.ran.finish
  refine (Build.closeBody_meets hbody h.strict (h.begun.sealed h.ran.advance) line ?_).mono ?_
  · intro r hr _ hunreturned
    rw [h.called r hr]
    exact ⟨rfl, (h.leaves.unreturned_iff hbody h.function h.begun.reachable h.begun.fresh).1
      hunreturned⟩
  · intro _ done hdone
    obtain ⟨⟨hcompletes, hbare⟩, hreturns⟩ :=
      h.leaves.returns hbody h.function h.begun.reachable h.begun.fresh hdone
    exact ⟨by simp [hcompletes, hbare], hreturns⟩

/-- The state before the statements of a function, and what is built of them. -/
theorem atClose_of_run {source : String} {tokens : List Token} {scanner : Scanner}
    {before after : List MethodDecl} {d : MethodDecl} {start stop : Builder}
    (hscan : (Scanner.ofText source).scan = (.ok tokens, scanner))
    (hd : (Syntax.read tokens).methods = before ++ d :: after) (hfun : d.isFunction = true)
    (hstart : (do toDecl (Syntax.read tokens) before; toStatements d) (.init scanner.diagnostics)
      = .ok () start)
    (hstop : toClose d start = .ok () stop) :
    ∃ x pos e, d.name = .ident x pos ∧ AtClose x d.body.statements start stop e := by
  obtain ⟨_, s, hdecl, hstatements⟩ := of_bind_ok hstart
  have hsound := (toDecl_meets (Syntax.read tokens) before scanner.diagnostics).of_ok hdecl
  obtain ⟨e, hbegun⟩ := (toStatements_meets hsound d).of_ok hstatements
  obtain ⟨x, pos, hname, hheads⟩ := (toStatements_heads d).of_ok trivial hstatements
  rw [if_pos hfun] at hbegun hheads
  have hret := no_local_return hscan (d := d) (by simp [hd])
  exact ⟨x, pos, e, hname, toClose_meets hbegun hheads hret hstop⟩

end Build

open Build Syntax

/-- A function is rejected for want of a value to return just where control can
get behind its body or to a return without a value, as its text has them. The exit
of an accepted one returns what its returns give, in their order. -/
theorem definite_return {source : String} {tokens : List Token} {scanner : Scanner}
    {before after : List MethodDecl} {d : MethodDecl} {start stop : Builder}
    (hscan : (Scanner.ofText source).scan = (.ok tokens, scanner))
    (hd : (Syntax.read tokens).methods = before ++ d :: after) (hfun : d.isFunction = true)
    (hstart : (do toDecl (Syntax.read tokens) before; toStatements d) (.init scanner.diagnostics)
      = .ok () start)
    (hstop : toClose d start = .ok () stop) :
    ((∃ x pos r, d.name = .ident x pos
        ∧ closeBody d.body.closeLine stop = .error (.error (.missingReturnValue x)) r
        ∧ build source = .error (.error ((Error.missingReturnValue x).after r.diagnostics)))
      ↔ d.body.statements.completes = true ∨ d.body.statements.returnsBare = true)
    ∧ (¬(d.body.statements.completes = true ∨ d.body.statements.returnsBare = true) →
      ∃ done e vs v, closeBody d.body.closeLine stop = .ok () done
        ∧ Returns done.program.view stop.cursor.method
          (sequenceWays d.body.statements true start) e vs v) := by
  obtain ⟨x, pos, e, hname, hclose⟩ := atClose_of_run hscan hd hfun hstart hstop
  have hmeets := hclose.closeBody_meets d.body.closeLine
  cases hrun : closeBody d.body.closeLine stop with
  | ok _ done =>
      obtain ⟨hreturns, vs, v, hexit⟩ := hmeets.of_ok hrun
      refine ⟨⟨?_, fun h => absurd h hreturns⟩, fun _ => ⟨done, e, vs, v, rfl, hexit⟩⟩
      rintro ⟨y, ypos, r, -, hfail, -⟩
      cases hfail
  | error cause r =>
      obtain ⟨err, rfl, rfl, hmissing⟩ := hmeets.of_error hrun
      have hfail := computation_error hd hstart hstop hrun
      refine ⟨⟨fun _ => hmissing, fun _ => ⟨x, pos, r, hname, rfl, ?_⟩⟩,
        fun h => absurd hmissing h⟩
      unfold build buildTokens
      rw [hscan]
      dsimp only
      rw [hfail]
      rfl

/-- A function that returns from within a loop and behind it. -/
def seeking : String :=
  "main function f(a); { while a < 9 do if a > 5 then return a fi; let a <- a + 1 od; return 7 }; "
    ++ "{ call OutputNum(call f(1)) }."

theorem seeking_definite_return : ∃ tokens scanner d start stop done e vs v,
    (Scanner.ofText seeking).scan = (.ok tokens, scanner)
      ∧ (Syntax.read tokens).methods = [d] ∧ d.isFunction = true
      ∧ (do toDecl (Syntax.read tokens) []; toStatements d) (.init scanner.diagnostics)
        = .ok () start
      ∧ toClose d start = .ok () stop ∧ closeBody d.body.closeLine stop = .ok () done
      ∧ Returns done.program.view stop.cursor.method (sequenceWays d.body.statements true start)
        e vs v := by
  have hread : ((Scanner.ofText seeking).scan.1.toOption.map fun tokens =>
      (Syntax.read tokens).methods.map fun d =>
        (d.isFunction, d.body.statements.completes || d.body.statements.returnsBare,
          EStateM.run' (do toDecl (Syntax.read tokens) []; toStatements d; toClose d)
            (.init (Scanner.ofText seeking).scan.2.diagnostics)))
      = some [(true, false, some ())] := by
    decide +kernel
  cases hscan : (Scanner.ofText seeking).scan with
  | mk result scanner =>
      rw [hscan] at hread
      cases result with
      | error err => cases hread
      | ok tokens =>
          obtain ⟨d, hd, hfacts⟩ := List.map_eq_singleton_iff.1 (Option.some.inj hread)
          obtain ⟨hfun, hfacts⟩ := Prod.mk.inj hfacts
          obtain ⟨htext, hrun⟩ := Prod.mk.inj hfacts
          obtain ⟨stop, hrun⟩ := ok_of_run' hrun
          rw [← bind_assoc] at hrun
          obtain ⟨_, start, hstart, hstop⟩ := of_bind_ok hrun
          obtain ⟨done, e, vs, v, hclose, hreturns⟩ :=
            (definite_return hscan (hd.trans (List.nil_append _).symm) hfun hstart hstop).2
              (by simpa using htext)
          exact ⟨tokens, scanner, d, start, stop, done, e, vs, v, rfl, hd, hfun, hstart, hstop,
            hclose, hreturns⟩

end StructuredSsa
