import StructuredSsa.Proofs.Source

/-!
# Code for statements

What it means that blocks are the code of statements, with no word about how
they were built: `Computes` for expressions, `Implements` for statements. A `Place`
is a point of the code with what is known there, as the bindings of a cursor are.

Along code of this kind a machine and the execution of the statements meet again
and again (`Matched`). One statement is one step on the one side and any number of
instructions on the other, none of them for an assignment of one variable to
another. Such an assignment makes the list of statements shorter, so that not both
sides can stand still forever (`Matched.rejoin`).
-/

namespace StructuredSsa

open Machine

namespace Machine

/-! ## Runs of a machine -/

namespace Code

variable {c : Code} {env : Env} {s t u : State}

/-- From `s` the machine comes to `t`, in `n` steps or more. -/
def Reaches (c : Code) (env : Env) (n : Nat) (s t : State) : Prop :=
  ∃ k, n ≤ k ∧ c.run env k s = t

namespace Reaches

theorem refl (c : Code) (env : Env) (s : State) : c.Reaches env 0 s s := ⟨0, Nat.le_refl 0, rfl⟩

theorem trans {m n : Nat} (h : c.Reaches env m s t) (k : c.Reaches env n t u) :
    c.Reaches env (m + n) s u := by
  obtain ⟨i, hi, rfl⟩ := h
  obtain ⟨j, hj, rfl⟩ := k
  refine ⟨j + i, by omega, ?_⟩
  rw [run_add]

theorem weaken {m n : Nat} (h : c.Reaches env n s t) (hmn : m ≤ n) : c.Reaches env m s t := by
  obtain ⟨k, hk, rfl⟩ := h
  exact ⟨k, Nat.le_trans hmn hk, rfl⟩

/-- An instruction is executed. -/
theorem instr {v : ValueId} {rest : List ValueId} {op : Op} {action : Action}
    (hs : s.status = .running) (hrest : s.rest = v :: rest) (hop : c.op v = some op)
    (haction : op.act? env s.trace s.regs = some action)
    (hperform : c.perform? s v rest action = some t) : c.Reaches env 1 s t := by
  refine ⟨1, Nat.le_refl 1, ?_⟩
  exact step_of_next hs (next?_eq_some.2 ⟨v, rest, op, action, hrest, hop, haction, hperform⟩)

end Reaches

end Code

/-! ## Places -/

/-- A point of the code: what is left of a block there, and which values hold the
variables. -/
structure Place where
  block : BlockId
  rest : List ValueId
  bindings : Bindings

/-- What is still to be executed in the block changes nothing that is held. -/
structure Place.Apart (p : Place) : Prop where
  nodup : p.rest.Nodup
  unheld : ∀ x v, p.bindings.get? x = some v → v ∉ p.rest

/-- The machine is at a place, where the variables have the words of a store. -/
structure State.At (s : State) (p : Place) (store : Source.Store) (trace : List Event) : Prop where
  running : s.status = .running
  block : s.block = p.block
  rest : s.rest = p.rest
  held : ∀ x v, p.bindings.get? x = some v → s.regs v = some (store x)
  trace : s.trace = trace

theorem Place.Apart.behind {b : BlockId} {front rest : List ValueId} {bindings : Bindings}
    (h : (Place.mk b (front ++ rest) bindings).Apart) : (Place.mk b rest bindings).Apart where
  nodup := (List.nodup_append.1 h.nodup).2.1
  unheld x v hv hmem := h.unheld x v hv (List.mem_append_right _ hmem)

/-- A variable is given a word that a value has. -/
theorem State.At.set {s : State} {b : BlockId} {rest : List ValueId} {bindings : Bindings}
    {store : Source.Store} {trace : List Event} (h : s.At ⟨b, rest, bindings⟩ store trace)
    {v : ValueId} {m : Int64} (hv : s.regs v = some m) (x : String) :
    s.At ⟨b, rest, bindings.bind x v⟩ (store.set x m) trace := by
  refine ⟨h.running, h.block, h.rest, fun y u hu => ?_, h.trace⟩
  rw [Bindings.get?_bind] at hu
  unfold Source.Store.set
  split at hu
  · next hy =>
      obtain rfl := Option.some.inj hu
      rw [if_pos hy]
      exact hv
  · next hy =>
      rw [if_neg hy]
      exact h.held y u hu

namespace Code

variable {c : Code} {env : Env} {bindings : Bindings}

/-! ## Expressions -/

/-- Executing `code` computes an expression into `v`, where the variables are held
as in `bindings`. -/
inductive Computes (c : Code) (bindings : Bindings) :
    Source.Expr → ValueId → List ValueId → Prop where
  | number {n : Int64} {v : ValueId} (hop : c.op v = some (.const n)) :
      Computes c bindings (.number n) v [v]
  | var {x : String} {v : ValueId} (hx : bindings.get? x = some v) :
      Computes c bindings (.var x) v []
  | input {v : ValueId} (hop : c.op v = some .read) : Computes c bindings .input v [v]
  | arith {op : ArithOp} {lhs rhs : Source.Expr} {a b v : ValueId} {ls rs : List ValueId}
      (left : Computes c bindings lhs a ls) (right : Computes c bindings rhs b rs)
      (hop : c.op v = some (.arith op a b)) :
      Computes c bindings (.arith op lhs rhs) v (ls ++ (rs ++ [v]))
  | after {dropped value : Source.Expr} {a v : ValueId} {ls rs : List ValueId}
      (first : Computes c bindings dropped a ls) (second : Computes c bindings value v rs) :
      Computes c bindings (.after dropped value) v (ls ++ rs)

/-- Executing `code` computes some expressions into `vs`, one after another. -/
inductive ComputesAll (c : Code) (bindings : Bindings) :
    List Source.Expr → List ValueId → List ValueId → Prop where
  | nil : ComputesAll c bindings [] [] []
  | cons {e : Source.Expr} {es : List Source.Expr} {v : ValueId} {vs ls rs : List ValueId}
      (first : Computes c bindings e v ls) (rest : ComputesAll c bindings es vs rs) :
      ComputesAll c bindings (e :: es) (v :: vs) (ls ++ rs)

/-- Executing `code` computes whether a test holds into `v`. -/
inductive Compares (c : Code) (bindings : Bindings) :
    Source.Test → ValueId → List ValueId → Prop where
  | intro {op : RelOp} {lhs rhs : Source.Expr} {a b v : ValueId} {ls rs : List ValueId}
      (left : Computes c bindings lhs a ls) (right : Computes c bindings rhs b rs)
      (hop : c.op v = some (.compare op a b)) :
      Compares c bindings ⟨lhs, op, rhs⟩ v (ls ++ (rs ++ [v]))

section Expressions

variable {c' : Code}

/-- Only instructions count that are no phis. -/
theorem Computes.mono {e : Source.Expr} {v : ValueId} {code : List ValueId}
    (hop : ∀ u o, c.op u = some o → o.isPhi = false → c'.op u = some o)
    (h : c.Computes bindings e v code) : c'.Computes bindings e v code := by
  induction h with
  | number h => exact .number (hop _ _ h rfl)
  | var hx => exact .var hx
  | input h => exact .input (hop _ _ h rfl)
  | arith _ _ h ihl ihr => exact .arith ihl ihr (hop _ _ h rfl)
  | after _ _ ihd ihv => exact .after ihd ihv

theorem ComputesAll.mono {es : List Source.Expr} {vs code : List ValueId}
    (hop : ∀ u o, c.op u = some o → o.isPhi = false → c'.op u = some o)
    (h : c.ComputesAll bindings es vs code) : c'.ComputesAll bindings es vs code := by
  induction h with
  | nil => exact .nil
  | cons first _ ih => exact .cons (first.mono hop) ih

theorem Compares.mono {t : Source.Test} {v : ValueId} {code : List ValueId}
    (hop : ∀ u o, c.op u = some o → o.isPhi = false → c'.op u = some o)
    (h : c.Compares bindings t v code) : c'.Compares bindings t v code := by
  cases h with
  | intro left right h => exact .intro (left.mono hop) (right.mono hop) (hop _ _ h rfl)

/-- An expression behind some that are computed for nothing. -/
theorem ComputesAll.foldr {es : List Source.Expr} {vs ls rs : List ValueId} {e : Source.Expr}
    {v : ValueId} (h : c.ComputesAll bindings es vs ls) (he : c.Computes bindings e v rs) :
    c.Computes bindings (es.foldr .after e) v (ls ++ rs) := by
  induction h with
  | nil => exact he
  | cons first _ ih =>
      rw [List.append_assoc]
      exact .after first ih

end Expressions

/-- A result is computed by the code, or is held already. -/
theorem Computes.result {e : Source.Expr} {v : ValueId} {code : List ValueId}
    (h : c.Computes bindings e v code) : v ∈ code ∨ ∃ x, bindings.get? x = some v := by
  induction h with
  | number | input => exact Or.inl (List.mem_singleton_self _)
  | var hx => exact Or.inr ⟨_, hx⟩
  | arith => exact Or.inl (by simp)
  | after _ _ _ ih => exact ih.imp_left (List.mem_append_right _)

/-- What a machine does with code that computes something, from `s` in front of it:
it comes to the place `p` behind it and a state that is right for the value, or is
stuck. -/
inductive Evaluates {α : Type} (c : Code) (env : Env) (s : State) (store : Source.Store) (p : Place)
    (code : List ValueId) (right : State → α → Prop) : Source.Result α → Prop where
  | value {t : State} {a : α} {trace : List Event} (reached : c.Reaches env code.length s t)
      (place : t.At p store trace) (result : right t a)
      (kept : ∀ u, u ∉ code → t.regs u = s.regs u) :
      Evaluates c env s store p code right (.value a trace)
  | stuck {t : State} {trace : List Event} (reached : c.Reaches env 0 s t)
      (seen : t.seen = (trace, .stuck)) : Evaluates c env s store p code right (.stuck trace)

section Evaluates

variable {α β : Type} {s : State} {store : Source.Store} {trace : List Event} {b : BlockId}
  {v : ValueId} {code : List ValueId}

  {rest : List ValueId}

/-- Go on with code that uses what was computed. -/
theorem Evaluates.bind {p q : Place} {code' : List ValueId} {right : State → α → Prop}
    {right' : State → β → Prop} {r : Source.Result α} {f : α → List Event → Source.Result β}
    (h : c.Evaluates env s store p code right r)
    (hf : ∀ t a trace, t.At p store trace → right t a → (∀ u, u ∉ code → t.regs u = s.regs u) →
      c.Evaluates env t store q code' right' (f a trace)) :
    c.Evaluates env s store q (code ++ code') right' (r.bind f) := by
  cases h with
  | stuck reached seen => exact .stuck reached seen
  | value reached place result kept =>
      have hrest := hf _ _ _ place result kept
      unfold Source.Result.bind
      dsimp only
      generalize f _ _ = r' at hrest
      cases hrest with
      | stuck reached' seen => exact .stuck ((reached.trans reached').weaken (Nat.zero_le _)) seen
      | value reached' place' result' kept' =>
          refine .value ?_ place' result' fun u hu => ?_
          · rw [List.length_append]
            exact reached.trans reached'
          · rw [List.mem_append, not_or] at hu
            rw [kept' u hu.2, kept u hu.1]

/-- An instruction with a value. -/
theorem evaluates_instr {op : Op} {value : Option Int64} {events : List Event} {trace' : List Event}
    {right : State → α → Prop} {a : α} (hs : s.At ⟨b, v :: rest, bindings⟩ store trace)
    (ha : (Place.mk b (v :: rest) bindings).Apart) (hop : c.op v = some op)
    (haction : op.act? env trace s.regs = some (.next value events))
    (htrace : trace ++ events = trace') (hright : ∀ t, t.regs v = value → right t a) :
    c.Evaluates env s store ⟨b, rest, bindings⟩ [v] right (.value a trace') := by
  obtain rfl := hs.trace
  subst htrace
  refine .value (.instr hs.running hs.rest hop haction rfl) ⟨hs.running, hs.block, rfl, ?_, rfl⟩
    (hright _ ?_) ?_
  · intro x u hu
    have hne : u ≠ v := by
      rintro rfl
      exact ha.unheld x u hu (List.mem_cons_self ..)
    show (if u = v then value else s.regs u) = some (store x)
    rw [if_neg hne]
    exact hs.held x u hu
  · exact if_pos rfl
  · intro u hu
    exact if_neg fun heq => hu (List.mem_singleton.2 heq)

/-- What was computed first is still there when more was computed. -/
theorem Computes.keep {e : Source.Expr} {code' : List ValueId} {t u : State}
    (h : c.Computes bindings e v code) (ha : (Place.mk b (code ++ (code' ++ rest)) bindings).Apart)
    (hkept : ∀ w, w ∉ code' → u.regs w = t.regs w) : u.regs v = t.regs v := by
  refine hkept v fun hmem => ?_
  rcases h.result with hv | ⟨x, hx⟩
  · exact (List.nodup_append.1 ha.nodup).2.2 v hv v (List.mem_append_left _ hmem) rfl
  · exact ha.unheld x v hx (List.mem_append_right _ (List.mem_append_left _ hmem))

theorem Computes.evaluates {e : Source.Expr} (h : c.Computes bindings e v code)
    (hs : s.At ⟨b, code ++ rest, bindings⟩ store trace)
    (ha : (Place.mk b (code ++ rest) bindings).Apart) :
    c.Evaluates env s store ⟨b, rest, bindings⟩ code (fun t n => t.regs v = some n)
      (e.eval env store trace) := by
  induction h generalizing s trace rest with
  | number hop => exact evaluates_instr hs ha hop rfl (List.append_nil _) fun _ ht => ht
  | var hx =>
      exact .value (.refl c env s) hs (hs.held _ _ hx) fun _ _ => rfl
  | input hop =>
      exact evaluates_instr hs ha hop rfl rfl fun _ ht => ht
  | @arith op lhs rhs a b' v ls rs left right hop ihl ihr =>
      rw [List.append_assoc, List.append_assoc] at hs ha
      refine (ihl hs ha).bind fun t x trace ht hx _ => ?_
      refine (ihr ht ha.behind).bind fun t' y trace ht' hy hkept => ?_
      have hx' : t'.regs a = some x := (left.keep ha hkept).trans hx
      unfold Source.arithResult
      cases hval : op.eval? x y with
      | some n =>
          have hact : (Op.arith op a b').act? env trace t'.regs = some (.next (some n) []) := by
            simp [Op.act?, hx', hy, hval]
          exact evaluates_instr ht' ha.behind.behind hop hact (List.append_nil _) fun _ ht => ht
      | none =>
          have hact : (Op.arith op a b').act? env t'.trace t'.regs = some .stuck := by
            simp [Op.act?, hx', hy, hval]
          have hstep := Reaches.instr ht'.running ht'.rest hop hact rfl
          exact .stuck (hstep.weaken (Nat.zero_le _)) (Prod.ext ht'.trace rfl)
  | after first second ihd ihv =>
      rw [List.append_assoc] at hs ha
      exact (ihd hs ha).bind fun t x trace ht _ _ => ihv ht ha.behind

theorem ComputesAll.evaluates {es : List Source.Expr} {vs : List ValueId}
    (h : c.ComputesAll bindings es vs code) (hs : s.At ⟨b, code ++ rest, bindings⟩ store trace)
    (ha : (Place.mk b (code ++ rest) bindings).Apart) :
    c.Evaluates env s store ⟨b, rest, bindings⟩ code (fun _ _ => True)
      (Source.evalAll env store es trace) := by
  induction h generalizing s trace with
  | nil => exact .value (.refl c env s) hs trivial fun _ _ => rfl
  | cons first _ ih =>
      rw [List.append_assoc] at hs ha
      exact (first.evaluates hs ha).bind fun t x trace ht _ _ => ih ht ha.behind

/-- A test is a word that is zero where it does not hold. -/
theorem Compares.evaluates {e : Source.Test} (h : c.Compares bindings e v code)
    (hs : s.At ⟨b, code ++ rest, bindings⟩ store trace)
    (ha : (Place.mk b (code ++ rest) bindings).Apart) :
    c.Evaluates env s store ⟨b, rest, bindings⟩ code
      (fun t holds => ∃ n, t.regs v = some n ∧ (n = 0 ↔ holds = false)) (e.eval env store trace) := by
  cases h with
  | @intro op lhs rhs a b' v ls rs left right hop =>
      rw [List.append_assoc, List.append_assoc] at hs ha
      refine (left.evaluates hs ha).bind fun t x trace ht hx _ => ?_
      refine (right.evaluates ht ha.behind).bind fun t' y trace ht' hy hkept => ?_
      have hx' : t'.regs a = some x := (left.keep ha hkept).trans hx
      have hact : (Op.compare op a b').act? env trace t'.regs
          = some (.next (some (op.eval x y)) []) := by
        simp [Op.act?, hx', hy]
      exact evaluates_instr ht' ha.behind.behind hop hact (List.append_nil _) fun _ ht =>
        ⟨_, ht, by simp [RelOp.eval]⟩

end Evaluates

/-! ## Statements -/

/-- From the end of a block to the start of another, where every variable is held
as it was or by a phi of its own. -/
structure Enters (c : Code) (p q : Place) : Prop where
  jump : ∃ j, p.rest = [j] ∧ c.op j = some (.jump q.block)
  start : q.rest = c.body q.block
  phis : ∀ v ∈ c.phis q.block, ∃ x os u, c.op v = some (.phi x os) ∧ os.lookup p.block = some u
    ∧ p.bindings.get? x = some u
  held : ∀ x v, q.bindings.get? x = some v → (v ∈ c.phis q.block ∧ ∃ os, c.op v = some (.phi x os))
    ∨ (v ∉ c.phis q.block ∧ p.bindings.get? x = some v)
  apart : q.Apart

/-- At the start of a block that only a branch leads to. -/
structure Opens (c : Code) (bindings : Bindings) (q : Place) : Prop where
  start : q.rest = c.body q.block
  phis : c.phis q.block = []
  bindings : q.bindings = bindings
  apart : q.Apart

/-- A branch on `v` ends a block. -/
structure Forks (c : Code) (rest : List ValueId) (bindings : Bindings) (v : ValueId) (yes no : Place) :
    Prop where
  branch : ∃ j, rest = [j] ∧ c.op j = some (.branch v yes.block no.block)
  onTrue : c.Opens bindings yes
  onFalse : c.Opens bindings no

/-- What is left of a block leads to the end of the run. -/
structure Exits (c : Code) (rest : List ValueId) : Prop where
  leaves : ∃ j e r, rest = [j] ∧ c.op j = some (.jump e) ∧ c.phis e = [] ∧ c.body e = [r]
    ∧ c.op r = some (.ret none)

/-- The code of a statement that stays in its block. -/
inductive Performs (c : Code) (bindings : Bindings) :
    Source.Stmt → List ValueId → Bindings → Prop where
  | assign {x : String} {e : Source.Expr} {v : ValueId} {code : List ValueId}
      (value : c.Computes bindings e v code) :
      Performs c bindings (.assign x e) code (bindings.bind x v)
  | write {e : Source.Expr} {v w : ValueId} {code : List ValueId}
      (value : c.Computes bindings e v code) (hop : c.op w = some (.write v)) :
      Performs c bindings (.write e) (code ++ [w]) bindings
  | newLine {es : List Source.Expr} {w : ValueId} {vs code : List ValueId}
      (dropped : c.ComputesAll bindings es vs code) (hop : c.op w = some .writeLine) :
      Performs c bindings (.newLine es) (code ++ [w]) bindings

theorem Performs.mono {c' : Code} {t : Source.Stmt} {code : List ValueId} {known : Bindings}
    (hop : ∀ u o, c.op u = some o → o.isPhi = false → c'.op u = some o)
    (h : c.Performs bindings t code known) : c'.Performs bindings t code known := by
  cases h with
  | assign value => exact .assign (value.mono hop)
  | write value h => exact .write (value.mono hop) (hop _ _ h rfl)
  | newLine dropped h => exact .newLine (dropped.mono hop) (hop _ _ h rfl)

mutual

/-- The code of a statement from one place to another. There is no place behind a
statement that control does not get past. -/
inductive Implements (c : Code) : Source.Stmt → Place → Option Place → Prop where
  | straight {t : Source.Stmt} {b : BlockId} {code rest : List ValueId} {bindings known : Bindings}
      (h : c.Performs bindings t code known) :
      Implements c t ⟨b, code ++ rest, bindings⟩ (some ⟨b, rest, known⟩)
  | ifThen {t : Source.Test} {ss ts : List Source.Stmt} {v : ValueId} {b : BlockId}
      {code rest : List ValueId} {bindings : Bindings} {yes no : Place} {left right behind : Option Place}
      (test : c.Compares bindings t v code) (forks : c.Forks rest bindings v yes no)
      (first : ImplementsAll c ss yes left) (second : ImplementsAll c ts no right)
      (first_meets : ∀ p, left = some p → ∃ q, behind = some q ∧ c.Enters p q)
      (second_meets : ∀ p, right = some p → ∃ q, behind = some q ∧ c.Enters p q) :
      Implements c (.ifThen t ss ts) ⟨b, code ++ rest, bindings⟩ behind
  | whileDo {t : Source.Test} {ss : List Source.Stmt} {p head behind : Place}
      (enters : c.Enters p head) (loops : Loops c t ss head behind) :
      Implements c (.whileDo t ss) p (some behind)
  | ret {b : BlockId} {rest : List ValueId} {bindings : Bindings} (exits : c.Exits rest) :
      Implements c (.ret none) ⟨b, rest, bindings⟩ none
  | retValue {e : Source.Expr} {v : ValueId} {b : BlockId} {code rest : List ValueId}
      {bindings : Bindings} (value : c.Computes bindings e v code) (exits : c.Exits rest) :
      Implements c (.ret (some e)) ⟨b, code ++ rest, bindings⟩ none

/-- The code of statements one behind another. What stands behind one that control
does not get past has no code. -/
inductive ImplementsAll (c : Code) : List Source.Stmt → Place → Option Place → Prop where
  | nil {p : Place} : ImplementsAll c [] p (some p)
  | cons {s : Source.Stmt} {ss : List Source.Stmt} {p q : Place} {behind : Option Place}
      (first : Implements c s p (some q)) (rest : ImplementsAll c ss q behind) :
      ImplementsAll c (s :: ss) p behind
  | last {s : Source.Stmt} {ss : List Source.Stmt} {p : Place} (first : Implements c s p none) :
      ImplementsAll c (s :: ss) p none

/-- The code of a loop from its head, which the body goes back to. -/
inductive Loops (c : Code) : Source.Test → List Source.Stmt → Place → Place → Prop where
  | intro {t : Source.Test} {ss : List Source.Stmt} {v : ValueId} {b : BlockId}
      {code rest : List ValueId} {bindings : Bindings} {inside behind : Place} {last : Option Place}
      (test : c.Compares bindings t v code) (forks : c.Forks rest bindings v inside behind)
      (body : ImplementsAll c ss inside last)
      (back : ∀ p, last = some p → c.Enters p ⟨b, code ++ rest, bindings⟩) :
      Loops c t ss ⟨b, code ++ rest, bindings⟩ behind

end

/-- The code of all that is still to be done. In the midst of a loop or of a
conditional it is not of one piece. -/
inductive Resumes (c : Code) : List Source.Stmt → Place → Prop where
  | exit {p : Place} (exits : c.Exits p.rest) : Resumes c [] p
  | run {ss todo : List Source.Stmt} {p q : Place} (code : c.ImplementsAll ss p (some q))
      (behind : Resumes c todo q) : Resumes c (ss ++ todo) p
  | last {ss todo : List Source.Stmt} {p : Place} (code : c.ImplementsAll ss p none) :
      Resumes c (ss ++ todo) p
  | enter {todo : List Source.Stmt} {p q : Place} (enters : c.Enters p q) (behind : Resumes c todo q) :
      Resumes c todo p
  | loop {t : Source.Test} {ss todo : List Source.Stmt} {p head q : Place} (enters : c.Enters p head)
      (loops : c.Loops t ss head q) (behind : Resumes c todo q) :
      Resumes c (.whileDo t ss :: todo) p

/-! ## Step by step -/

/-- The two sides have come to the same point. -/
inductive Matched (c : Code) : Source.State → State → Prop where
  | running {todo : List Source.Stmt} {store : Source.Store} {trace : List Event} {p : Place}
      {s : State} (code : c.Resumes todo p) (apart : p.Apart) (place : s.At p store trace) :
      Matched c ⟨.running, todo, store, trace⟩ s
  | ended {a : Source.State} {s : State} (ended : a.status ≠ .running) (seen : a.seen = s.seen) :
      Matched c a s

theorem Matched.seen_eq {a : Source.State} {s : State} (h : c.Matched a s) : a.seen = s.seen := by
  cases h with
  | running _ _ place => exact Prod.ext place.trace.symm place.running.symm
  | ended _ seen => exact seen

/-- From `s` the machine comes to the point `a`, in `n` steps or more unless it
ends there. -/
def Follows (c : Code) (env : Env) (n : Nat) (s : State) (a : Source.State) : Prop :=
  ∃ t, c.Matched a t ∧ c.Reaches env 0 s t ∧ (a.status = .running → c.Reaches env n s t)

section Steps

variable {s t : State} {store : Source.Store} {trace : List Event} {p q : Place} {n : Nat}
  {b : BlockId} {v : ValueId} {rest : List ValueId}

  {todo : List Source.Stmt}

theorem Follows.running (hreach : c.Reaches env n s t) (hcode : c.Resumes todo p) (ha : p.Apart)
    (ht : t.At p store trace) : c.Follows env n s ⟨.running, todo, store, trace⟩ :=
  ⟨t, .running hcode ha ht, hreach.weaken (Nat.zero_le _), fun _ => hreach⟩

theorem Follows.behind {m : Nat} {a : Source.State} (hreach : c.Reaches env m s t)
    (h : c.Follows env n t a) : c.Follows env (m + n) s a := by
  obtain ⟨u, hmatched, hzero, hn⟩ := h
  exact ⟨u, hmatched, (hreach.trans hzero).weaken (Nat.zero_le _), fun ha => hreach.trans (hn ha)⟩

/-- Go on behind an evaluation. -/
theorem Evaluates.follows {α : Type} {code : List ValueId} {right : State → α → Prop}
    {r : Source.Result α} {f : α → List Event → Source.State}
    (h : c.Evaluates env s store p code right r)
    (hf : ∀ t a trace, t.At p store trace → right t a → c.Follows env n t (f a trace)) :
    c.Follows env n s (r.next todo store f) := by
  cases h with
  | stuck reached seen =>
      exact ⟨_, .ended (by simp [Source.Result.next]) seen.symm, reached,
        by simp [Source.Result.next]⟩
  | value reached place result _ =>
      obtain ⟨u, hmatched, hzero, hn⟩ := hf _ _ _ place result
      refine ⟨u, hmatched, (reached.trans hzero).weaken (Nat.zero_le _), fun ha => ?_⟩
      exact (reached.trans (hn ha)).weaken (Nat.le_add_left ..)

/-- Every variable is held when a block is entered. -/
theorem Enters.reaches (h : c.Enters p q) (hs : s.At p store trace) :
    ∃ t, c.Reaches env 1 s t ∧ t.At q store trace := by
  obtain ⟨j, hj, hop⟩ := h.jump
  have hincoming : ∀ x v os, v ∈ c.phis q.block → c.op v = some (.phi x os) →
      c.incoming s.block s.regs v = some (store x) := by
    intro x v os hv hphi
    obtain ⟨y, os', u, hphi', hlookup, hu⟩ := h.phis v hv
    obtain ⟨rfl, rfl⟩ := Op.phi.inj (Option.some.inj (hphi.symm.trans hphi'))
    simp [incoming, hphi, hs.block, hlookup, hs.held _ _ hu]
  have henter : ∀ v ∈ c.phis q.block, c.incoming s.block s.regs v ≠ none := by
    intro v hv
    obtain ⟨x, os, u, hphi, -⟩ := h.phis v hv
    simp [hincoming x v os hv hphi]
  refine ⟨_, .instr hs.running (hs.rest.trans hj) hop rfl (if_pos henter), hs.running, rfl, ?_, ?_,
    hs.trace⟩
  · exact h.start.symm
  · intro x v hv
    show (if v ∈ c.phis q.block then c.incoming s.block s.regs v else s.regs v) = some (store x)
    rcases h.held x v hv with ⟨hphi, os, hop⟩ | ⟨hnot, hheld⟩
    · rw [if_pos hphi]
      exact hincoming x v os hphi hop
    · rw [if_neg hnot]
      exact hs.held x v hheld

/-- A block is entered that only a branch leads to. -/
theorem Opens.at {j : ValueId} {op : Op} (h : c.Opens bindings q)
    (hs : s.At ⟨b, rest, bindings⟩ store trace) (hrest : rest = [j]) (hop : c.op j = some op)
    (haction : op.act? env s.trace s.regs = some (.goto q.block)) :
    ∃ t, c.Reaches env 1 s t ∧ t.At q store trace := by
  have henter : ∀ v ∈ c.phis q.block, c.incoming s.block s.regs v ≠ none := by
    simp [h.phis]
  refine ⟨_, .instr hs.running (hs.rest.trans hrest) hop haction (if_pos henter), hs.running, rfl,
    h.start.symm, ?_, hs.trace⟩
  intro x v hv
  rw [h.bindings] at hv
  show (if v ∈ c.phis q.block then c.incoming s.block s.regs v else s.regs v) = some (store x)
  rw [if_neg (by simp [h.phis])]
  exact hs.held x v hv

/-- A branch goes where the test says. -/
theorem Forks.reaches {yes no : Place} {word : Int64} {holds : Bool}
    (h : c.Forks rest bindings v yes no) (hs : s.At ⟨b, rest, bindings⟩ store trace)
    (hv : s.regs v = some word) (hword : word = 0 ↔ holds = false) :
    ∃ t, c.Reaches env 1 s t ∧ t.At (if holds then yes else no) store trace := by
  obtain ⟨j, hj, hop⟩ := h.branch
  cases holds with
  | true =>
      have hne : word ≠ 0 := by simp [hword]
      exact h.onTrue.at hs hj hop (by simp [Op.act?, hv, hne])
  | false =>
      have hzero : word = 0 := hword.2 rfl
      exact h.onFalse.at hs hj hop (by simp [Op.act?, hv, hzero])

theorem Forks.apart {yes no : Place} (h : c.Forks rest bindings v yes no) (holds : Bool) :
    (if holds then yes else no).Apart := by
  cases holds with
  | true => exact h.onTrue.apart
  | false => exact h.onFalse.apart

/-- The end of a run. -/
theorem Exits.follows (h : c.Exits p.rest) (hs : s.At p store trace) :
    c.Follows env n s ⟨.finished none, todo, store, trace⟩ := by
  obtain ⟨j, e, r, hj, hjop, hphis, hbody, hrop⟩ := h.leaves
  have henter : ∀ v ∈ c.phis e, c.incoming s.block s.regs v ≠ none := by simp [hphis]
  have hjump : c.Reaches env 1 s _ := .instr hs.running (hs.rest.trans hj) hjop rfl (if_pos henter)
  have hreturn := hjump.trans (.instr hs.running hbody hrop rfl rfl)
  refine ⟨_, ?_, hreturn.weaken (Nat.zero_le _), by simp⟩
  exact .ended (by simp) (Prod.ext hs.trace.symm rfl)

/-- One round of a loop, or none. -/
theorem Loops.follows {t : Source.Test} {ss : List Source.Stmt} {head behind : Place}
    (h : c.Loops t ss head behind) (hs : s.At head store trace) (ha : head.Apart)
    (hbehind : c.Resumes todo behind) :
    c.Follows env 1 s (Source.Stmt.exec env todo store trace (.whileDo t ss)) := by
  -- The loop itself is what the body resumes with.
  have hloop := h
  cases h with
  | intro test forks body back =>
      refine (test.evaluates hs ha).follows fun t' holds trace' ht' hword => ?_
      obtain ⟨word, hv, hword⟩ := hword
      obtain ⟨t'', hreach, ht''⟩ := forks.reaches ht' hv hword
      refine .running hreach ?_ (forks.apart holds) ht''
      cases holds with
      | false => exact hbehind
      | true =>
          show c.Resumes (ss ++ .whileDo t ss :: todo) _
          rename_i last
          cases last with
          | none => exact .last body
          | some q => exact .run body (.loop (back q rfl) hloop hbehind)

/-- A variable holds what was computed for it. -/
theorem Computes.apart_bind {e : Source.Expr} {code : List ValueId}
    (h : c.Computes bindings e v code) (ha : (Place.mk b (code ++ rest) bindings).Apart)
    (x : String) : (Place.mk b rest (bindings.bind x v)).Apart := by
  refine ⟨ha.behind.nodup, fun y u hu hmem => ?_⟩
  rw [Bindings.get?_bind] at hu
  split at hu
  · obtain rfl := Option.some.inj hu
    rcases h.result with hv | ⟨z, hz⟩
    · exact (List.nodup_append.1 ha.nodup).2.2 v hv v hmem rfl
    · exact ha.behind.unheld z v hz hmem
  · exact ha.behind.unheld y u hu hmem

/-- An instruction that is seen from outside. -/
theorem follows_event {op : Op} {event : Event} (hs : s.At ⟨b, v :: rest, bindings⟩ store trace)
    (ha : (Place.mk b (v :: rest) bindings).Apart) (hop : c.op v = some op)
    (haction : op.act? env trace s.regs = some (.next none [event]))
    (hbehind : c.Resumes todo ⟨b, rest, bindings⟩) :
    c.Follows env 1 s ⟨.running, todo, store, trace ++ [event]⟩ := by
  have hinstr : c.Evaluates env s store ⟨b, rest, bindings⟩ [v] (fun _ _ => True)
      (.value () (trace ++ [event])) := evaluates_instr hs ha hop haction rfl fun _ _ => trivial
  have happart : (Place.mk b ([v] ++ rest) bindings).Apart := ha
  cases hinstr with
  | value reached place _ _ => exact .running reached hbehind happart.behind place

/-- One statement. An assignment may need no instruction. -/
theorem Implements.follows {t : Source.Stmt} {behind : Option Place} (h : c.Implements t p behind)
    (hs : s.At p store trace) (ha : p.Apart)
    (hbehind : ∀ q, behind = some q → c.Resumes todo q) :
    ∃ n, c.Follows env n s (t.exec env todo store trace)
      ∧ ((t.exec env todo store trace).todo.length < (t :: todo).length ∨ 1 ≤ n) := by
  cases h with
  | straight h =>
      cases h with
      | @assign x e v code value =>
          refine ⟨0, (value.evaluates hs ha).follows fun t m trace ht hv => ?_, Or.inl ?_⟩
          · exact .running (.refl c env t) (hbehind _ rfl) (value.apart_bind ha x) (ht.set hv x)
          · unfold Source.Stmt.exec Source.Result.next
            dsimp only
            split <;> exact Nat.lt_succ_self _
      | write value hop =>
          rw [List.append_assoc] at hs ha
          refine ⟨1, (value.evaluates hs ha).follows fun t m trace ht hv => ?_,
            Or.inr (Nat.le_refl 1)⟩
          exact follows_event ht ha.behind hop (by simp [Op.act?, hv]) (hbehind _ rfl)
      | newLine dropped hop =>
          rw [List.append_assoc] at hs ha
          refine ⟨1, (dropped.evaluates hs ha).follows fun t m trace ht _ => ?_,
            Or.inr (Nat.le_refl 1)⟩
          exact follows_event ht ha.behind hop rfl (hbehind _ rfl)
  | @ifThen t ss ts v b code rest bindings yes no left right behind test forks first second
      first_meets second_meets =>
      refine ⟨1, (test.evaluates hs ha).follows fun t' holds trace ht' hword => ?_,
        Or.inr (Nat.le_refl 1)⟩
      obtain ⟨word, hv, hword⟩ := hword
      obtain ⟨t'', hreach, ht''⟩ := forks.reaches ht' hv hword
      refine .running hreach ?_ (forks.apart holds) ht''
      have hpart {part : List Source.Stmt} {start : Place} {last : Option Place}
          (hcode : c.ImplementsAll part start last)
          (hmeets : ∀ p, last = some p → ∃ q, behind = some q ∧ c.Enters p q) :
          c.Resumes (part ++ todo) start := by
        cases last with
        | none => exact .last hcode
        | some p =>
            obtain ⟨q, hq, henters⟩ := hmeets p rfl
            exact .run hcode (.enter henters (hbehind q hq))
      cases holds with
      | true => exact hpart first first_meets
      | false => exact hpart second second_meets
  | whileDo enters loops =>
      obtain ⟨t, hreach, ht⟩ := enters.reaches hs
      exact ⟨1 + 1, (loops.follows ht enters.apart (hbehind _ rfl)).behind hreach, Or.inr (by omega)⟩
  | ret exits => exact ⟨1, exits.follows hs, Or.inr (Nat.le_refl 1)⟩
  | retValue value exits =>
      refine ⟨1, (value.evaluates hs ha).follows fun t m trace ht _ => ?_, Or.inr (Nat.le_refl 1)⟩
      exact exits.follows (p := ⟨_, _, _⟩) ht

/-- One step of the statements. The machine stands still only where fewer of them
are left. -/
theorem Resumes.follows (h : c.Resumes todo p) (ha : p.Apart) (hs : s.At p store trace) :
    ∃ n, c.Follows env n s (Source.State.step env ⟨.running, todo, store, trace⟩)
      ∧ ((Source.State.step env ⟨.running, todo, store, trace⟩).todo.length < todo.length
        ∨ 1 ≤ n) := by
  -- The induction is on how the code is put together: up to the next statement.
  induction h generalizing s with
  | exit exits => exact ⟨1, exits.follows hs, Or.inr (Nat.le_refl 1)⟩
  | @run ss todo p q code behind ih =>
      cases code with
      | nil => exact ih ha hs
      | cons first rest =>
          refine first.follows hs ha fun q hq => ?_
          obtain rfl := Option.some.inj hq
          exact .run rest behind
  | last code =>
      cases code with
      | cons first rest =>
          refine first.follows hs ha fun q hq => ?_
          obtain rfl := Option.some.inj hq
          exact .last rest
      | last first => exact first.follows hs ha fun q hq => by cases hq
  | enter enters behind ih =>
      obtain ⟨t, hreach, ht⟩ := enters.reaches hs
      obtain ⟨n, hfollows, -⟩ := ih enters.apart ht
      exact ⟨1 + n, hfollows.behind hreach, Or.inr (by omega)⟩
  | loop enters loops behind =>
      obtain ⟨t, hreach, ht⟩ := enters.reaches hs
      exact ⟨1 + 1, (loops.follows ht enters.apart behind).behind hreach, Or.inr (by omega)⟩

/-- Both sides go on, or come to an end. -/
theorem Matched.progress {a : Source.State} (h : c.Matched a s) (hrun : a.status = .running) :
    ∃ m n, c.Matched (a.run env m) (c.run env n s)
      ∧ ((a.run env m).status = .running → 1 ≤ m ∧ 1 ≤ n) := by
  -- On the number of statements left: it goes down as long as the machine stands still.
  induction hlen : a.todo.length using Nat.strongRecOn generalizing a s with
  | ind len ih =>
      cases h with
      | ended hended _ => exact absurd hrun hended
      | @running todo store trace p _ code apart place =>
          obtain ⟨n, ⟨t, hmatched, ⟨k, -, rfl⟩, hn⟩, hless⟩ := code.follows apart place
          by_cases hgoes : (Source.State.step env ⟨.running, todo, store, trace⟩).status = .running
          · rcases hless with hless | hpos
            · obtain ⟨m, n', hmatched', hlate⟩ := ih _ (hlen ▸ hless) hmatched hgoes rfl
              rw [← run_add] at hmatched'
              refine ⟨m + 1, n' + k, ?_, fun hstill => ?_⟩
              · rw [Source.State.run_add]
                exact hmatched'
              · rw [Source.State.run_add] at hstill
                have := hlate hstill
                omega
            · obtain ⟨k', hk', heq⟩ := hn hgoes
              refine ⟨1, k', ?_, fun _ => ⟨Nat.le_refl 1, Nat.le_trans hpos hk'⟩⟩
              rw [heq]
              exact hmatched
          · exact ⟨1, k, hmatched, fun hstill => absurd hstill hgoes⟩

/-- From where they have met the two sides meet again and again. -/
theorem Matched.rejoin {a : Source.State} (h : c.Matched a s) :
    Rejoin (fun n => (a.run env n).seen) fun n => (c.run env n s).seen := by
  intro k
  suffices hmeet : ∃ m n, c.Matched (a.run env m) (c.run env n s)
      ∧ ((a.run env m).status = .running → k ≤ m ∧ k ≤ n) by
    obtain ⟨m, n, hmatched, hlate⟩ := hmeet
    exact ⟨m, n, hmatched.seen_eq, hlate⟩
  induction k with
  | zero => exact ⟨0, 0, h, fun _ => ⟨Nat.le_refl 0, Nat.le_refl 0⟩⟩
  | succ k ih =>
      obtain ⟨m, n, hmatched, hlate⟩ := ih
      by_cases hrun : (a.run env m).status = .running
      · obtain ⟨m', n', hmatched', hmore⟩ := hmatched.progress hrun
        rw [← Source.State.run_add, ← run_add] at hmatched'
        refine ⟨m' + m, n' + n, hmatched', fun hstill => ?_⟩
        rw [Source.State.run_add] at hstill
        have := hlate hrun
        have := hmore hstill
        omega
      · exact ⟨m, n, hmatched, fun hstill => absurd hstill hrun⟩

end Steps

end Code

end Machine

end StructuredSsa
