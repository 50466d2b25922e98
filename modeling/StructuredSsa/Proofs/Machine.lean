import Mathlib.Logic.Function.Iterate
import StructuredSsa.Proofs.View

/-!
# Running blocks

A machine that executes the blocks of a method one instruction at a time. Phis
are taken all at once when an edge is followed, from the operands that belong
to its source. What a run asks of its surroundings is answered by an `Env`,
what it does to them is an `Event`.

A run that reads a value nothing defined, or that comes to an end of a block
without a terminator, is `broken`. That is kept apart from `stuck`, which is a
division by zero.
-/

namespace StructuredSsa

namespace Machine

/-- Something a run does that can be seen from outside. -/
inductive Event where
  | read (n : Int64)
  | write (n : Int64)
  | newLine
  | loadGlobal (name : String) (n : Int64)
  | storeGlobal (name : String) (n : Int64)
  | load (address n : Int64)
  | store (address n : Int64)
  | call (callee : String) (arguments : List Int64) (n : Int64)
deriving Repr, DecidableEq

/-- The surroundings of a run. An answer may depend on all that was seen before
it. -/
structure Env where
  param : String → Nat → Int64
  read : List Event → Int64
  loadGlobal : List Event → String → Int64
  /-- Where an array starts. -/
  base : List Event → String → Int64
  /-- The address of an element, from the start of its array and its offset. -/
  element : Int64 → Int64 → Int64
  load : List Event → Int64 → Int64
  call : List Event → String → List Int64 → Int64

/-- What executing an instruction comes to. -/
inductive Action where
  /-- Go on behind the instruction, with a value for it or without. -/
  | next (value : Option Int64) (events : List Event)
  | goto (target : BlockId)
  | finish (value : Option Int64)
  | stuck

end Machine

open Machine

/-- What an instruction does where values have the words `regs` gives. Nothing
where it reads a value that has none; a phi is not executed this way. -/
def Op.act? (env : Env) (trace : List Event) (regs : ValueId → Option Int64) : Op → Option Action
  | const n => some (.next (some n) [])
  | param x i => some (.next (some (env.param x i)) [])
  | phi _ _ => none
  | arith op lhs rhs => do
      let x ← regs lhs
      let y ← regs rhs
      match op.eval? x y with
      | some n => some (.next (some n) [])
      | none => some .stuck
  | compare op lhs rhs => do
      let x ← regs lhs
      let y ← regs rhs
      some (.next (some (op.eval x y)) [])
  | loadGlobal x => some (.next (some (env.loadGlobal trace x)) [.loadGlobal x (env.loadGlobal trace x)])
  | storeGlobal x value => do
      let n ← regs value
      some (.next none [.storeGlobal x n])
  | declareArray _ _ => some (.next none [])
  | arrayBase x => some (.next (some (env.base trace x)) [])
  | index base offset => do
      let x ← regs base
      let y ← regs offset
      some (.next (some (env.element x y)) [])
  | load address => do
      let x ← regs address
      some (.next (some (env.load trace x)) [.load x (env.load trace x)])
  | store address value => do
      let x ← regs address
      let n ← regs value
      some (.next none [.store x n])
  | call callee arguments => do
      let xs ← arguments.mapM regs
      some (.next (some (env.call trace callee xs)) [.call callee xs (env.call trace callee xs)])
  | read => some (.next (some (env.read trace)) [.read (env.read trace)])
  | write value => do
      let n ← regs value
      some (.next none [.write n])
  | writeLine => some (.next none [.newLine])
  | branch condition onTrue onFalse => do
      let n ← regs condition
      some (.goto (if n = 0 then onFalse else onTrue))
  | jump target => some (.goto target)
  | ret none => some (.finish none)
  | ret (some value) => do
      let n ← regs value
      some (.finish (some n))

namespace Machine

/-! ## Code and its execution -/

/-- What the machine reads of a program. -/
structure Code where
  op : ValueId → Option Op
  phis : BlockId → List ValueId
  body : BlockId → List ValueId

inductive Status where
  | running
  | finished (value : Option Int64)
  /-- Stopped at a division by zero. -/
  | stuck
  | broken
deriving Repr, DecidableEq

structure State where
  status : Status
  block : BlockId
  /-- What is left of the block. -/
  rest : List ValueId
  regs : ValueId → Option Int64
  trace : List Event

/-- What can be seen of a run. -/
def State.seen (s : State) : List Event × Status := (s.trace, s.status)

namespace Code

/-- What a phi takes along an edge from `source`. -/
def incoming (c : Code) (source : BlockId) (regs : ValueId → Option Int64) (v : ValueId) :
    Option Int64 :=
  match c.op v with
  | some (.phi _ operands) => (operands.lookup source).bind regs
  | _ => none

/-- Follow an edge. -/
def enter? (c : Code) (s : State) (target : BlockId) : Option State :=
  if ∀ v ∈ c.phis target, c.incoming s.block s.regs v ≠ none then
    some { s with
      block := target
      rest := c.body target
      regs := fun v =>
        if v ∈ c.phis target then c.incoming s.block s.regs v else s.regs v }
  else none

/-- Carry out what the instruction `v` comes to. -/
def perform? (c : Code) (s : State) (v : ValueId) (rest : List ValueId) : Action → Option State
  | .next value events => some { s with
      rest := rest
      regs := fun u => if u = v then value else s.regs u
      trace := s.trace ++ events }
  | .goto target => c.enter? s target
  | .finish value => some { s with status := .finished value }
  | .stuck => some { s with status := .stuck }

/-- Execute the next instruction. -/
def next? (c : Code) (env : Env) (s : State) : Option State :=
  match s.rest with
  | [] => none
  | v :: rest => do
      let op ← c.op v
      let action ← op.act? env s.trace s.regs
      c.perform? s v rest action

def step (c : Code) (env : Env) (s : State) : State :=
  match s.status with
  | .running => (c.next? env s).getD { s with status := .broken }
  | _ => s

/-- The state after `n` steps. -/
def run (c : Code) (env : Env) (n : Nat) (s : State) : State := (c.step env)^[n] s

/-- The state in which a method starts. -/
def start (c : Code) (entry : BlockId) : State := ⟨.running, entry, c.body entry, fun _ => none, []⟩

end Code

end Machine

def View.code (w : View) : Code := ⟨w.op, w.phis, w.body⟩

namespace Program

/-- The code of a program. -/
def code (p : Program) : Code where
  op v := (p.instr? v).map (·.op)
  phis := p.phis
  body b := ((p.block? b).map (·.body)).getD []

/-- What is seen of a method in `n` steps. -/
def observe (p : Program) (env : Env) (m : Method) (n : Nat) : List Event × Status :=
  (p.code.run env n (p.code.start m.entry)).seen

end Program

/-! ## What an instruction comes to -/

namespace Op

variable {env : Env} {trace : List Event} {regs regs' : ValueId → Option Int64} {op : Op}

theorem mapM_map_regs (f : ValueId → ValueId) (vs : List ValueId) :
    (vs.map f).mapM regs = vs.mapM fun v => regs (f v) := by
  induction vs with
  | nil => rfl
  | cons v vs ih => simp only [List.map_cons, List.mapM_cons, ih]

theorem mapM_regs_congr {vs : List ValueId} (h : ∀ v ∈ vs, regs v = regs' v) :
    vs.mapM regs = vs.mapM regs' := by
  induction vs with
  | nil => rfl
  | cons v vs ih =>
      rw [List.forall_mem_cons] at h
      simp only [List.mapM_cons, h.1, ih h.2]

theorem mapM_regs_ne_none {vs : List ValueId} (h : ∀ v ∈ vs, regs v ≠ none) :
    vs.mapM regs ≠ none := by
  induction vs with
  | nil => simp
  | cons v vs ih =>
      rw [List.forall_mem_cons] at h
      obtain ⟨x, hx⟩ := Option.ne_none_iff_exists'.1 h.1
      obtain ⟨xs, hxs⟩ := Option.ne_none_iff_exists'.1 (ih h.2)
      simp [hx, hxs]

/-- Reading through a renaming is executing the renamed instruction. -/
theorem act?_mapOperands (f : ValueId → ValueId) :
    (op.mapOperands f).act? env trace regs = op.act? env trace fun v => regs (f v) := by
  cases op with
  | call callee arguments => simp only [mapOperands, act?, mapM_map_regs]
  | ret value => cases value <;> rfl
  | _ => rfl

/-- Only the operands matter. -/
theorem act?_congr (h : ∀ v ∈ op.operands, regs v = regs' v) :
    op.act? env trace regs = op.act? env trace regs' := by
  cases op with
  | call callee arguments =>
      have hargs : ∀ v ∈ arguments, regs v = regs' v := h
      simp only [act?, mapM_regs_congr hargs]
  | ret value =>
      cases value with
      | none => rfl
      | some v => simp only [act?, h v (by simp [operands])]
  | arith o a b | compare o a b | index a b | store a b =>
      simp only [act?, h a (by simp [operands]), h b (by simp [operands])]
  | storeGlobal x a | load a | write a | branch a t e =>
      simp only [act?, h a (by simp [operands])]
  | phi | const | param | loadGlobal | declareArray | arrayBase | read | writeLine | jump => rfl

/-- An instruction can be executed where its operands have words. -/
theorem act?_ne_none (hphi : op.isPhi = false) (h : ∀ v ∈ op.operands, regs v ≠ none) :
    op.act? env trace regs ≠ none := by
  cases op with
  | phi x os => cases hphi
  | call callee arguments =>
      have hargs : ∀ v ∈ arguments, regs v ≠ none := h
      obtain ⟨xs, hxs⟩ := Option.ne_none_iff_exists'.1 (mapM_regs_ne_none hargs)
      simp [act?, hxs]
  | arith o lhs rhs =>
      obtain ⟨x, hx⟩ := Option.ne_none_iff_exists'.1 (h lhs (by simp [operands]))
      obtain ⟨y, hy⟩ := Option.ne_none_iff_exists'.1 (h rhs (by simp [operands]))
      simp only [act?, hx, hy, Option.bind_eq_bind, Option.bind_some]
      split <;> simp
  | ret value =>
      cases value with
      | none => simp [act?]
      | some v =>
          obtain ⟨x, hx⟩ := Option.ne_none_iff_exists'.1 (h v (by simp [operands]))
          simp [act?, hx]
  | compare o a b | index a b | store a b =>
      obtain ⟨x, hx⟩ := Option.ne_none_iff_exists'.1 (h a (by simp [operands]))
      obtain ⟨y, hy⟩ := Option.ne_none_iff_exists'.1 (h b (by simp [operands]))
      simp [act?, hx, hy]
  | storeGlobal x a | load a | write a | branch a t e =>
      obtain ⟨x, hx⟩ := Option.ne_none_iff_exists'.1 (h a (by simp [operands]))
      simp [act?, hx]
  | const | param | loadGlobal | declareArray | arrayBase | read | writeLine | jump =>
      simp [act?]

/-- An instruction inside a block goes on or is stuck; one that has a value
gets it. -/
theorem act?_inside {action : Action} (h : op.act? env trace regs = some action)
    (hop : op.isTerminator = false) :
    action = .stuck ∨ ∃ value events, action = .next value events
      ∧ (op.hasValue = true → value ≠ none) := by
  cases op with
  | arith o lhs rhs =>
      simp only [act?, Option.bind_eq_bind, Option.bind_eq_some_iff] at h
      obtain ⟨x, -, y, -, h⟩ := h
      split at h
      · exact Or.inr ⟨_, _, (Option.some.inj h).symm, by simp⟩
      · exact Or.inl (Option.some.inj h).symm
  | phi => cases h
  | branch | jump | ret => cases hop
  | compare | index | store =>
      simp only [act?, Option.bind_eq_bind, Option.bind_eq_some_iff, Option.some.injEq] at h
      obtain ⟨x, -, y, -, rfl⟩ := h
      exact Or.inr ⟨_, _, rfl, by simp [hasValue]⟩
  | storeGlobal | load | call | write =>
      simp only [act?, Option.bind_eq_bind, Option.bind_eq_some_iff, Option.some.injEq] at h
      obtain ⟨x, -, rfl⟩ := h
      exact Or.inr ⟨_, _, rfl, by simp [hasValue]⟩
  | const | param | loadGlobal | declareArray | arrayBase | read | writeLine =>
      exact Or.inr ⟨_, _, (Option.some.inj h).symm, by simp [hasValue]⟩

/-- A terminator goes to one of its targets or ends the run. -/
theorem act?_terminator {action : Action} (h : op.act? env trace regs = some action)
    (hop : op.isTerminator = true) :
    (∃ target ∈ op.targets, action = .goto target) ∨ ∃ value, action = .finish value := by
  cases op with
  | branch condition onTrue onFalse =>
      simp only [act?, Option.bind_eq_bind, Option.bind_eq_some_iff, Option.some.injEq] at h
      obtain ⟨n, -, rfl⟩ := h
      refine Or.inl ⟨_, ?_, rfl⟩
      split <;> simp [targets]
  | jump target => exact Or.inl ⟨target, by simp [targets], (Option.some.inj h).symm⟩
  | ret value =>
      right
      cases value with
      | none => exact ⟨none, (Option.some.inj h).symm⟩
      | some v =>
          simp only [act?, Option.bind_eq_bind, Option.bind_eq_some_iff, Option.some.injEq] at h
          obtain ⟨n, -, rfl⟩ := h
          exact ⟨some n, rfl⟩
  | _ => cases hop

end Op

/-! ## Steps -/

namespace Machine

namespace Code

variable {c : Code} {env : Env} {s t : State}

theorem run_zero : c.run env 0 s = s := rfl

/-- One more step at the end of a run. -/
theorem run_succ (n : Nat) : c.run env (n + 1) s = c.step env (c.run env n s) :=
  Function.iterate_succ_apply' _ n s

theorem run_add (m n : Nat) : c.run env (m + n) s = c.run env m (c.run env n s) :=
  Function.iterate_add_apply _ m n s

theorem step_of_ne (h : s.status ≠ .running) : c.step env s = s := by
  rw [step]
  split
  · next hrun => exact absurd hrun h
  · rfl

theorem step_of_next (hs : s.status = .running) (h : c.next? env s = some t) :
    c.step env s = t := by
  simp [step, hs, h]

/-- A step that does not break is an instruction that is executed. -/
theorem next_of_step (hs : s.status = .running) (h : (c.step env s).status ≠ .broken) :
    c.next? env s = some (c.step env s) := by
  cases hnext : c.next? env s with
  | none => simp [step, hs, hnext] at h
  | some t => rw [step_of_next hs hnext]

/-- The parts of an instruction that is executed. -/
theorem next?_eq_some : c.next? env s = some t ↔
    ∃ v rest op action, s.rest = v :: rest ∧ c.op v = some op
      ∧ op.act? env s.trace s.regs = some action ∧ c.perform? s v rest action = some t := by
  cases hrest : s.rest with
  | nil => simp [next?, hrest]
  | cons v rest =>
      simp only [next?, hrest, Option.bind_eq_bind, Option.bind_eq_some_iff]
      constructor
      · rintro ⟨op, hop, action, haction, h⟩
        exact ⟨v, rest, op, action, rfl, hop, haction, h⟩
      · rintro ⟨v', rest', op, action, hcons, hop, haction, h⟩
        obtain ⟨rfl, rfl⟩ := List.cons.inj hcons
        exact ⟨op, hop, action, haction, h⟩

/-! ## What every run keeps -/

/-- What is left of a block is part of it, and constants have their own word or
none yet. -/
structure Orderly (c : Code) (s : State) : Prop where
  inside : ∀ v ∈ s.rest, v ∈ c.body s.block
  constant : ∀ v n, c.op v = some (.const n) → s.regs v = none ∨ s.regs v = some n

theorem orderly_start (c : Code) (entry : BlockId) : c.Orderly (c.start entry) :=
  ⟨fun _ hv => hv, fun _ _ _ => Or.inl rfl⟩

theorem Orderly.next (h : c.Orderly s)
    (hphis : ∀ v b, v ∈ c.phis b → ∃ x os, c.op v = some (.phi x os))
    (ht : c.next? env s = some t) : c.Orderly t := by
  obtain ⟨v, rest, op, action, hrest, hop, haction, hperform⟩ := next?_eq_some.1 ht
  cases action with
  | next value events =>
      obtain rfl := Option.some.inj hperform
      refine ⟨fun u hu => h.inside u (by simp [hrest, show u ∈ rest from hu]), fun u n hu => ?_⟩
      show (if u = v then value else s.regs u) = none ∨ (if u = v then value else s.regs u) = some n
      split
      · next huv =>
          rw [huv, hop] at hu
          obtain rfl := Option.some.inj hu
          obtain ⟨rfl, -⟩ := Action.next.inj (Option.some.inj haction)
          exact Or.inr rfl
      · exact h.constant u n hu
  | goto target =>
      simp only [perform?, enter?] at hperform
      split at hperform
      · obtain rfl := Option.some.inj hperform
        refine ⟨fun u hu => hu, fun u n hu => ?_⟩
        have hno : u ∉ c.phis target := by
          intro hmem
          obtain ⟨x, os, hphi⟩ := hphis u target hmem
          cases hphi.symm.trans hu
        simpa [hno] using h.constant u n hu
      · cases hperform
  | finish value =>
      obtain rfl := Option.some.inj hperform
      exact ⟨h.inside, h.constant⟩
  | stuck =>
      obtain rfl := Option.some.inj hperform
      exact ⟨h.inside, h.constant⟩

/-! ## Runs side by side -/

/-- Two machines that go on in step show the same, as long as the first does
not break. -/
theorem seen_of_simulation {c' : Code} {R : State → State → Prop}
    (hseen : ∀ s s', R s s' → s'.seen = s.seen)
    (hnext : ∀ s s' t, R s s' → c.next? env s = some t → ∃ t', c'.next? env s' = some t' ∧ R t t')
    {s' : State} (hR : R s s') (hok : ∀ n, (c.run env n s).status ≠ .broken) (n : Nat) :
    (c'.run env n s').seen = (c.run env n s).seen := by
  have hrun (n : Nat) : R (c.run env n s) (c'.run env n s') := by
    induction n with
    | zero => exact hR
    | succ n ih =>
        rw [run_succ, run_succ]
        have hstatus : (c'.run env n s').status = (c.run env n s).status :=
          congrArg Prod.snd (hseen _ _ ih)
        by_cases hrunning : (c.run env n s).status = .running
        · have hstep := next_of_step (c := c) hrunning (by rw [← run_succ]; exact hok (n + 1))
          obtain ⟨t', ht', hRt⟩ := hnext _ _ _ ih hstep
          rw [step_of_next (hstatus.trans hrunning) ht']
          exact hRt
        · rw [step_of_ne hrunning, step_of_ne (hstatus ▸ hrunning)]
          exact ih
  exact hseen _ _ (hrun n)

end Code

end Machine

end StructuredSsa
