import StructuredSsa.Proofs.Machine
import StructuredSsa.Syntax.Tree

/-!
# Scalar computations

Computations whose variables are all scalars and that call nothing but the
built-in input and output (`Computation.ofTree?`). They are executed directly, one
statement at a time, over a store that every statement may change.

What is seen of such an execution is of the same form as what is seen of a
machine that executes blocks (`State.seen`), so that the two can be compared:
`SameBehaviour` says that neither shows anything that the other does not, however long
they run. As one statement is many instructions, they are not compared step by
step, but where they meet (`sameBehaviour_of_rejoin`).
-/

namespace StructuredSsa

open Machine

namespace Source

/-! ## Syntax -/

inductive Expr where
  | number (n : Int64)
  | var (x : String)
  /-- The next number of the input. -/
  | input
  | arith (op : ArithOp) (lhs rhs : Expr)
  /-- The second expression, after the first was evaluated for nothing. -/
  | after (dropped value : Expr)
deriving Repr, DecidableEq

/-- A comparison that decides where to go on. -/
structure Test where
  lhs : Expr
  op : RelOp
  rhs : Expr
deriving Repr, DecidableEq

inductive Stmt where
  | assign (x : String) (value : Expr)
  | write (value : Expr)
  /-- A new line, after some expressions were evaluated for nothing. -/
  | newLine (dropped : List Expr)
  | ifThen (test : Test) (yes no : List Stmt)
  | whileDo (test : Test) (body : List Stmt)
  /-- The end of the computation. The value is computed and dropped. -/
  | ret (value : Option Expr)

structure Computation where
  /-- The variables that are declared. -/
  scalars : List String
  body : List Stmt

/-! ## Reading trees -/

mutual

/-- The expression of a tree. Indices behind a scalar and arguments that nothing
takes are evaluated all the same. -/
def Expr.ofTree? : Syntax.Expr → Option Expr
  | .number n _ => some (.number n)
  | .designator (.ident x _) is => (ofIndices? is).map fun dropped => dropped.foldr .after (.var x)
  | .group inner _ => Expr.ofTree? inner
  | .arith op lhs rhs _ => do
      let lhs ← Expr.ofTree? lhs
      let rhs ← Expr.ofTree? rhs
      return .arith op lhs rhs
  | .call (.ident callee _) args _ =>
      if callee = "InputNum" then
        (ofArguments? args).map fun dropped => dropped.foldr .after .input
      else none
  | .designator (.missing _) _ | .call (.missing _) _ _ | .missing _ => none

def ofIndices? : Syntax.Indices → Option (List Expr)
  | .nil => some []
  | .cons index _ rest => do
      let index ← Expr.ofTree? index
      let rest ← ofIndices? rest
      return index :: rest

def ofArguments? : Syntax.Arguments → Option (List Expr)
  | .nil => some []
  | .cons argument rest => do
      let argument ← Expr.ofTree? argument
      let rest ← ofArguments? rest
      return argument :: rest

end

def Test.ofTree? : Syntax.Relation → Option Test
  | .compare lhs op _ rhs => do
      let lhs ← Expr.ofTree? lhs
      let rhs ← Expr.ofTree? rhs
      return ⟨lhs, op, rhs⟩
  | .noOperator .. => none

/-- A call that stands as a statement: one that writes a number, or a new line. -/
def Stmt.ofCall? (callee : String) (arguments : List Expr) : Option Stmt :=
  if callee = "OutputNum" then
    match arguments with
    | [value] => some (.write value)
    | _ => none
  else if callee = "OutputNewLine" then some (.newLine arguments)
  else none

mutual

def Stmt.ofTree? : Syntax.Stmt → Option Stmt
  | .assign (.ident x _) is _ value => do
      let dropped ← ofIndices? is
      let value ← Expr.ofTree? value
      return .assign x (dropped.foldr .after value)
  | .call (.ident callee _) args _ => do
      let args ← ofArguments? args
      Stmt.ofCall? callee args
  | .ifThen _ condition _ yes _ no _ _ => do
      let test ← Test.ofTree? condition
      let yes ← ofSequence? yes
      let no ← ofSequence? no
      return .ifThen test yes no
  | .whileDo _ condition _ body _ _ => do
      let test ← Test.ofTree? condition
      let body ← ofSequence? body
      return .whileDo test body
  | .ret _ none => some (.ret none)
  | .ret _ (some value) => do
      let value ← Expr.ofTree? value
      return .ret (some value)
  | .assign (.missing _) _ _ _ | .call (.missing _) _ _ | .unknown _ => none

def ofSequence? : Syntax.Sequence → Option (List Stmt)
  | .nil => some []
  | .cons _ _ t rest => do
      let t ← Stmt.ofTree? t
      let rest ← ofSequence? rest
      return t :: rest

end

/-- The names that a declaration of scalars declares. -/
def ofDecl? (d : Syntax.VarDecl) : Option (List String) :=
  if d.type = .scalar then
    d.names.mapM fun x => match x with
      | .ident text _ => some text
      | .missing _ => none
  else none

/-- The computation of a tree, where all variables are scalars, there are no
methods, and all calls are of the built-in input and output. -/
def Computation.ofTree? (t : Syntax.Computation) : Option Computation :=
  if t.methods.isEmpty then do
    let scalars ← t.varDecls.mapM ofDecl?
    let body ← ofSequence? t.body.statements
    return ⟨scalars.flatten, body⟩
  else none

/-! ## Variables in use -/

def Expr.names : Expr → List String
  | number _ | input => []
  | var x => [x]
  | arith _ lhs rhs => lhs.names ++ rhs.names
  | after dropped value => dropped.names ++ value.names

def Test.names (t : Test) : List String := t.lhs.names ++ t.rhs.names

mutual

def Stmt.names : Stmt → List String
  | .assign x value => x :: value.names
  | .write value => value.names
  | .newLine dropped => dropped.flatMap Expr.names
  | .ifThen test yes no => test.names ++ namesOf yes ++ namesOf no
  | .whileDo test body => test.names ++ namesOf body
  | .ret none => []
  | .ret (some value) => value.names

def namesOf : List Stmt → List String
  | [] => []
  | s :: rest => s.names ++ namesOf rest

end

/-- Every variable that is used is declared. -/
def Computation.Declared (c : Computation) : Prop := namesOf c.body ⊆ c.scalars

instance (c : Computation) : Decidable c.Declared :=
  inferInstanceAs (Decidable (∀ x, x ∈ namesOf c.body → x ∈ c.scalars))

/-! ## Execution -/

/-- The words that the variables have. -/
abbrev Store := String → Int64

def Store.set (store : Store) (x : String) (n : Int64) : Store :=
  fun y => if y = x then n else store y

/-- What evaluating comes to, with all that was seen until then. -/
inductive Result (α : Type) where
  | value (a : α) (trace : List Event)
  /-- There was a division by zero. -/
  | stuck (trace : List Event)

/-- Go on with a value. -/
def Result.bind {α β : Type} : Result α → (α → List Event → Result β) → Result β
  | .value a trace, f => f a trace
  | .stuck trace, _ => .stuck trace

/-- Arithmetic on two words. -/
def arithResult (op : ArithOp) (x y : Int64) (trace : List Event) : Result Int64 :=
  match op.eval? x y with
  | some n => .value n trace
  | none => .stuck trace

/-- Operands are evaluated from left to right. -/
def Expr.eval (env : Env) (store : Store) : Expr → List Event → Result Int64
  | number n, trace => .value n trace
  | var x, trace => .value (store x) trace
  | input, trace => .value (env.read trace) (trace ++ [.read (env.read trace)])
  | arith op lhs rhs, trace =>
      (lhs.eval env store trace).bind fun x trace =>
        (rhs.eval env store trace).bind fun y trace => arithResult op x y trace
  | after dropped value, trace =>
      (dropped.eval env store trace).bind fun _ trace => value.eval env store trace

/-- Evaluate some expressions for nothing. -/
def evalAll (env : Env) (store : Store) : List Expr → List Event → Result Unit
  | [], trace => .value () trace
  | e :: rest, trace => (e.eval env store trace).bind fun _ trace => evalAll env store rest trace

def Test.eval (env : Env) (store : Store) (t : Test) (trace : List Event) : Result Bool :=
  (t.lhs.eval env store trace).bind fun x trace =>
    (t.rhs.eval env store trace).bind fun y trace => .value (t.op.holds x y) trace

structure State where
  status : Status
  /-- The statements still to execute. -/
  todo : List Stmt
  store : Store
  trace : List Event

/-- What can be seen of an execution. -/
def State.seen (s : State) : List Event × Status := (s.trace, s.status)

/-- Go on with a value, or stop where there is none. -/
def Result.next {α : Type} (r : Result α) (todo : List Stmt) (store : Store)
    (f : α → List Event → State) : State :=
  match r with
  | .value a trace => f a trace
  | .stuck trace => ⟨.stuck, todo, store, trace⟩

/-- Execute one statement; `rest` is to be executed behind it. -/
def Stmt.exec (env : Env) (rest : List Stmt) (store : Store) (trace : List Event) : Stmt → State
  | assign x value => (value.eval env store trace).next rest store fun n trace =>
      ⟨.running, rest, store.set x n, trace⟩
  | write value => (value.eval env store trace).next rest store fun n trace =>
      ⟨.running, rest, store, trace ++ [.write n]⟩
  | newLine dropped => (evalAll env store dropped trace).next rest store fun _ trace =>
      ⟨.running, rest, store, trace ++ [.newLine]⟩
  | ifThen test yes no => (test.eval env store trace).next rest store fun holds trace =>
      ⟨.running, (if holds then yes else no) ++ rest, store, trace⟩
  | whileDo test body => (test.eval env store trace).next rest store fun holds trace =>
      ⟨.running, if holds then body ++ whileDo test body :: rest else rest, store, trace⟩
  | ret none => ⟨.finished none, rest, store, trace⟩
  | ret (some value) => (value.eval env store trace).next rest store fun _ trace =>
      ⟨.finished none, rest, store, trace⟩

namespace State

/-- Execute the next statement. -/
def step (env : Env) (s : State) : State :=
  match s.status, s.todo with
  | .running, t :: rest => t.exec env rest s.store s.trace
  | .running, [] => { s with status := .finished none }
  | _, _ => s

/-- The state after `n` statements. -/
def run (env : Env) (n : Nat) (s : State) : State := (step env)^[n] s

end State

/-- What is seen of a computation in `n` steps. All variables start as zero. -/
def Computation.observe (c : Computation) (env : Env) (n : Nat) : List Event × Status :=
  (State.run env n ⟨.running, c.body, fun _ => 0, []⟩).seen

/-! ## Steps -/

section Steps

variable {env : Env} {store : Store}

/-- What was seen stays seen. -/
def Result.After {α : Type} (trace : List Event) : Result α → Prop
  | .value _ t => trace <+: t
  | .stuck t => trace <+: t

theorem Result.After.bind {α β : Type} {r : Result α} {f : α → List Event → Result β}
    {trace : List Event} (h : r.After trace) (hf : ∀ a t, trace <+: t → (f a t).After trace) :
    (r.bind f).After trace := by
  cases r with
  | value a t => exact hf a t h
  | stuck t => exact h

theorem arithResult_after (op : ArithOp) (x y : Int64) {trace t : List Event} (h : trace <+: t) :
    (arithResult op x y t).After trace := by
  unfold arithResult
  split <;> exact h

theorem Expr.eval_after (e : Expr) {trace t : List Event} (h : trace <+: t) :
    (e.eval env store t).After trace := by
  induction e generalizing t with
  | number | var => exact h
  | input => exact h.trans (List.prefix_append ..)
  | arith op lhs rhs ihl ihr =>
      exact (ihl h).bind fun x _ ht => (ihr ht).bind fun y _ ht' => arithResult_after op x y ht'
  | after dropped value ihd ihv => exact (ihd h).bind fun _ _ ht => ihv ht

theorem evalAll_after (es : List Expr) {trace t : List Event} (h : trace <+: t) :
    (evalAll env store es t).After trace := by
  induction es generalizing t with
  | nil => exact h
  | cons e rest ih => exact (e.eval_after h).bind fun _ _ ht => ih ht

theorem Test.eval_after (t : Test) (trace : List Event) : (t.eval env store trace).After trace :=
  (t.lhs.eval_after List.prefix_rfl).bind fun _ _ h => (t.rhs.eval_after h).bind fun _ _ h' => h'

theorem Result.next_after {α : Type} {r : Result α} {todo : List Stmt} {f : α → List Event → State}
    {trace : List Event} (h : r.After trace) (hf : ∀ a t, t <+: (f a t).trace) :
    trace <+: (r.next todo store f).trace := by
  cases r with
  | value a t => exact List.IsPrefix.trans h (hf a t)
  | stuck t => exact h

theorem Stmt.exec_after (t : Stmt) (rest : List Stmt) (trace : List Event) :
    trace <+: (t.exec env rest store trace).trace := by
  cases t with
  | assign x value =>
      exact Result.next_after (value.eval_after List.prefix_rfl) fun _ _ => List.prefix_rfl
  | write value =>
      exact Result.next_after (value.eval_after List.prefix_rfl) fun _ _ => List.prefix_append ..
  | newLine dropped =>
      exact Result.next_after (evalAll_after dropped List.prefix_rfl) fun _ _ =>
        List.prefix_append ..
  | ifThen test yes no | whileDo test body =>
      exact Result.next_after (test.eval_after trace) fun _ _ => List.prefix_rfl
  | ret value =>
      cases value with
      | none => exact List.prefix_rfl
      | some value =>
          exact Result.next_after (value.eval_after List.prefix_rfl) fun _ _ => List.prefix_rfl

namespace State

theorem run_succ (n : Nat) (s : State) : s.run env (n + 1) = (s.run env n).step env :=
  Function.iterate_succ_apply' _ n s

theorem run_add (m n : Nat) (s : State) : s.run env (m + n) = (s.run env n).run env m :=
  Function.iterate_add_apply _ m n s

theorem step_of_ne {s : State} (h : s.status ≠ .running) : s.step env = s := by
  unfold step
  split
  · next hs _ => exact absurd hs h
  · next hs _ => exact absurd hs h
  · rfl

theorem step_after (s : State) : s.trace <+: (s.step env).trace := by
  unfold step
  split
  · exact Stmt.exec_after ..
  · exact List.prefix_rfl
  · exact List.prefix_rfl

end State

end Steps

end Source

/-! ## Executions side by side -/

/-- What is seen in more and more steps, up to an end if there is one. -/
structure Unfolds (f : Nat → List Event × Status) : Prop where
  grows : ∀ n, (f n).1 <+: (f (n + 1)).1
  ends : ∀ n, (f n).2 ≠ .running → f (n + 1) = f n

namespace Unfolds

variable {f : Nat → List Event × Status}

theorem mono (h : Unfolds f) {m n : Nat} (hmn : m ≤ n) : (f m).1 <+: (f n).1 := by
  induction hmn with
  | refl => exact List.prefix_rfl
  | step _ ih => exact ih.trans (h.grows _)

theorem eq_of_le (h : Unfolds f) {m n : Nat} (hm : (f m).2 ≠ .running) (hmn : m ≤ n) :
    f n = f m := by
  induction hmn with
  | refl => rfl
  | step _ ih => rw [h.ends _ (by rwa [ih]), ih]

/-- There is only one end. -/
theorem eq_of_ended (h : Unfolds f) {m n : Nat} (hm : (f m).2 ≠ .running)
    (hn : (f n).2 ≠ .running) : f m = f n := by
  rcases Nat.le_total m n with hmn | hnm
  · exact (h.eq_of_le hm hmn).symm
  · exact h.eq_of_le hn hnm

end Unfolds

theorem Source.unfolds (env : Env) (s : Source.State) : Unfolds fun n => (s.run env n).seen where
  grows n := by
    rw [Source.State.run_succ]
    exact Source.State.step_after _
  ends n hn := by
    rw [Source.State.run_succ, Source.State.step_of_ne hn]

theorem Machine.Code.step_after (c : Code) (env : Env) (s : Machine.State) :
    s.trace <+: (c.step env s).trace := by
  unfold Code.step
  split
  · cases hnext : c.next? env s with
    | none => exact List.prefix_rfl
    | some t =>
        obtain ⟨v, rest, op, action, -, -, -, hperform⟩ := Code.next?_eq_some.1 hnext
        cases action with
        | next value events =>
            obtain rfl := Option.some.inj hperform
            exact List.prefix_append ..
        | goto target =>
            simp only [Code.perform?, Code.enter?] at hperform
            split at hperform
            · obtain rfl := Option.some.inj hperform
              exact List.prefix_rfl
            · cases hperform
        | finish value =>
            obtain rfl := Option.some.inj hperform
            exact List.prefix_rfl
        | stuck =>
            obtain rfl := Option.some.inj hperform
            exact List.prefix_rfl
  · exact List.prefix_rfl

theorem Machine.Code.unfolds (c : Code) (env : Env) (s : Machine.State) :
    Unfolds fun n => (c.run env n s).seen where
  grows n := by
    rw [Code.run_succ]
    exact c.step_after env _
  ends n hn := by
    rw [Code.run_succ, Code.step_of_ne hn]

/-- Two executions that come to the same ends and show the same until then. One
that never ends is like another that never does. -/
structure SameBehaviour (f g : Nat → List Event × Status) : Prop where
  ended : ∀ seen : List Event × Status, seen.2 ≠ .running →
    ((∃ n, f n = seen) ↔ ∃ n, g n = seen)
  prefixes : ∀ trace, (∃ n, trace <+: (f n).1) ↔ ∃ n, trace <+: (g n).1

/-- However far they have come, two executions meet later on, or have met at an
end. -/
def Rejoin (f g : Nat → List Event × Status) : Prop :=
  ∀ k, ∃ m n, f m = g n ∧ ((f m).2 = .running → k ≤ m ∧ k ≤ n)

section

variable {f g : Nat → List Event × Status} (h : Rejoin f g)
include h

theorem Rejoin.symm : Rejoin g f := by
  intro k
  obtain ⟨m, n, heq, hlate⟩ := h k
  exact ⟨n, m, heq.symm, fun hrun => (hlate (heq ▸ hrun)).symm⟩

theorem Rejoin.ended (hf : Unfolds f) {k : Nat} (hk : (f k).2 ≠ .running) : ∃ n, g n = f k := by
  obtain ⟨m, n, heq, hlate⟩ := h k
  refine ⟨n, heq.symm.trans ?_⟩
  by_cases hrun : (f m).2 = .running
  · exact hf.eq_of_le hk (hlate hrun).1
  · exact hf.eq_of_ended hrun hk

theorem Rejoin.reached (hf : Unfolds f) (k : Nat) : ∃ n, (f k).1 <+: (g n).1 := by
  obtain ⟨m, n, heq, hlate⟩ := h k
  refine ⟨n, heq ▸ ?_⟩
  rcases Nat.le_total k m with hkm | hmk
  · exact hf.mono hkm
  · by_cases hrun : (f m).2 = .running
    · exact hf.mono (hlate hrun).1
    · exact hf.eq_of_le hrun hmk ▸ List.prefix_rfl

end

theorem sameBehaviour_of_rejoin {f g : Nat → List Event × Status} (hf : Unfolds f) (hg : Unfolds g)
    (h : Rejoin f g) : SameBehaviour f g where
  ended seen hseen := by
    constructor
    · rintro ⟨n, rfl⟩
      exact h.ended hf hseen
    · rintro ⟨n, rfl⟩
      exact h.symm.ended hg hseen
  prefixes trace := by
    constructor
    · rintro ⟨k, hk⟩
      obtain ⟨n, hn⟩ := h.reached hf k
      exact ⟨n, hk.trans hn⟩
    · rintro ⟨k, hk⟩
      obtain ⟨n, hn⟩ := h.symm.reached hg k
      exact ⟨n, hk.trans hn⟩

end StructuredSsa
