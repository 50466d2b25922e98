import StructuredSsa.Proofs.Methods
import StructuredSsa.Proofs.Naming
import StructuredSsa.Proofs.Reading

/-!
# Why the construction gives up

Building a program ends early only for a reason that the syntax tree shows:
something required is missing, a variable is used that no declaration declares,
an array is used without indices, a call is used for a value it does not have,
or there is a function that may end without one. `Computation.Blames` lists the
reasons with the places they are reported for.

The errors that stand for broken expectations of the construction itself do not
come up (`buildTokens_error`), nor do faults, so that `buildTokens_settles` is
all that can come of a token sequence.
-/

namespace StructuredSsa

namespace Syntax

/-! ## Places to blame -/

/-- The places of a tree that building can give up at. -/
inductive Site where
  /-- Something required is missing, and this token was found. -/
  | gap (found : Token)
  /-- A variable is used, with indices or without. -/
  | variable (name : String) (line : Nat) (indexed : Bool)
  /-- A call is used as a value. -/
  | value (callee : String) (line : Nat)

/-- A name is a place, unless it is missing. -/
def Name.sites (place : String → Nat → List Site) : Name → List Site
  | .ident text pos => place text pos.line
  | .missing found => [.gap found]

/-- A required name that is nothing more. -/
def Name.gaps (x : Name) : List Site := x.sites fun _ _ => []

def Indices.isEmpty : Indices → Bool
  | .nil => true
  | .cons .. => false

mutual

def Expr.sites : Expr → List Site
  | .number .. => []
  | .designator x is => x.sites (fun x line => [.variable x line !is.isEmpty]) ++ is.sites
  | .group inner _ => inner.sites
  | .arith _ lhs rhs _ => lhs.sites ++ rhs.sites
  | .call callee args _ => callee.sites (fun x line => [.value x line]) ++ args.sites
  | .missing found => [.gap found]

def Indices.sites : Indices → List Site
  | .nil => []
  | .cons index _ rest => index.sites ++ rest.sites

def Arguments.sites : Arguments → List Site
  | .nil => []
  | .cons argument rest => argument.sites ++ rest.sites

end

def Relation.sites : Relation → List Site
  | .compare lhs _ _ rhs => lhs.sites ++ rhs.sites
  | .noOperator lhs found => lhs.sites ++ [.gap found]

mutual

def Stmt.sites : Stmt → List Site
  | .assign x is _ value =>
      x.sites (fun x line => [.variable x line !is.isEmpty]) ++ is.sites ++ value.sites
  | .call callee args _ => callee.gaps ++ args.sites
  | .ifThen _ condition _ yes _ no _ _ => condition.sites ++ yes.sites ++ no.sites
  | .whileDo _ condition _ body _ _ => condition.sites ++ body.sites
  | .ret _ none => []
  | .ret _ (some value) => value.sites
  | .unknown _ => []

def Sequence.sites : Sequence → List Site
  | .nil => []
  | .cons _ _ t rest => t.sites ++ rest.sites

end

def Dimension.sites : Dimension → List Site
  | .sized .. => []
  | .missing _ found => [.gap found]

def TypeDecl.sites : TypeDecl → List Site
  | .scalar => []
  | .array dims => dims.flatMap Dimension.sites

def VarDecl.sites (d : VarDecl) : List Site := d.type.sites ++ d.names.flatMap Name.gaps

def MethodDecl.sites (d : MethodDecl) : List Site :=
  d.name.gaps ++ d.parameters.flatMap Name.gaps ++ d.varDecls.flatMap VarDecl.sites
    ++ d.body.statements.sites

def Computation.sites (t : Computation) : List Site :=
  t.varDecls.flatMap VarDecl.sites ++ t.methods.flatMap MethodDecl.sites ++ t.body.statements.sites

/-! ## Names that are declared -/

/-- The name that is there, if it is. -/
def Name.texts : Name → List String
  | .ident text _ => [text]
  | .missing _ => []

/-- The names that a declaration declares. -/
def VarDecl.declared (d : VarDecl) : List String := d.names.flatMap Name.texts

/-- The names that a declaration declares as arrays. -/
def VarDecl.arrays (d : VarDecl) : List String := if d.type = .scalar then [] else d.declared

/-- The name that is declared as one of a function. -/
def MethodDecl.functions (d : MethodDecl) : List String :=
  if d.isFunction then d.name.texts else []

/-- Names by what is declared of them. -/
structure Glossary where
  globals : List String
  arrays : List String
  functions : List String

def Computation.glossary (t : Computation) : Glossary :=
  { globals := t.varDecls.flatMap VarDecl.declared
    arrays := t.allVarDecls.flatMap VarDecl.arrays
    functions := t.methods.flatMap MethodDecl.functions }

/-- An error is about one of the places, and what it says of it is true. -/
def Glossary.Justifies (g : Glossary) (sites : List Site) : Error → Prop
  | .unexpectedToken _ got line =>
      ∃ found, .gap found ∈ sites ∧ got = found.kind.text ∧ line = found.pos.line
  | .undefinedVariable x line => (∃ indexed, .variable x line indexed ∈ sites) ∧ x ∉ g.globals
  | .invalidDesignator x line reason =>
      .variable x line false ∈ sites ∧ x ∈ g.arrays ∧ reason = "array used without indices"
  | .voidValue callee line => .value callee line ∈ sites ∧ callee ≠ "InputNum"
  | .missingReturnValue f => f ∈ g.functions
  | _ => False

/-- The reasons that a computation gives for giving up. -/
def Computation.Blames (t : Computation) (e : Error) : Prop := t.glossary.Justifies t.sites e

theorem Glossary.Justifies.mono {g : Glossary} {sites sites' : List Site} (h : sites ⊆ sites')
    {e : Error} (he : g.Justifies sites e) : g.Justifies sites' e := by
  unfold Glossary.Justifies at he ⊢
  split at he
  · obtain ⟨found, hfound, hrest⟩ := he
    exact ⟨found, h hfound, hrest⟩
  · obtain ⟨⟨indexed, hx⟩, hrest⟩ := he
    exact ⟨⟨indexed, h hx⟩, hrest⟩
  · exact ⟨h he.1, he.2⟩
  · exact ⟨h he.1, he.2⟩
  · exact he
  · exact he

end Syntax

namespace Build

open Syntax

/-- The names are as a glossary says; of the globals, `xs` are declared yet. -/
structure Named (xs : List String) (g : Glossary) (n : Names) : Prop where
  globals : ∀ x ∈ xs, n.globals.contains x = true
  shapes : ∀ scope, scope = n.globals ∨ scope ∈ n.methods.map (·.symbols) → ∀ d ∈ scope.symbols,
    ∀ sizes, d.shape = .array sizes → sizes ≠ [] ∧ d.name ∈ g.arrays
  functions : ∀ m ∈ n.methods, m.kind = .function → m.name ∈ g.functions

/-- An error of source text, for a reason. -/
def Reasoned (g : Glossary) (sites : List Site) (e : Error) : Prop :=
  Expected e → g.Justifies sites e

theorem Reasoned.mono {g : Glossary} {sites sites' : List Site} (h : sites ⊆ sites') {e : Error}
    (he : Reasoned g sites e) : Reasoned g sites' e := fun hx => (he hx).mono h

/-- A step that keeps what is known of the names, and gives up for a reason. -/
def Sincere {α : Type} (P : Names → Prop) (g : Glossary) (sites : List Site) (x : BuildM α)
    (F : α → Prop) : Prop :=
  Honest (Reasoned g sites) P x fun a n => P n ∧ F a

section Sincere

variable {α β : Type} {P : Names → Prop} {xs : List String} {g : Glossary}
  {sites sites' : List Site}

namespace Sincere

variable {F : α → Prop}

theorem pure {a : α} (h : F a) : Sincere P g sites (Pure.pure a) F := Honest.pure fun _ hn => ⟨hn, h⟩

theorem bind {x : BuildM α} {f : α → BuildM β} {G : β → Prop} (hx : Sincere P g sites x F)
    (hf : ∀ a, F a → Sincere P g sites (f a) G) : Sincere P g sites (x >>= f) G :=
  Honest.bind hx fun a => .assume (hf a)

theorem mono {x : BuildM α} {F' : α → Prop} (h : Sincere P g sites x F) (hsub : sites ⊆ sites')
    (hF : ∀ a, F a → F' a) : Sincere P g sites' x F' :=
  Honest.mono h (fun _ he => he.mono hsub) (fun _ hn => hn) fun a _ hn => ⟨hn.1, hF a hn.2⟩

theorem fail {e : Error} (h : Reasoned g sites e) : Sincere P g sites (fail e) F := Honest.fail h

theorem forM {f : α → BuildM Unit} : ∀ {l : List α},
    (∀ a ∈ l, Sincere P g sites (f a) fun _ => True) → Sincere P g sites (l.forM f) fun _ => True
  | [], _ => .pure trivial
  | a :: l, h => .bind (h a (by simp)) fun _ _ => forM fun b hb => h b (by simp [hb])

end Sincere

theorem Calm.sincere {x : BuildM α} (h : Calm x) : Sincere P g sites x fun _ => True :=
  Honest.mono h.honest (fun _ he => he) (fun _ hn => hn) fun _ _ hn => ⟨hn, trivial⟩

/-- The first step declares nothing and never gives up. -/
theorem Calm.then {x : BuildM α} {f : α → BuildM β} {F : β → Prop} (hx : Calm x)
    (hf : ∀ a, Sincere P g sites (f a) F) : Sincere P g sites (x >>= f) F :=
  .bind hx.sincere fun a _ => hf a

/-! ## Single steps -/

theorem name_sincere {place : String → Nat → List Site} (what : String) {x : Name}
    (h : x.sites place ⊆ sites) :
    Sincere P g sites (name what x) fun r =>
      place r.1 r.2.line ⊆ sites ∧ r.1 ∈ x.texts := by
  cases x with
  | ident text pos => exact .pure ⟨h, List.mem_singleton_self _⟩
  | missing found => exact .fail fun _ => ⟨found, h (by simp [Name.sites]), rfl, rfl⟩

theorem get_sincere : Sincere P g sites get fun s => P s.names := fun _ hs => ⟨hs, hs⟩

/-- What a name denotes that is declared as `d`. -/
def Denotes (g : Glossary) (x : String) (shape : Shape) : Prop :=
  ∀ sizes, shape = .array sizes → sizes ≠ [] ∧ x ∈ g.arrays

theorem Named.denotes {n : Names} (h : Named xs g n) {scope : Scope}
    (hscope : scope = n.globals ∨ scope ∈ n.methods.map (·.symbols)) {x : String} {d : Symbol}
    (hd : scope.find? x = some d) : Denotes g x d.shape := by
  intro sizes hsizes
  have hname : d.name = x := by simpa using List.find?_some hd
  rw [← hname]
  exact h.shapes scope hscope d (List.mem_of_find?_eq_some hd) sizes hsizes

theorem method_sincere :
    Sincere (Named xs g) g sites method fun r => ∃ n, Named xs g n ∧ r.header ∈ n.methods :=
  method_honest.mono (fun _ he => he) (fun _ hn => hn) fun _ n hn =>
    ⟨hn.1, n, hn.1, List.mem_of_getElem? hn.2⟩

theorem resolve_sincere (x : String) (line : Nat) (h : ∃ indexed, .variable x line indexed ∈ sites) :
    Sincere (Named g.globals g) g sites (resolve x line) fun r => Denotes g x r.1 := by
  have hundefined {s : Builder} (hs : Named g.globals g s.names) (hnone : s.program.globals.find? x = none) :
      Reasoned g sites (.undefinedVariable x line) := by
    refine fun _ => ⟨h, fun hx => ?_⟩
    have := hs.globals x hx
    simp [Scope.contains, Builder.names, hnone] at this
  refine .bind method_sincere fun r hr => .bind get_sincere fun s hs => ?_
  obtain ⟨n, hn, hr⟩ := hr
  have hlocal {d : Symbol} (hd : r.symbols.find? x = some d) : Denotes g x d.shape :=
    hn.denotes (Or.inr (List.mem_map.2 ⟨_, hr, rfl⟩)) hd
  have hglobal {d : Symbol} (hd : s.program.globals.find? x = some d) : Denotes g x d.shape :=
    hs.denotes (Or.inl rfl) hd
  dsimp only
  split
  · split
    · next hd => exact .pure (hglobal hd)
    · next hd => exact .fail (hundefined hs hd)
  · split
    · next hd => exact .pure (hlocal hd)
    · next hd => exact .pure (hglobal hd)
    · next hd => exact .fail (hundefined hs hd)

/-! ## Calls and elements -/

theorem callNamed_sincere (callee : String) (pos : Pos) (args : List ValueId) :
    Sincere (Named g.globals g) g sites (callNamed callee pos args) fun r =>
      r = none → callee ≠ "InputNum" := by
  unfold callNamed
  split
  · exact (calm.checkArguments ..).then fun _ => (calm.emit ..).then fun _ => .pure nofun
  · next hne =>
      split
      · refine (calm.checkArguments ..).then fun _ => ?_
        split
        · exact (calm.emit ..).then fun _ => .pure fun _ => hne
        · exact .pure fun _ => hne
      · split
        · exact (calm.checkArguments ..).then fun _ => (calm.emit ..).then fun _ =>
            .pure fun _ => hne
        · exact Sincere.mono (calm.callMethod ..).sincere (fun _ h => h) fun _ _ _ => hne

/-- The address of an element of an array that has sizes. -/
theorem addressOf_sincere {x : String} {pos : Pos} {shape : Shape} {is : List ValueId}
    (hx : Denotes g x shape) (harray : shape ≠ .scalar)
    (h : is = [] → .variable x pos.line false ∈ sites) :
    Sincere (Named g.globals g) g sites (addressOf x pos shape is) fun _ => True := by
  cases shape with
  | scalar => exact absurd rfl harray
  | array sizes =>
      obtain ⟨hsizes, hname⟩ := hx sizes rfl
      obtain ⟨size, deeper, rfl⟩ := List.exists_cons_of_ne_nil hsizes
      unfold addressOf
      cases is with
      | nil => exact .bind (F := fun _ => False) (.fail fun _ => ⟨h rfl, hname, rfl⟩) fun _ hf => hf.elim
      | cons i is =>
          have haddress : Calm (elementAddress x pos
              ((i :: is).zip (Shape.stridesOf (size :: deeper)))) := by
            cases deeper <;> exact calm.elementAddress ..
          dsimp only
          rw [if_neg (by simp)]
          split
          · exact (Calm.report ..).then fun _ => haddress.sincere
          · exact haddress.sincere

theorem readDesignator_sincere {x : String} {pos : Pos} {shape : Shape} {storage : Storage}
    {is : List ValueId} (hx : Denotes g x shape) (h : is = [] → .variable x pos.line false ∈ sites) :
    Sincere (Named g.globals g) g sites (readDesignator x pos shape storage is) fun _ => True := by
  unfold readDesignator
  split
  · refine (calm.checkScalar x pos is).then fun _ => ?_
    split
    · refine calm.cursor.then fun c => ?_
      split
      · exact .pure trivial
      · exact .fail fun he => he.elim
    · exact (calm.emit ..).sincere
  · exact .bind (addressOf_sincere hx (by simp) h) fun _ _ => (calm.emit ..).sincere

theorem writeDesignator_sincere {x : String} {pos : Pos} {shape : Shape} {storage : Storage}
    {is : List ValueId} (v : ValueId) (hx : Denotes g x shape)
    (h : is = [] → .variable x pos.line false ∈ sites) :
    Sincere (Named g.globals g) g sites (writeDesignator x pos shape storage is v) fun _ => True := by
  unfold writeDesignator
  split
  · refine (calm.checkScalar x pos is).then fun _ => ?_
    split
    · exact (Calm.bindName ..).sincere
    · exact (calm.emit ..).then fun _ => .pure trivial
  · exact .bind (addressOf_sincere hx (by simp) h) fun _ _ => (calm.emit ..).then fun _ => .pure trivial

/-! ## Expressions -/

mutual

theorem expr_sincere : ∀ e : Expr, e.sites ⊆ sites →
    Sincere (Named g.globals g) g sites (expr e) fun _ => True
  | .number n line, _ => by
      unfold expr
      exact (calm.emit ..).sincere
  | .designator x is, h => by
      rw [Expr.sites, List.append_subset] at h
      unfold expr
      refine .bind (name_sincere _ h.1) fun r hr => ?_
      have hsite := hr.1 (List.mem_singleton_self _)
      refine .bind (resolve_sincere r.1 r.2.line ⟨_, hsite⟩) fun d hd => ?_
      refine .bind (indices_sincere is h.2) fun vs hvs => readDesignator_sincere hd fun hnil => ?_
      simpa [hvs hnil] using hsite
  | .group inner close, h => by
      rw [Expr.sites] at h
      unfold expr
      exact .bind (expr_sincere inner h) fun _ _ => (Calm.require ..).then fun _ => .pure trivial
  | .arith op lhs rhs line, h => by
      rw [Expr.sites, List.append_subset] at h
      unfold expr
      exact .bind (expr_sincere lhs h.1) fun _ _ => .bind (expr_sincere rhs h.2) fun _ _ =>
        (calm.emit ..).sincere
  | .call callee args close, h => by
      rw [Expr.sites, List.append_subset] at h
      unfold expr
      refine .bind (name_sincere _ h.1) fun r hr => .bind (arguments_sincere args h.2) fun vs _ => ?_
      refine (Calm.require ..).then fun _ => .bind (callNamed_sincere _ _ _) fun v hv => ?_
      cases v with
      | some v => exact .pure trivial
      | none => exact .fail fun _ => ⟨hr.1 (List.mem_singleton_self _), hv rfl⟩
  | .missing found, h => by
      unfold expr
      exact .fail fun _ => ⟨found, h (by simp [Expr.sites]), rfl, rfl⟩

theorem indices_sincere : ∀ is : Indices, is.sites ⊆ sites →
    Sincere (Named g.globals g) g sites (indices is) fun vs => vs = [] → is.isEmpty = true
  | .nil, _ => by
      unfold indices
      exact .pure fun _ => rfl
  | .cons index close rest, h => by
      rw [Indices.sites, List.append_subset] at h
      unfold indices
      exact .bind (expr_sincere index h.1) fun _ _ => (Calm.require ..).then fun _ =>
        .bind (indices_sincere rest h.2) fun _ _ => .pure nofun

theorem arguments_sincere : ∀ args : Arguments, args.sites ⊆ sites →
    Sincere (Named g.globals g) g sites (arguments args) fun _ => True
  | .nil, _ => by
      unfold arguments
      exact .pure trivial
  | .cons argument rest, h => by
      rw [Arguments.sites, List.append_subset] at h
      unfold arguments
      exact .bind (expr_sincere argument h.1) fun _ _ => .bind (arguments_sincere rest h.2)
        fun _ _ => .pure trivial

end

theorem relation_sincere : ∀ r : Relation, r.sites ⊆ sites →
    Sincere (Named g.globals g) g sites (relation r) fun _ => True
  | .compare lhs op line rhs, h => by
      rw [Relation.sites, List.append_subset] at h
      exact .bind (expr_sincere lhs h.1) fun _ _ => .bind (expr_sincere rhs h.2) fun _ _ =>
        (calm.emit ..).sincere
  | .noOperator lhs found, h => by
      rw [Relation.sites, List.append_subset] at h
      exact .bind (expr_sincere lhs h.1) fun _ _ =>
        .fail fun _ => ⟨found, h.2 (List.mem_singleton_self _), rfl, rfl⟩

/-! ## Statements -/

theorem moveTo_sincere (c : Cursor) : Sincere (Named xs g) g sites (moveTo c) fun _ => True :=
  fun _ hs => ⟨⟨hs.globals, hs.shapes, hs.functions⟩, trivial⟩

theorem sincere_steps :
    Roving fun x => Sincere (Named g.globals g) g sites x fun _ => True where
  toOrdinary := calm.mono Calm.sincere fun hx hf => .bind hx fun a _ => hf a
  moveTo := moveTo_sincere
  internal _ := .fail fun he => he.elim

mutual

theorem stmt_sincere : ∀ t : Stmt, t.sites ⊆ sites →
    Sincere (Named g.globals g) g sites (stmt t) fun _ => True
  | .assign x is arrow value, h => by
      rw [Stmt.sites, List.append_subset, List.append_subset] at h
      unfold stmt
      refine .bind (name_sincere _ h.1.1) fun r hr => ?_
      have hsite := hr.1 (List.mem_singleton_self _)
      refine .bind (resolve_sincere r.1 r.2.line ⟨_, hsite⟩) fun d hd => ?_
      refine .bind (indices_sincere is h.1.2) fun vs hvs => (Calm.require ..).then fun _ => ?_
      refine .bind (expr_sincere value h.2) fun v _ => writeDesignator_sincere v hd fun hnil => ?_
      simpa [hvs hnil] using hsite
  | .call callee args close, h => by
      rw [Stmt.sites, List.append_subset] at h
      unfold stmt
      refine .bind (name_sincere _ h.1) fun r _ => .bind (arguments_sincere args h.2) fun vs _ => ?_
      exact (Calm.require ..).then fun _ => .bind (callNamed_sincere _ _ _) fun _ _ => .pure trivial
  | .ifThen line condition thenMark yes thenLine no endLine fi, h => by
      rw [Stmt.sites, List.append_subset, List.append_subset] at h
      unfold stmt
      refine .bind (relation_sincere condition h.1.1) fun v _ => (Calm.require ..).then fun _ => ?_
      refine (calm.branchOff ..).then fun ab => (calm.newBlock _).then fun join => ?_
      refine calm.cursor.then fun c => .bind (moveTo_sincere _) fun _ _ => ?_
      refine .bind (sequence_sincere _ yes h.1.2) fun _ _ => (calm.departTo ..).then fun left => ?_
      refine .bind (moveTo_sincere _) fun _ _ => .bind (sequence_sincere _ no h.2) fun _ _ => ?_
      exact (Calm.require ..).then fun _ => (calm.departTo ..).then fun _ =>
        sincere_steps.enterJoin _ _ _ _ _
  | .whileDo line condition doMark body endLine od, h => by
      rw [Stmt.sites, List.append_subset] at h
      unfold stmt
      refine .bind (sincere_steps.enterLoop line) fun header _ => ?_
      refine .bind (relation_sincere condition h.1) fun v _ => (Calm.require ..).then fun _ => ?_
      refine (calm.branchOff ..).then fun ab => calm.cursor.then fun c => ?_
      refine .bind (moveTo_sincere _) fun _ _ => .bind (sequence_sincere _ body h.2) fun _ _ => ?_
      exact (Calm.require ..).then fun _ => (calm.departTo ..).then fun _ => moveTo_sincere _
  | .ret pos none, _ => by
      unfold stmt
      exact sincere_steps.leave pos none
  | .ret pos (some value), h => by
      rw [Stmt.sites] at h
      unfold stmt
      exact .bind (expr_sincere value h) fun v _ => sincere_steps.leave pos (some v)
  | .unknown found, _ => by
      unfold stmt
      exact (Calm.report ..).sincere

theorem sequence_sincere (watch : Bool) : ∀ ts : Sequence, ts.sites ⊆ sites →
    Sincere (Named g.globals g) g sites (sequence watch ts) fun _ => True
  | .nil, _ => by
      unfold sequence
      exact .pure trivial
  | .cons separated first t rest, h => by
      rw [Sequence.sites, List.append_subset] at h
      have hrest (watch : Bool) :
          Sincere (Named g.globals g) g sites (do stmt t; sequence watch rest) fun _ => True :=
        .bind (stmt_sincere t h.1) fun _ _ => sequence_sincere watch rest h.2
      have hstep : Sincere (Named g.globals g) g sites (do
          let c ← cursor
          if watch && !c.reachable then report first.pos .unreachableStatement
          stmt t
          sequence (watch && !(watch && !c.reachable)) rest) fun _ => True := by
        refine calm.cursor.then fun c => ?_
        dsimp only
        split
        · exact (Calm.report ..).then fun _ => hrest _
        · exact hrest _
      unfold sequence
      dsimp only
      split
      · exact (Calm.report ..).then fun _ => hstep
      · exact hstep

end

/-! ## Declarations -/

theorem Named.declareGlobal {n : Names} (h : Named xs g n) {d : Symbol}
    (hd : Denotes g d.name d.shape) : Named xs g { n with globals := n.globals.declare d } := by
  refine ⟨fun x hx => ?_, fun scope hscope e he sizes hsizes => ?_, h.functions⟩
  · rw [Scope.contains_declare, h.globals x hx, Bool.true_or]
  · rcases hscope with rfl | hscope
    · rcases Scope.mem_declare he with he | rfl
      · exact h.shapes _ (Or.inl rfl) e he sizes hsizes
      · exact hd sizes hsizes
    · exact h.shapes scope (Or.inr hscope) e he sizes hsizes

theorem Named.declareLocal {n : Names} (h : Named xs g n) {d : Symbol} (i : Nat)
    (hd : Denotes g d.name d.shape) : Named xs g { n with
      methods := n.methods.modify i fun m => { m with symbols := m.symbols.declare d } } := by
  have hold {m : Header} (hm : m ∈ n.methods.modify i fun m =>
      { m with symbols := m.symbols.declare d }) : ∃ r ∈ n.methods, m.name = r.name
        ∧ m.kind = r.kind ∧ (m.symbols = r.symbols ∨ m.symbols = r.symbols.declare d) := by
    obtain ⟨j, hj⟩ := List.mem_iff_getElem?.1 hm
    rw [List.getElem?_modify] at hj
    obtain ⟨r, hr, hm⟩ := Option.map_eq_some_iff.1 hj
    refine ⟨r, List.mem_iff_getElem?.2 ⟨j, hr⟩, ?_⟩
    split at hm
    · exact hm ▸ ⟨rfl, rfl, Or.inr rfl⟩
    · exact hm ▸ ⟨rfl, rfl, Or.inl rfl⟩
  refine ⟨h.globals, fun scope hscope e he sizes hsizes => ?_, fun m hm hkind => ?_⟩
  · rcases hscope with rfl | hscope
    · exact h.shapes _ (Or.inl rfl) e he sizes hsizes
    · obtain ⟨m, hm, rfl⟩ := List.mem_map.1 hscope
      obtain ⟨r, hr, -, -, hsymbols⟩ := hold hm
      have hr : r.symbols ∈ n.methods.map (·.symbols) := List.mem_map.2 ⟨r, hr, rfl⟩
      rcases hsymbols with hsymbols | hsymbols <;> rw [hsymbols] at he
      · exact h.shapes _ (Or.inr hr) e he sizes hsizes
      · rcases Scope.mem_declare he with he | rfl
        · exact h.shapes _ (Or.inr hr) e he sizes hsizes
        · exact hd sizes hsizes
  · obtain ⟨r, hr, hname, hkind', -⟩ := hold hm
    rw [hname]
    exact h.functions r hr (hkind' ▸ hkind)

/-- A change of what is declared. -/
theorem edit_sincere {f : Program → Program} (h : ∀ s : Builder, Named xs g s.names →
    Named xs g (Builder.names { s with program := f s.program })) :
    Sincere (Named xs g) g sites (edit fun p => .ok (f p)) fun _ => True :=
  fun s hs => ⟨h s hs, trivial⟩

theorem names_modifyMethod (s : Builder) (m : MethodId) (f : Method → Method) (k : Header → Header)
    (h : ∀ r, (f r).header = k r.header) :
    Builder.names { s with program := s.program.modifyMethod m f }
      = { s.names with methods := s.names.methods.modify m.index k } := by
  show Names.mk _ _ _ = Names.mk _ _ _
  rw [Program.headers_modifyMethod _ m f k h]
  rfl

theorem declareLocal_sincere (m : MethodId) {d : Symbol} (hd : Denotes g d.name d.shape)
    {f : Method → Method}
    (hf : ∀ r, (f r).header = { r.header with symbols := r.symbols.declare d }) :
    Sincere (Named xs g) g sites (edit fun p => .ok (p.modifyMethod m f)) fun _ => True := by
  refine edit_sincere fun s hs => ?_
  rw [names_modifyMethod s m f (fun r => { r with symbols := r.symbols.declare d }) hf]
  exact hs.declareLocal _ hd

theorem declareName_sincere {d : Symbol} (hd : Denotes g d.name d.shape) :
    Sincere (Named xs g) g sites (declareName d) fun _ => True := by
  refine calm.cursor.then fun c => calm.method.then fun m => ?_
  split
  · refine Calm.get.then fun _ => .bind (edit_sincere fun s hs => hs.declareGlobal hd) fun _ _ => ?_
    exact .pure trivial
  · exact .bind (declareLocal_sincere _ hd fun _ => rfl) fun _ _ => .pure trivial

theorem declare_sincere {shape : Shape} {x : String} (pos : Pos) (h : Denotes g x shape) :
    Sincere (Named xs g) g sites (declare shape x pos) fun _ => True := by
  refine .bind (declareName_sincere h) fun new _ => ?_
  split
  · split
    · exact (calm.emit ..).then fun _ => (Calm.bindName ..).sincere
    · exact (calm.emit ..).then fun _ => .pure trivial
  · exact (Calm.report ..).sincere

theorem declareParameter_sincere (x : String) (pos : Pos) :
    Sincere (Named xs g) g sites (declareParameter x pos) fun _ => True := by
  refine calm.cursor.then fun c => calm.method.then fun m => ?_
  refine .bind (declareLocal_sincere (d := ⟨x, .scalar, true, pos.line⟩) _ nofun fun _ => rfl)
    fun _ _ => ?_
  split
  · exact (Calm.report ..).sincere
  · exact (calm.emit ..).then fun _ =>
      (Calm.edit fun _ _ => Program.sameNames_addParameter).then fun _ => (Calm.bindName ..).sincere

theorem sizes_sincere : ∀ dims : List Dimension, dims.flatMap Dimension.sites ⊆ sites →
    Sincere P g sites (sizes dims) fun ns => ns = [] → dims = []
  | [], _ => .pure fun _ => rfl
  | .sized opening n pos close :: rest, h => by
      have hrest : Sincere P g sites (do
          require (.punct .rbracket) close
          return n :: (← sizes rest)) fun ns => ns = [] → .sized opening n pos close :: rest = [] :=
        (Calm.require ..).then fun _ =>
          .bind (sizes_sincere rest fun _ hx => h (by simpa [Dimension.sites] using hx))
            fun _ _ => .pure nofun
      unfold sizes
      refine (Calm.require ..).then fun _ => ?_
      split
      · exact (Calm.report ..).then fun _ => hrest
      · exact hrest
  | .missing opening found :: rest, h => by
      unfold sizes
      exact (Calm.require ..).then fun _ =>
        .fail fun _ => ⟨found, h (by simp [Dimension.sites]), rfl, rfl⟩

theorem shape_sincere {t : TypeDecl} (h : t.sites ⊆ sites) (hsized : t ≠ .array []) :
    Sincere P g sites (shape t) fun s => s ≠ .array [] ∧ (t = .scalar → s = .scalar) := by
  cases t with
  | scalar => exact .pure ⟨by simp, fun _ => rfl⟩
  | array dims =>
      refine .bind (sizes_sincere dims h) fun ns hns => .pure ⟨fun hnil => ?_, nofun⟩
      exact hsized (by rw [hns (Shape.array.inj hnil)])

theorem varDecl_sincere {d : VarDecl} (h : d.sites ⊆ sites) (hsized : d.Sized)
    (harrays : d.arrays ⊆ g.arrays) : Sincere (Named xs g) g sites (varDecl d) fun _ => True := by
  rw [VarDecl.sites, List.append_subset] at h
  refine .bind (shape_sincere h.1 hsized) fun s hs => .bind (.forM fun x hx => ?_) fun _ _ =>
    (Calm.require ..).sincere
  refine .bind (name_sincere (x := x) _ fun y hy => h.2 (List.mem_flatMap.2 ⟨x, hx, hy⟩))
    fun r hr => declare_sincere _ fun sizes hsizes => ⟨fun hnil => hs.1 (hnil ▸ hsizes), harrays ?_⟩
  have htype : d.type ≠ .scalar := fun ht => by simp [hs.2 ht] at hsizes
  rw [VarDecl.arrays, if_neg htype]
  exact List.mem_flatMap.2 ⟨x, hx, hr.2⟩

/-! ## Names of the computation -/

/-- The method under construction is the body of the computation, and `xs` are
declared. -/
structure Declaring (xs : List String) (n : Names) : Prop where
  main : ∃ h, n.methods[n.current.index]? = some h ∧ h.kind = .main
  globals : ∀ x ∈ xs, n.globals.contains x = true

/-- What is true of the names at the start is true of them at the end. -/
theorem Honest.and {x : BuildM α} {E E' : Error → Prop} {P P' : Names → Prop}
    {Q Q' : α → Names → Prop} (h : Honest E P x Q) (h' : Honest E' P' x Q') :
    Honest E (fun n => P n ∧ P' n) x fun a n => Q a n ∧ Q' a n := by
  intro s hs
  have h := h s hs.1
  have h' := h' s hs.2
  split at h
  · next hx =>
      rw [hx] at h'
      exact ⟨h, h'⟩
  · exact h
  · trivial

/-- A name declared in the body of the computation is global. -/
theorem declareName_declaring (d : Symbol) : Honest (fun _ => True) (Declaring xs) (declareName d)
    fun _ => Declaring (d.name :: xs) := by
  refine .bind calm.cursor.honest fun c => .bind method_honest fun r => ?_
  split
  · refine .bind Calm.get.honest fun _ => .bind (Q := fun _ => Declaring (d.name :: xs)) ?_ fun _ =>
      .pure fun _ hn => hn
    rintro s ⟨hs, -⟩
    refine ⟨hs.main, fun x hx => ?_⟩
    show (s.program.globals.declare d).contains x = true
    rw [Scope.contains_declare]
    rcases List.mem_cons.1 hx with rfl | hx
    · simp
    · have hx : s.program.globals.contains x = true := hs.globals x hx
      rw [hx, Bool.true_or]
  · next hkind =>
      rintro s ⟨hs, hr⟩
      obtain ⟨h, hh, hmain⟩ := hs.main
      rw [hr] at hh
      exact absurd (by rw [← hmain, ← Option.some.inj hh]; rfl) hkind

theorem declare_declaring (shape : Shape) (x : String) (pos : Pos) :
    Honest (fun _ => True) (Declaring xs) (declare shape x pos) fun _ => Declaring (x :: xs) := by
  refine .bind (declareName_declaring ⟨x, shape, false, pos.line⟩) fun new => ?_
  split
  · split
    · exact .bind (calm.emit ..).honest fun _ => (Calm.bindName ..).honest
    · exact .bind (calm.emit ..).honest fun _ => .pure fun _ hn => hn
  · exact (Calm.report ..).honest

theorem Declaring.mono {ys : List String} {n : Names} (h : Declaring xs n) (hsub : ys ⊆ xs) :
    Declaring ys n :=
  ⟨h.main, fun x hx => h.globals x (hsub hx)⟩

/-- One thing after another, each adding to what is declared. -/
theorem forM_declaring {f : α → BuildM Unit} {names : α → List String} : ∀ {l : List α}
    (_ : ∀ a ∈ l, ∀ xs, Honest (fun _ => True) (Declaring xs) (f a) fun _ => Declaring (names a ++ xs))
    {xs : List String}, Honest (fun _ => True) (Declaring xs) (l.forM f)
      fun _ => Declaring (l.flatMap names ++ xs)
  | [], _, _ => .pure fun _ hn => hn
  | a :: l, h, xs => by
      refine .bind (h a (by simp) xs) fun _ => ?_
      refine (forM_declaring (l := l) fun b hb => h b (by simp [hb])).mono (fun _ he => he)
        (fun _ hn => hn) fun _ n hn => hn.mono fun x hx => ?_
      simp only [List.flatMap_cons, List.mem_append] at hx ⊢
      tauto

theorem varDecl_declaring {d : VarDecl} (hsized : d.Sized) (xs : List String) :
    Honest (fun _ => True) (Declaring xs) (varDecl d) fun _ => Declaring (d.declared ++ xs) := by
  have hshape : Sincere (Declaring xs) ⟨[], [], []⟩ d.type.sites (shape d.type) fun _ => True :=
    .mono (shape_sincere (fun _ h => h) hsized) (fun _ h => h) fun _ _ => trivial
  refine .bind (Honest.mono hshape (fun _ _ => trivial) (fun _ hn => hn) fun _ _ hn => hn.1)
    fun s => ?_
  refine .bind (forM_declaring fun x _ ys => ?_) fun _ => (Calm.require ..).honest
  cases x with
  | missing found => exact .bind (Q := fun _ _ => False) (.fail trivial) fun _ _ h => h.elim
  | ident text pos => exact declare_declaring s text pos

/-! ## Bodies -/

theorem openBody_sincere (line : Nat) : Sincere (Named xs g) g sites (openBody line) fun _ => True := by
  refine calm.cursor.then fun c => (calm.newBlock _).then fun _ => (calm.departTo ..).then fun _ => ?_
  refine (calm.beginBlock ..).then fun _ => (calm.newBlock _).then fun _ => ?_
  exact (Calm.edit fun _ _ => Program.sameNames_setExit).then fun _ => moveTo_sincere _

theorem incoming_sincere (x : String) : ∀ preds : List BlockId,
    Sincere P g sites (incoming x preds) fun _ => True
  | [] => .pure trivial
  | b :: rest => by
      refine Calm.get.then fun s => ?_
      split
      · exact .bind (incoming_sincere x rest) fun _ _ => .pure trivial
      · exact .fail fun he => he.elim

theorem resolveBlock_sincere (b : BlockId) : Sincere P g sites (resolveBlock b) fun _ => True := by
  refine (Calm.look _).then fun r => .forM fun phi _ => (Calm.look _).then fun i => ?_
  split
  · exact .bind (incoming_sincere _ _) fun _ _ =>
      (Calm.edit fun _ _ => Program.sameNames_updatePhi).sincere
  · exact .pure trivial

theorem returnValue_sincere {m : Method} (hm : m.name ∈ g.functions) (exit : BlockId)
    (preds : List BlockId) (ends : List Bindings) (line : Nat) :
    Sincere P g sites (returnValue m exit preds ends line) fun _ => True := by
  unfold returnValue
  split
  · exact .fail fun _ => hm
  · exact .fail fun _ => hm
  · split
    · exact .pure trivial
    · exact (Calm.editWith fun _ _ _ => Program.sameNames_addPhi).sincere

theorem bind_eq_error {ε γ δ : Type} {x : Except ε γ} {f : γ → Except ε δ} {e : ε}
    (h : (x >>= f) = .error e) : x = .error e ∨ ∃ a, f a = .error e := by
  cases x with
  | error e' =>
      cases h
      exact Or.inl rfl
  | ok a => exact Or.inr ⟨a, h⟩

/-- The search for a dominator gives up with no error of source text. -/
theorem nearestDominator_error {p : Program} {m : MethodId} {bs : List BlockId} {e : Error}
    (h : p.nearestDominator m bs = .error (.error e)) :
    ∃ method reason, e = .noCommonDominator method reason := by
  have hlift {γ : Type} {x : Except Fault γ} : Stop.lift x ≠ .error (.error e) := by
    cases x <;> nofun
  obtain ⟨r, h⟩ := (bind_eq_error h).resolve_left hlift
  split at h
  · cases h
    exact ⟨_, _, rfl⟩
  · obtain ⟨f, h⟩ := (bind_eq_error h).resolve_left hlift
    obtain ⟨c, h⟩ := (bind_eq_error h).resolve_left hlift
    cases c <;> cases h
    exact ⟨_, _, rfl⟩

theorem exitDominator_sincere (m : MethodId) (preds : List BlockId) :
    Sincere P g sites (exitDominator m preds) fun _ => True := by
  unfold exitDominator
  split
  · exact .pure trivial
  · refine Calm.get.then fun s => ?_
    split
    · exact .pure trivial
    · next e he =>
        intro t ht
        cases e with
        | error e =>
            obtain ⟨method, reason, rfl⟩ := nearestDominator_error he
            exact False.elim
        | fault f => trivial

theorem closeBody_sincere (line : Nat) : Sincere (Named xs g) g sites (closeBody line) fun _ => True := by
  refine calm.cursor.then fun c => .bind method_sincere fun m hm => ?_
  obtain ⟨n, hn, hm⟩ := hm
  split
  · exact .fail fun he => he.elim
  · next exit _ =>
      refine (calm.departTo ..).then fun _ => ?_
      refine (Calm.editWith fun _ _ _ => Program.sameNames_prune).then fun _ => Calm.get.then fun s => ?_
      dsimp only
      split
      · exact .fail fun he => he.elim
      · next first _ _ =>
          have htail (value : Option ValueId) (bindings : Bindings) :
              Sincere (Named xs g) g sites (do
                let dominator ← exitDominator c.method (s.program.preds exit)
                beginBlock exit dominator bindings
                ((← get).program.blocksOf c.method).forM resolveBlock
                let _ ← editWith fun p => p.emit exit (.ret value) line
                edit fun p => p.sealBlock exit bindings) fun _ => True := by
            refine .bind (exitDominator_sincere _ _) fun d _ => (calm.beginBlock ..).then fun _ => ?_
            refine Calm.get.then fun u => .bind (.forM fun b _ => resolveBlock_sincere b) fun _ _ => ?_
            exact (Calm.editWith fun _ _ _ => Program.sameNames_emit).then fun _ =>
              (Calm.edit fun _ _ => Program.sameNames_sealBlock).sincere
          split
          · next hkind =>
              refine .bind (returnValue_sincere (hn.functions _ hm hkind) _ _ _ _) fun v _ => ?_
              exact (Calm.pure _).then fun _ => htail _ _
          · exact (Calm.pure _).then fun _ => htail _ _

theorem body_sincere {b : Body} (h : b.statements.sites ⊆ sites) :
    Sincere (Named g.globals g) g sites (body b) fun _ => True := by
  refine (Calm.require ..).then fun _ => .bind (openBody_sincere _) fun _ _ => ?_
  refine .bind (sequence_sincere true b.statements h) fun _ _ => (Calm.require ..).then fun _ => ?_
  exact closeBody_sincere _

/-! ## Methods and computations -/

/-- The names after a method was opened. -/
def openNames (n : Names) (x : String) (kind : MethodKind) : Names :=
  ⟨n.globals, n.methods ++ [⟨x, kind, .empty⟩], ⟨n.methods.length⟩⟩

theorem openMethod_honest {E : Error → Prop} (x : String) (kind : MethodKind) :
    Honest E P (openMethod x kind) fun _ n => ∃ n₀, P n₀ ∧ n = openNames n₀ x kind := by
  let Q (m : MethodId) (n : Names) : Prop := ∃ n₀, P n₀ ∧ { n with current := m } = openNames n₀ x kind
  have hadd : Honest E P (editWith fun p => .ok (p.addMethod x kind)) Q := by
    intro s hs
    refine ⟨s.names, hs, ?_⟩
    simp [Builder.names, openNames, Program.headers, Method.header]
  refine .bind hadd fun m => .bind (Calm.look _).honest fun r => ?_
  refine .bind (Calm.edit fun _ _ => Program.sameNames_setBefore).honest fun _ => ?_
  exact fun s hs => hs

theorem Named.open {n : Names} (h : Named xs g n) {x : String} {kind : MethodKind}
    (hx : kind = .function → x ∈ g.functions) : Named xs g (openNames n x kind) := by
  refine ⟨h.globals, fun scope hscope d hd => ?_, fun m hm hkind => ?_⟩
  · rcases hscope with hscope | hscope
    · exact h.shapes scope (Or.inl hscope) d hd
    · obtain ⟨m, hm, rfl⟩ := List.mem_map.1 hscope
      rcases List.mem_append.1 hm with hm | hm
      · exact h.shapes _ (Or.inr (List.mem_map.2 ⟨m, hm, rfl⟩)) d hd
      · rw [List.mem_singleton.1 hm] at hd
        cases hd
  · rcases List.mem_append.1 hm with hm | hm
    · exact h.functions m hm hkind
    · rw [List.mem_singleton.1 hm] at hkind ⊢
      exact hx hkind

theorem openMethod_sincere {x : String} {kind : MethodKind}
    (hx : kind = .function → x ∈ g.functions) :
    Sincere (Named xs g) g sites (openMethod x kind) fun _ => True := by
  refine (openMethod_honest x kind).mono (fun _ he => he) (fun _ hn => hn) ?_
  rintro _ _ ⟨n, hn, rfl⟩
  exact ⟨hn.open hx, trivial⟩

theorem calm_checkMethodName (x : String) (pos : Pos) : Calm (checkMethodName x pos) := by
  unfold checkMethodName
  split
  · exact .report ..
  · refine .bind .get fun s => ?_
    split
    · exact .report ..
    · exact .pure _

theorem methodDecl_sincere {d : MethodDecl} (h : d.sites ⊆ sites) (hsized : ∀ v ∈ d.varDecls, v.Sized)
    (harrays : d.varDecls.flatMap VarDecl.arrays ⊆ g.arrays) (hfunctions : d.functions ⊆ g.functions) :
    Sincere (Named g.globals g) g sites (methodDecl d) fun _ => True := by
  simp only [MethodDecl.sites, List.append_subset] at h
  obtain ⟨⟨⟨hname, hparams⟩, hvars⟩, hbody⟩ := h
  refine .bind (name_sincere _ hname) fun r hr => (calm_checkMethodName ..).then fun _ => ?_
  refine .bind (openMethod_sincere fun hkind => hfunctions ?_) fun _ _ => ?_
  · have hfun : d.isFunction = true := by
      by_contra hne
      simp [hne] at hkind
    rw [MethodDecl.functions, if_pos hfun]
    exact hr.2
  refine .bind (.forM fun x hx => ?_) fun _ _ => (Calm.require ..).then fun _ => ?_
  · exact .bind (name_sincere (x := x) _ fun y hy => hparams (List.mem_flatMap.2 ⟨x, hx, hy⟩))
      fun _ _ => declareParameter_sincere _ _
  refine (Calm.require ..).then fun _ => .bind (.forM fun v hv => ?_) fun _ _ => ?_
  · exact varDecl_sincere (fun y hy => hvars (List.mem_flatMap.2 ⟨v, hv, hy⟩)) (hsized v hv)
      fun y hy => harrays (List.mem_flatMap.2 ⟨v, hv, hy⟩)
  · exact .bind (body_sincere hbody) fun _ _ => (Calm.require ..).sincere

/-- After its declarations, the names of a computation are as its glossary
says. -/
theorem varDecls_sincere {ds : List VarDecl} (h : ds.flatMap VarDecl.sites ⊆ sites)
    (hsized : ∀ d ∈ ds, d.Sized) (harrays : ds.flatMap VarDecl.arrays ⊆ g.arrays)
    (hglobals : g.globals = ds.flatMap VarDecl.declared) :
    Honest (Reasoned g sites) (fun n => Named [] g n ∧ Declaring [] n) (ds.forM varDecl)
      fun _ => Named g.globals g := by
  have hnamed : Sincere (Named [] g) g sites (ds.forM varDecl) fun _ => True :=
    .forM fun d hd => varDecl_sincere (fun y hy => h (List.mem_flatMap.2 ⟨d, hd, hy⟩)) (hsized d hd)
      fun y hy => harrays (List.mem_flatMap.2 ⟨d, hd, hy⟩)
  have hdeclared : Honest (fun _ => True) (Declaring []) (ds.forM varDecl)
      fun _ => Declaring (ds.flatMap VarDecl.declared ++ []) :=
    forM_declaring fun d hd => varDecl_declaring (hsized d hd)
  refine (Honest.and hnamed hdeclared).mono (fun _ he => he) (fun _ hn => hn) ?_
  rintro _ n ⟨⟨hn, -⟩, hd⟩
  refine ⟨fun x hx => hd.globals x ?_, hn.shapes, hn.functions⟩
  rw [List.append_nil, ← hglobals]
  exact hx

/-- The names when the body of the computation was opened. -/
theorem named_main {n : Names} (hglobals : n.globals = .empty) (hmethods : n.methods = []) :
    Named [] g (openNames n "main" .main) ∧ Declaring [] (openNames n "main" .main) := by
  have h : Named [] g n := by
    refine ⟨by simp, fun scope hscope d hd => ?_, by simp [hmethods]⟩
    rw [hmethods, hglobals] at hscope
    obtain rfl := hscope.resolve_right (by simp)
    cases hd
  exact ⟨h.open nofun, ⟨⟨"main", .main, .empty⟩, by simp [openNames], rfl⟩, by simp⟩

theorem computation_sincere {t : Computation} (hsized : ∀ d ∈ t.allVarDecls, d.Sized) :
    Honest (Reasoned t.glossary t.sites) (fun n => n.globals = .empty ∧ n.methods = [])
      (computation t) fun _ _ => True := by
  have harrays {ds : List VarDecl} (h : ds ⊆ t.allVarDecls) :
      ds.flatMap VarDecl.arrays ⊆ t.glossary.arrays := fun x hx => by
    obtain ⟨d, hd, hx⟩ := List.mem_flatMap.1 hx
    exact List.mem_flatMap.2 ⟨d, h hd, hx⟩
  have hmain : t.varDecls ⊆ t.allVarDecls := List.subset_append_left ..
  have hmethod (m : MethodDecl) (hm : m ∈ t.methods) :
      Sincere (Named t.glossary.globals t.glossary) t.glossary t.sites (methodDecl m) fun _ => True := by
    have hlocal : m.varDecls ⊆ t.allVarDecls := fun d hd =>
      List.mem_append_right _ (List.mem_flatMap.2 ⟨m, hm, hd⟩)
    refine methodDecl_sincere (fun x hx => ?_) (fun d hd => hsized d (hlocal hd)) (harrays hlocal)
      fun x hx => List.mem_flatMap.2 ⟨m, hm, hx⟩
    exact List.mem_append_left _ (List.mem_append_right _ (List.mem_flatMap.2 ⟨m, hm, hx⟩))
  have hbody : Sincere (Named t.glossary.globals t.glossary) t.glossary t.sites (body t.body)
      fun _ => True := body_sincere (List.subset_append_right ..)
  have hsites : t.varDecls.flatMap VarDecl.sites ⊆ t.sites := fun x hx =>
    List.mem_append_left _ (List.mem_append_left _ hx)
  have hvars := varDecls_sincere (g := t.glossary) hsites (fun d hd => hsized d (hmain hd))
    (harrays hmain) rfl
  refine .bind (Calm.require ..).honest fun _ => .bind (openMethod_honest "main" .main) fun _ => ?_
  refine .bind (hvars.mono (fun _ he => he) ?_ fun _ _ hn => hn) fun _ => ?_
  · rintro _ ⟨n, ⟨hglobals, hmethods⟩, rfl⟩
    exact named_main hglobals hmethods
  refine Honest.mono (?_ : Sincere (Named t.glossary.globals t.glossary) t.glossary t.sites _
    fun _ => True) (fun _ he => he) (fun _ hn => hn) fun _ _ _ => trivial
  refine calm.cursor.then fun home => .bind (.forM hmethod) fun _ _ => ?_
  refine .bind (moveTo_sincere home) fun _ _ => .bind hbody fun _ _ => ?_
  refine (Calm.require ..).then fun _ => ?_
  split
  · exact (Calm.report ..).sincere
  · exact .pure trivial

end Sincere

end Build

/-- What keeps a program from being built is shown by the tree of its tokens. -/
theorem buildTokens_blames {tokens : List Token} {earlier : List Diagnostic} {stop : Stop}
    (h : buildTokens tokens earlier = .error stop) :
    ∃ e, stop = .error e ∧ (Syntax.read tokens).Blames e.root := by
  have hmeets := Build.computation_meets (Syntax.read tokens) earlier
  have hsincere := Build.computation_sincere (Syntax.read_sized tokens) (.init earlier) ⟨rfl, rfl⟩
  unfold buildTokens at h
  unfold Build.Meets at hmeets
  split at h
  · cases h
  · next cause s hrun =>
      obtain rfl := Except.error.inj h
      rw [hrun] at hmeets hsincere
      cases cause with
      | fault f => exact hmeets.elim
      | error e =>
          have hroot : e.root = e := by
            cases e <;> first | rfl | exact hmeets.elim
          refine ⟨e.after s.diagnostics, rfl, ?_⟩
          rw [Error.root_after, hroot]
          exact hsincere hmeets

/-- Whatever the tokens, a program is built, or the construction gives up for a
reason that their tree shows; it never breaks one of its own expectations. The
bound on nested calls plays no part in that tree. -/
theorem buildTokens_settles (tokens : List Token) (earlier : List Diagnostic) :
    ((∃ built, buildTokens tokens earlier = .ok built)
      ∨ ∃ e, buildTokens tokens earlier = .error (.error e) ∧ (Syntax.read tokens).Blames e.root)
    ∧ ∀ k, (Syntax.computation (4 * (TokenStream.ofTokens tokens).tokens.length + 8 + k)
        (.ofTokens tokens)).1 = Syntax.read tokens := by
  refine ⟨?_, fun k => Syntax.computation_eq_read tokens (by omega)⟩
  cases hbuilt : buildTokens tokens earlier with
  | ok built => exact Or.inl ⟨built, rfl⟩
  | error stop =>
      obtain ⟨e, rfl, he⟩ := buildTokens_blames hbuilt
      exact Or.inr ⟨e, rfl, he⟩

end StructuredSsa
