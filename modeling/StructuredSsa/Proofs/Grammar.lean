import StructuredSsa.Syntax.Reader

/-!
# The grammar

Which tokens a tree is the tree of, production by production
(`ComputationText`); a sentence is a text that has a tree. The relations do not
mention reading: that it follows them, both ways, is shown in
`StructuredSsa.Proofs.GrammarSound` and `StructuredSsa.Proofs.GrammarComplete`.

Nothing is missing in the tree of a text (`ComputationText.whole`), and an
expression starts with a token that expressions start with.
-/

namespace StructuredSsa

/-- How an operator is written. -/
def ArithOp.sign : ArithOp → Punct
  | add => .plus
  | sub => .minus
  | mul => .star
  | div => .slash

def RelOp.sign : RelOp → Punct
  | eq => .eq
  | ne => .ne
  | lt => .lt
  | le => .le
  | gt => .gt
  | ge => .ge

namespace Syntax

/-! ## Texts of trees -/

mutual

/-- A designator, a number, an expression in parentheses, or a call. -/
inductive FactorText : Expr → List Token → Prop where
  | number {t : Token} {n : Int64} (ht : t.kind = .number n) : FactorText (.number n t.pos.line) [t]
  | designator {t : Token} {x : String} {is : Indices} {ts : List Token} (ht : t.kind = .ident x)
      (indices : IndicesText is ts) : FactorText (.designator (.ident x t.pos) is) (t :: ts)
  | group {l r : Token} {e : Expr} {ts : List Token} (hl : l.kind = .punct .lparen)
      (inner : ExprText e ts) (hr : r.kind = .punct .rparen) :
      FactorText (.group e .present) (l :: (ts ++ [r]))
  | call {x : Name} {args : Arguments} {ts : List Token} (h : CallText x args ts) :
      FactorText (.call x args .present) ts

/-- Expressions in brackets, as many as there are. -/
inductive IndicesText : Indices → List Token → Prop where
  | nil : IndicesText .nil []
  | cons {l r : Token} {e : Expr} {rest : Indices} {ts us : List Token}
      (hl : l.kind = .punct .lbracket) (index : ExprText e ts) (hr : r.kind = .punct .rbracket)
      (more : IndicesText rest us) : IndicesText (.cons e .present rest) (l :: (ts ++ r :: us))

/-- A call. Without arguments, the parentheses may be left out. -/
inductive CallText : Name → Arguments → List Token → Prop where
  | bare {c t : Token} {x : String} (hc : c.kind = .keyword .call) (ht : t.kind = .ident x) :
      CallText (.ident x t.pos) .nil [c, t]
  | empty {c t l r : Token} {x : String} (hc : c.kind = .keyword .call) (ht : t.kind = .ident x)
      (hl : l.kind = .punct .lparen) (hr : r.kind = .punct .rparen) :
      CallText (.ident x t.pos) .nil [c, t, l, r]
  | parens {c t l r : Token} {x : String} {args : Arguments} {ts : List Token}
      (hc : c.kind = .keyword .call) (ht : t.kind = .ident x) (hl : l.kind = .punct .lparen)
      (arguments : ArgumentsText args ts) (hr : r.kind = .punct .rparen) :
      CallText (.ident x t.pos) args (c :: t :: l :: (ts ++ [r]))

/-- One expression or more, with commas between them. -/
inductive ArgumentsText : Arguments → List Token → Prop where
  | one {e : Expr} {ts : List Token} (h : ExprText e ts) : ArgumentsText (.cons e .nil) ts
  | cons {c : Token} {e : Expr} {rest : Arguments} {ts us : List Token} (h : ExprText e ts)
      (hc : c.kind = .punct .comma) (more : ArgumentsText rest us) :
      ArgumentsText (.cons e rest) (ts ++ c :: us)

/-- Factors with `*` and `/` between them. -/
inductive TermText : Expr → List Token → Prop where
  | factor {e : Expr} {ts : List Token} (h : FactorText e ts) : TermText e ts
  | product {op : ArithOp} {t : Token} {a b : Expr} {ts us : List Token} (lhs : TermText a ts)
      (hop : op = .mul ∨ op = .div) (ht : t.kind = .punct op.sign) (rhs : FactorText b us) :
      TermText (.arith op a b t.pos.line) (ts ++ t :: us)

/-- Terms with `+` and `-` between them. -/
inductive ExprText : Expr → List Token → Prop where
  | term {e : Expr} {ts : List Token} (h : TermText e ts) : ExprText e ts
  | sum {op : ArithOp} {t : Token} {a b : Expr} {ts us : List Token} (lhs : ExprText a ts)
      (hop : op = .add ∨ op = .sub) (ht : t.kind = .punct op.sign) (rhs : TermText b us) :
      ExprText (.arith op a b t.pos.line) (ts ++ t :: us)

end

inductive RelationText : Relation → List Token → Prop where
  | compare {op : RelOp} {t : Token} {a b : Expr} {ts us : List Token} (lhs : ExprText a ts)
      (ht : t.kind = .punct op.sign) (rhs : ExprText b us) :
      RelationText (.compare a op t.pos.line b) (ts ++ t :: us)

mutual

inductive StmtText : Stmt → List Token → Prop where
  | assign {l t a : Token} {x : String} {is : Indices} {e : Expr} {ts us : List Token}
      (hl : l.kind = .keyword .let_) (ht : t.kind = .ident x) (indices : IndicesText is ts)
      (ha : a.kind = .punct .arrow) (value : ExprText e us) :
      StmtText (.assign (.ident x t.pos) is .present e) (l :: t :: (ts ++ a :: us))
  | call {x : Name} {args : Arguments} {ts : List Token} (h : CallText x args ts) :
      StmtText (.call x args .present) ts
  | ifThen {i t f : Token} {c : Relation} {yes : Sequence} {ts us : List Token}
      (hi : i.kind = .keyword .if_) (condition : RelationText c ts) (ht : t.kind = .keyword .then_)
      (left : SequenceText yes us) (hf : f.kind = .keyword .fi) :
      StmtText (.ifThen i.pos.line c .present yes f.pos.line .nil f.pos.line .present)
        (i :: (ts ++ t :: (us ++ [f])))
  | ifElse {i t e f : Token} {c : Relation} {yes no : Sequence} {ts us vs : List Token}
      (hi : i.kind = .keyword .if_) (condition : RelationText c ts) (ht : t.kind = .keyword .then_)
      (left : SequenceText yes us) (he : e.kind = .keyword .else_) (right : SequenceText no vs)
      (hf : f.kind = .keyword .fi) :
      StmtText (.ifThen i.pos.line c .present yes e.pos.line no f.pos.line .present)
        (i :: (ts ++ t :: (us ++ e :: (vs ++ [f]))))
  | whileDo {w d o : Token} {c : Relation} {body : Sequence} {ts us : List Token}
      (hw : w.kind = .keyword .while_) (condition : RelationText c ts) (hd : d.kind = .keyword .do_)
      (inside : SequenceText body us) (ho : o.kind = .keyword .od) :
      StmtText (.whileDo w.pos.line c .present body o.pos.line .present)
        (w :: (ts ++ d :: (us ++ [o])))
  | ret {r : Token} (hr : r.kind = .keyword .ret) : StmtText (.ret r.pos none) [r]
  | retValue {r : Token} {e : Expr} {ts : List Token} (hr : r.kind = .keyword .ret)
      (value : ExprText e ts) : StmtText (.ret r.pos (some e)) (r :: ts)

/-- Statements with semicolons between them. Any of them may be left out, so
that nothing is a sequence and semicolons may stand where they like. -/
inductive SequenceText : Sequence → List Token → Prop where
  | nil : SequenceText .nil []
  | skip {m : Token} {rest : Sequence} {ts : List Token} (hm : m.kind = .punct .semicolon)
      (after : SequenceText rest ts) : SequenceText rest (m :: ts)
  | one {t : Token} {s : Stmt} {ts : List Token} (h : StmtText s (t :: ts)) :
      SequenceText (.cons true t s .nil) (t :: ts)
  | cons {t m : Token} {s : Stmt} {rest : Sequence} {ts us : List Token} (h : StmtText s (t :: ts))
      (hm : m.kind = .punct .semicolon) (after : SequenceText rest us) :
      SequenceText (.cons true t s rest) (t :: (ts ++ m :: us))

end

/-- One size or more, each in brackets. -/
inductive DimensionsText : List Dimension → List Token → Prop where
  | one {l t r : Token} {n : Int64} (hl : l.kind = .punct .lbracket) (ht : t.kind = .number n)
      (hr : r.kind = .punct .rbracket) :
      DimensionsText [.sized .present n t.pos .present] [l, t, r]
  | cons {l t r : Token} {n : Int64} {ds : List Dimension} {ts : List Token}
      (hl : l.kind = .punct .lbracket) (ht : t.kind = .number n) (hr : r.kind = .punct .rbracket)
      (more : DimensionsText ds ts) :
      DimensionsText (.sized .present n t.pos .present :: ds) (l :: t :: r :: ts)

inductive TypeText : TypeDecl → List Token → Prop where
  | scalar {v : Token} (hv : v.kind = .keyword .var) : TypeText .scalar [v]
  | array {a : Token} {ds : List Dimension} {ts : List Token} (ha : a.kind = .keyword .array)
      (sizes : DimensionsText ds ts) : TypeText (.array ds) (a :: ts)

/-- One name or more, with commas between them. -/
inductive NamesText : List Name → List Token → Prop where
  | one {t : Token} {x : String} (ht : t.kind = .ident x) : NamesText [.ident x t.pos] [t]
  | cons {t c : Token} {x : String} {xs : List Name} {ts : List Token} (ht : t.kind = .ident x)
      (hc : c.kind = .punct .comma) (more : NamesText xs ts) :
      NamesText (.ident x t.pos :: xs) (t :: c :: ts)

inductive VarDeclText : VarDecl → List Token → Prop where
  | intro {m : Token} {d : TypeDecl} {xs : List Name} {ts us : List Token} (type : TypeText d ts)
      (names : NamesText xs us) (hm : m.kind = .punct .semicolon) :
      VarDeclText ⟨d, xs, .present⟩ (ts ++ (us ++ [m]))

/-- Texts one behind another, as many as there are. -/
inductive Each {α : Type} (Text : α → List Token → Prop) : List α → List Token → Prop where
  | nil : Each Text [] []
  | cons {a : α} {as : List α} {ts us : List Token} (h : Text a ts) (more : Each Text as us) :
      Each Text (a :: as) (ts ++ us)

inductive BodyText : Body → List Token → Prop where
  | intro {l r : Token} {q : Sequence} {ts : List Token} (hl : l.kind = .punct .lbrace)
      (statements : SequenceText q ts) (hr : r.kind = .punct .rbrace) :
      BodyText ⟨l.pos.line, .present, q, r.pos.line, .present⟩ (l :: (ts ++ [r]))

/-- The parameters of a method. Without any, the parentheses may be left out. -/
inductive ParametersText : List Name → List Token → Prop where
  | bare : ParametersText [] []
  | empty {l r : Token} (hl : l.kind = .punct .lparen) (hr : r.kind = .punct .rparen) :
      ParametersText [] [l, r]
  | parens {l r : Token} {xs : List Name} {ts : List Token} (hl : l.kind = .punct .lparen)
      (names : NamesText xs ts) (hr : r.kind = .punct .rparen) :
      ParametersText xs (l :: (ts ++ [r]))

/-- The word a declaration of a method starts with. -/
def methodWord (isFunction : Bool) : Keyword := if isFunction then .function else .procedure

inductive MethodText : MethodDecl → List Token → Prop where
  | intro {f t m n : Token} {isFunction : Bool} {x : String} {xs : List Name} {ds : List VarDecl}
      {b : Body} {ts us vs : List Token} (hf : f.kind = .keyword (methodWord isFunction))
      (ht : t.kind = .ident x) (parameters : ParametersText xs ts)
      (hm : m.kind = .punct .semicolon) (varDecls : Each VarDeclText ds us) (body : BodyText b vs)
      (hn : n.kind = .punct .semicolon) :
      MethodText ⟨isFunction, .ident x t.pos, xs, .present, .present, ds, b, .present⟩
        (f :: t :: (ts ++ m :: (us ++ (vs ++ [n]))))

/-- The text of a whole computation. What the tree says about the token behind
it does not matter. -/
inductive ComputationText : Computation → List Token → Prop where
  | intro {m p : Token} {ds : List VarDecl} {ms : List MethodDecl} {b : Body}
      {trailing : Option Token} {ts us vs : List Token} (hm : m.kind = .keyword .main)
      (varDecls : Each VarDeclText ds ts) (methods : Each MethodText ms us) (body : BodyText b vs)
      (hp : p.kind = .punct .period) :
      ComputationText ⟨.present, ds, ms, b, .present, trailing⟩ (m :: (ts ++ (us ++ (vs ++ [p]))))

/-- A sentence of the grammar. -/
def Sentence (tokens : List Token) : Prop := ∃ t, ComputationText t tokens

/-! ## Trees with nothing missing -/

def Name.Whole : Name → Prop
  | .ident .. => True
  | .missing _ => False

mutual

def Expr.Whole : Expr → Prop
  | .number .. => True
  | .designator x is => x.Whole ∧ is.Whole
  | .group inner close => inner.Whole ∧ close = .present
  | .arith _ lhs rhs _ => lhs.Whole ∧ rhs.Whole
  | .call callee args close => callee.Whole ∧ args.Whole ∧ close = .present
  | .missing _ => False

def Indices.Whole : Indices → Prop
  | .nil => True
  | .cons index close rest => index.Whole ∧ close = .present ∧ rest.Whole

def Arguments.Whole : Arguments → Prop
  | .nil => True
  | .cons argument rest => argument.Whole ∧ rest.Whole

end

def Relation.Whole : Relation → Prop
  | .compare lhs _ _ rhs => lhs.Whole ∧ rhs.Whole
  | .noOperator .. => False

mutual

def Stmt.Whole : Stmt → Prop
  | .assign x is arrow value => x.Whole ∧ is.Whole ∧ arrow = .present ∧ value.Whole
  | .call callee args close => callee.Whole ∧ args.Whole ∧ close = .present
  | .ifThen _ condition thenMark yes _ no _ fi =>
      condition.Whole ∧ thenMark = .present ∧ yes.Whole ∧ no.Whole ∧ fi = .present
  | .whileDo _ condition doMark body _ od =>
      condition.Whole ∧ doMark = .present ∧ body.Whole ∧ od = .present
  | .ret _ none => True
  | .ret _ (some value) => value.Whole
  | .unknown _ => False

def Sequence.Whole : Sequence → Prop
  | .nil => True
  | .cons separated _ s rest => separated = true ∧ s.Whole ∧ rest.Whole

end

def Dimension.Whole : Dimension → Prop
  | .sized opening _ _ close => opening = .present ∧ close = .present
  | .missing .. => False

def TypeDecl.Whole : TypeDecl → Prop
  | .scalar => True
  | .array dims => ∀ d ∈ dims, d.Whole

def VarDecl.Whole (d : VarDecl) : Prop :=
  d.type.Whole ∧ (∀ x ∈ d.names, x.Whole) ∧ d.semicolon = .present

def Body.Whole (b : Body) : Prop :=
  b.opening = .present ∧ b.statements.Whole ∧ b.closing = .present

def MethodDecl.Whole (d : MethodDecl) : Prop :=
  d.name.Whole ∧ (∀ x ∈ d.parameters, x.Whole) ∧ d.close = .present ∧ d.semicolon = .present ∧
    (∀ v ∈ d.varDecls, v.Whole) ∧ d.body.Whole ∧ d.terminator = .present

def Computation.Whole (t : Computation) : Prop :=
  t.main = .present ∧ (∀ d ∈ t.varDecls, d.Whole) ∧ (∀ m ∈ t.methods, m.Whole) ∧ t.body.Whole ∧
    t.period = .present

/-! Nothing is missing in the tree of a text. -/

mutual

theorem FactorText.whole {e : Expr} {ts : List Token} : FactorText e ts → e.Whole
  | .number _ => trivial
  | .designator _ indices => ⟨trivial, indices.whole⟩
  | .group _ inner _ => ⟨inner.whole, rfl⟩
  | .call h => ⟨h.whole.1, h.whole.2, rfl⟩

theorem IndicesText.whole {is : Indices} {ts : List Token} : IndicesText is ts → is.Whole
  | .nil => trivial
  | .cons _ index _ more => ⟨index.whole, rfl, more.whole⟩

theorem CallText.whole {x : Name} {args : Arguments} {ts : List Token} :
    CallText x args ts → x.Whole ∧ args.Whole
  | .bare .. | .empty .. => ⟨trivial, trivial⟩
  | .parens _ _ _ arguments _ => ⟨trivial, arguments.whole⟩

theorem ArgumentsText.whole {args : Arguments} {ts : List Token} :
    ArgumentsText args ts → args.Whole
  | .one h => ⟨h.whole, trivial⟩
  | .cons h _ more => ⟨h.whole, more.whole⟩

theorem TermText.whole {e : Expr} {ts : List Token} : TermText e ts → e.Whole
  | .factor h => h.whole
  | .product lhs _ _ rhs => ⟨lhs.whole, rhs.whole⟩

theorem ExprText.whole {e : Expr} {ts : List Token} : ExprText e ts → e.Whole
  | .term h => h.whole
  | .sum lhs _ _ rhs => ⟨lhs.whole, rhs.whole⟩

end

theorem RelationText.whole {c : Relation} {ts : List Token} : RelationText c ts → c.Whole
  | .compare lhs _ rhs => ⟨lhs.whole, rhs.whole⟩

mutual

theorem StmtText.whole {s : Stmt} {ts : List Token} : StmtText s ts → s.Whole
  | .assign _ _ indices _ value => ⟨trivial, indices.whole, rfl, value.whole⟩
  | .call h => ⟨h.whole.1, h.whole.2, rfl⟩
  | .ifThen _ condition _ left _ => ⟨condition.whole, rfl, left.whole, trivial, rfl⟩
  | .ifElse _ condition _ left _ right _ => ⟨condition.whole, rfl, left.whole, right.whole, rfl⟩
  | .whileDo _ condition _ inside _ => ⟨condition.whole, rfl, inside.whole, rfl⟩
  | .ret _ => trivial
  | .retValue _ value => value.whole

theorem SequenceText.whole {q : Sequence} {ts : List Token} : SequenceText q ts → q.Whole
  | .nil => trivial
  | .skip _ after => after.whole
  | .one h => ⟨rfl, h.whole, trivial⟩
  | .cons h _ after => ⟨rfl, h.whole, after.whole⟩

end

theorem DimensionsText.whole {ds : List Dimension} {ts : List Token} (h : DimensionsText ds ts) :
    ∀ d ∈ ds, d.Whole := by
  induction h with
  | one => exact List.forall_mem_singleton.2 ⟨rfl, rfl⟩
  | cons _ _ _ _ ih => exact List.forall_mem_cons.2 ⟨⟨rfl, rfl⟩, ih⟩

theorem NamesText.whole {xs : List Name} {ts : List Token} (h : NamesText xs ts) :
    ∀ x ∈ xs, x.Whole := by
  induction h with
  | one => exact List.forall_mem_singleton.2 trivial
  | cons _ _ _ ih => exact List.forall_mem_cons.2 ⟨trivial, ih⟩

theorem VarDeclText.whole {d : VarDecl} {ts : List Token} : VarDeclText d ts → d.Whole
  | .intro (.scalar _) names _ => ⟨trivial, names.whole, rfl⟩
  | .intro (.array _ sizes) names _ => ⟨sizes.whole, names.whole, rfl⟩

theorem Each.whole {α : Type} {Text : α → List Token → Prop} {P : α → Prop}
    (hP : ∀ a ts, Text a ts → P a) {as : List α} {ts : List Token} (h : Each Text as ts) :
    ∀ a ∈ as, P a := by
  induction h with
  | nil => exact List.forall_mem_nil _
  | cons h _ ih => exact List.forall_mem_cons.2 ⟨hP _ _ h, ih⟩

theorem BodyText.whole {b : Body} {ts : List Token} : BodyText b ts → b.Whole
  | .intro _ statements _ => ⟨rfl, statements.whole, rfl⟩

theorem ParametersText.whole {xs : List Name} {ts : List Token} :
    ParametersText xs ts → ∀ x ∈ xs, x.Whole
  | .bare | .empty .. => List.forall_mem_nil _
  | .parens _ names _ => names.whole

theorem MethodText.whole {d : MethodDecl} {ts : List Token} : MethodText d ts → d.Whole
  | .intro _ _ parameters _ varDecls body _ =>
      ⟨trivial, parameters.whole, rfl, rfl,
        varDecls.whole (P := VarDecl.Whole) fun _ _ => VarDeclText.whole, body.whole, rfl⟩

theorem ComputationText.whole {t : Computation} {ts : List Token} : ComputationText t ts → t.Whole
  | .intro _ varDecls methods body _ =>
      ⟨rfl, varDecls.whole (P := VarDecl.Whole) fun _ _ => VarDeclText.whole,
        methods.whole (P := MethodDecl.Whole) fun _ _ => MethodText.whole, body.whole, rfl⟩

/-! The token a text starts with. -/

theorem CallText.starts {x : Name} {args : Arguments} {ts : List Token} (h : CallText x args ts) :
    ∃ c us, ts = c :: us ∧ c.kind = .keyword .call := by
  cases h with
  | bare hc _ | empty hc _ _ _ | parens hc _ _ _ _ => exact ⟨_, _, rfl, hc⟩

theorem FactorText.starts {e : Expr} {ts : List Token} (h : FactorText e ts) :
    ∃ t us, ts = t :: us ∧ t.kind.startsExpr = true := by
  cases h with
  | call h =>
      obtain ⟨c, us, rfl, hc⟩ := h.starts
      exact ⟨c, us, rfl, by rw [hc]; rfl⟩
  | number ht | designator ht _ | group ht _ _ => exact ⟨_, _, rfl, by rw [ht]; rfl⟩

theorem starts_append {P : Token → Prop} {ts us : List Token} (h : ∃ t vs, ts = t :: vs ∧ P t) :
    ∃ t vs, ts ++ us = t :: vs ∧ P t := by
  obtain ⟨t, vs, rfl, ht⟩ := h
  exact ⟨t, vs ++ us, rfl, ht⟩

theorem TermText.starts {e : Expr} {ts : List Token} :
    TermText e ts → ∃ t us, ts = t :: us ∧ t.kind.startsExpr = true
  | .factor h => h.starts
  | .product lhs _ _ _ => starts_append lhs.starts

theorem ExprText.starts {e : Expr} {ts : List Token} :
    ExprText e ts → ∃ t us, ts = t :: us ∧ t.kind.startsExpr = true
  | .term h => h.starts
  | .sum lhs _ _ _ => starts_append lhs.starts

theorem ArgumentsText.starts {args : Arguments} {ts : List Token} (h : ArgumentsText args ts) :
    ∃ t us, ts = t :: us ∧ t.kind ≠ .punct .rparen := by
  have hfirst {e : Expr} {ts : List Token} (he : ExprText e ts) :
      ∃ t us, ts = t :: us ∧ t.kind ≠ .punct .rparen := by
    obtain ⟨t, us, rfl, ht⟩ := he.starts
    refine ⟨t, us, rfl, fun h => ?_⟩
    rw [h] at ht
    cases ht
  cases h with
  | one h => exact hfirst h
  | cons h _ _ => exact starts_append (hfirst h)

end Syntax

end StructuredSsa
