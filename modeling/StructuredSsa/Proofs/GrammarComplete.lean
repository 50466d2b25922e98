import Mathlib.Order.Filter.AtTopBot.Basic
import StructuredSsa.Proofs.Grammar
import StructuredSsa.Proofs.Reading

/-!
# Texts are read

On the text of a tree, whatever comes behind it, reading gives this tree
(`read_sentence`). How many nested calls a reading function may make is left
open: what it reads is what it reads with any larger number (`Reads`).

A text ends where the next token does not go on with it, so each statement has
a condition on the token behind: for a factor, a term, an expression and a
statement in turn, fewer and fewer tokens do.
-/

namespace StructuredSsa

namespace Syntax

variable {α β : Type} {s s' s'' : TokenStream} {a : α} {b : β}

theorem accept_eq (kind : TokenKind) (s : TokenStream) :
    accept kind s = if s.peek.kind = kind then (true, s.advance) else (false, s) := by
  show (if s.peek.kind = kind then (do advance; return true : ReadM Bool) else return false) s = _
  split <;> rfl

/-- With enough nested calls `x` reads `a`, and `s'` is left. -/
def Reads (x : Nat → ReadM α) (s : TokenStream) (a : α) (s' : TokenStream) : Prop :=
  ∀ᶠ n in Filter.atTop, x n s = (a, s')

namespace Reads

theorem of_eq {x : ReadM α} (h : x s = (a, s')) : Reads (fun _ => x) s a s' :=
  Filter.Eventually.of_forall fun _ => h

theorem pure (a : α) (s : TokenStream) : Reads (fun _ => Pure.pure a) s a s := of_eq rfl

theorem bind {x : Nat → ReadM α} {f : Nat → α → ReadM β} (hx : Reads x s a s')
    (hf : Reads (fun n => f n a) s' b s'') : Reads (fun n => x n >>= f n) s b s'' := by
  filter_upwards [hx, hf] with n hx hf
  show f n (x n s).1 (x n s).2 = _
  rw [hx]
  exact hf

/-- What a call reads when it may make one more. -/
theorem succ {x : Nat → ReadM α} (h : Reads (fun n => x (n + 1)) s a s') : Reads x s a s' := by
  unfold Reads at h ⊢
  rwa [← Filter.eventually_map (m := fun n => n + 1) (P := fun n => x n s = (a, s')),
    Filter.map_add_atTop_eq_nat] at h

theorem peek {f : Nat → Token → ReadM β} (h : Reads (fun n => f n s.peek) s b s') :
    Reads (fun n => Syntax.peek >>= f n) s b s' :=
  bind (of_eq rfl) h

variable {t : Token} {ts : List Token} {p : Pos} {kind : TokenKind}

theorem advance : Reads (fun _ => Syntax.advance) ⟨t :: ts, p⟩ () ⟨ts, p⟩ := of_eq rfl

theorem accept (h : t.kind = kind) :
    Reads (fun _ => Syntax.accept kind) ⟨t :: ts, p⟩ true ⟨ts, p⟩ :=
  of_eq ((accept_eq ..).trans (if_pos h))

theorem accept_not (h : s.peek.kind ≠ kind) : Reads (fun _ => Syntax.accept kind) s false s :=
  of_eq ((accept_eq ..).trans (if_neg h))

theorem require (h : t.kind = kind) :
    Reads (fun _ => Syntax.require kind) ⟨t :: ts, p⟩ .present ⟨ts, p⟩ :=
  peek (bind (accept h) (pure _ _))

theorem name {x : String} (h : t.kind = .ident x) :
    Reads (fun _ => Syntax.name) ⟨t :: ts, p⟩ (.ident x t.pos) ⟨ts, p⟩ := by
  refine peek ?_
  simp only [TokenStream.peek, List.headD_cons, h]
  exact bind advance (pure _ _)

end Reads

@[simp] theorem peek_cons (t : Token) (ts : List Token) (p : Pos) :
    (TokenStream.mk (t :: ts) p).peek = t := rfl

/-! The tokens that do not go on with a text. -/

def EndsFactor (k : TokenKind) : Prop := k ≠ .punct .lbracket ∧ k ≠ .punct .lparen

def EndsTerm (k : TokenKind) : Prop := EndsFactor k ∧ k.productOp? = none

def EndsExpr (k : TokenKind) : Prop := EndsTerm k ∧ k.sumOp? = none

theorem endsFactor_sign (op : ArithOp) : EndsFactor (.punct op.sign) := by
  cases op <;> simp [EndsFactor, ArithOp.sign]

theorem productOp?_sign {op : ArithOp} (h : op = .mul ∨ op = .div) :
    (TokenKind.punct op.sign).productOp? = some op := by
  rcases h with rfl | rfl <;> rfl

theorem sumOp?_sign {op : ArithOp} (h : op = .add ∨ op = .sub) :
    (TokenKind.punct op.sign).sumOp? = some op ∧ (TokenKind.punct op.sign).productOp? = none := by
  rcases h with rfl | rfl <;> exact ⟨rfl, rfl⟩

theorem relOp?_sign (op : RelOp) : (TokenKind.punct op.sign).relOp? = some op := by
  cases op <;> rfl

theorem endsExpr_sign (op : RelOp) : EndsExpr (.punct op.sign) := by
  cases op <;> exact ⟨⟨⟨by simp [RelOp.sign], by simp [RelOp.sign]⟩, rfl⟩, rfl⟩

theorem endsExpr_keyword (k : Keyword) : EndsExpr (.keyword k) :=
  ⟨⟨⟨nofun, nofun⟩, rfl⟩, rfl⟩

/-- Behind an expression that is closed by it. -/
theorem endsExpr_punct {q : Punct} (h : q = .rparen ∨ q = .rbracket ∨ q = .comma) :
    EndsExpr (.punct q) := by
  rcases h with rfl | rfl | rfl <;> exact ⟨⟨⟨by simp, by simp⟩, rfl⟩, rfl⟩

theorem reads_sumTail_nil (lhs : Expr) (h : s.peek.kind.sumOp? = none) :
    Reads (fun n => sumTail n lhs) s lhs s := by
  refine .succ ?_
  simp only [Syntax.sumTail]
  refine .peek ?_
  simp only [h]
  exact .pure _ _

theorem reads_productTail_nil (lhs : Expr) (h : s.peek.kind.productOp? = none) :
    Reads (fun n => productTail n lhs) s lhs s := by
  refine .succ ?_
  simp only [Syntax.productTail]
  refine .peek ?_
  simp only [h]
  exact .pure _ _

/-! Expressions. A sum is read from its first term on, so that what is read of
its beginning is what the tail goes on with. -/

mutual

theorem FactorText.reads {e : Expr} {ts : List Token} :
    FactorText e ts → ∀ {rest : List Token} {p : Pos},
    EndsFactor (TokenStream.mk rest p).peek.kind → Reads factor ⟨ts ++ rest, p⟩ e ⟨rest, p⟩
  | @FactorText.number t n ht, rest, p, _ => by
      refine .succ ?_
      simp only [Syntax.factor]
      refine .peek ?_
      simp only [List.cons_append, peek_cons, ht]
      exact .bind .advance (.pure _ _)
  | @FactorText.designator t x is ts ht indices, rest, p, hrest => by
      refine .succ ?_
      simp only [Syntax.factor]
      refine .peek ?_
      simp only [List.cons_append, peek_cons, ht]
      exact .bind (.name ht) (.bind (indices.reads hrest.1) (.pure _ _))
  | @FactorText.group l r e ts hl inner hr, rest, p, _ => by
      have hclose : EndsExpr (TokenStream.mk (r :: rest) p).peek.kind := by
        rw [peek_cons, hr]
        exact endsExpr_punct (.inl rfl)
      have hinner := inner.reads hclose.1 (reads_sumTail_nil e hclose.2)
      refine .succ ?_
      simp only [Syntax.factor]
      refine .peek ?_
      simp only [List.cons_append, List.append_assoc, List.nil_append, peek_cons, hl, if_true]
      exact .bind .advance (.bind hinner (.bind (.require hr) (.pure _ _)))
  | .call h, rest, p, hrest => by
      have hread := h.reads hrest.2
      obtain ⟨c, us, rfl, hc⟩ := h.starts
      refine .succ ?_
      simp only [Syntax.factor]
      refine .peek ?_
      rw [List.cons_append] at hread ⊢
      simp only [peek_cons, hc, reduceCtorEq, if_false, if_true]
      exact .bind hread (.pure _ _)

theorem IndicesText.reads {is : Indices} {ts : List Token} :
    IndicesText is ts → ∀ {rest : List Token} {p : Pos},
    (TokenStream.mk rest p).peek.kind ≠ .punct .lbracket →
    Reads indices ⟨ts ++ rest, p⟩ is ⟨rest, p⟩
  | .nil, rest, p, hrest => by
      refine .succ ?_
      simp only [Syntax.indices]
      exact .bind (.accept_not hrest) (.pure _ _)
  | @IndicesText.cons l r e more ts us hl index hr indices, rest, p, hrest => by
      have hclose : EndsExpr (TokenStream.mk (r :: (us ++ rest)) p).peek.kind := by
        rw [peek_cons, hr]
        exact endsExpr_punct (.inr (.inl rfl))
      have hindex := index.reads hclose.1 (reads_sumTail_nil e hclose.2)
      refine .succ ?_
      simp only [Syntax.indices, List.cons_append, List.append_assoc]
      exact .bind (.accept hl) (.bind hindex (.bind (.require hr)
        (.bind (indices.reads hrest) (.pure _ _))))

theorem CallText.reads {x : Name} {args : Arguments} {ts : List Token} :
    CallText x args ts → ∀ {rest : List Token} {p : Pos},
    (TokenStream.mk rest p).peek.kind ≠ .punct .lparen →
    Reads call ⟨ts ++ rest, p⟩ (x, args, .present) ⟨rest, p⟩
  | .bare _ ht, rest, p, hrest => by
      refine .succ ?_
      simp only [Syntax.call]
      exact .bind .advance (.bind (.name ht) (.bind (.accept_not hrest) (.pure _ _)))
  | .empty _ ht hl hr, rest, p, _ => by
      refine .succ ?_
      simp only [Syntax.call, List.cons_append, List.nil_append]
      refine .bind .advance (.bind (.name ht) (.bind (.accept hl) (.peek ?_)))
      simp only [peek_cons, hr, if_true]
      exact .bind (.pure _ _) (.bind (.require hr) (.pure _ _))
  | @CallText.parens c t l r x args ts _ ht hl arguments hr, rest, p, _ => by
      have hargs : Reads Syntax.arguments ⟨ts ++ r :: rest, p⟩ args ⟨r :: rest, p⟩ :=
        arguments.reads hr
      obtain ⟨u, us, rfl, hu⟩ := arguments.starts
      refine .succ ?_
      simp only [Syntax.call, List.cons_append, List.append_assoc, List.nil_append] at hargs ⊢
      refine .bind .advance (.bind (.name ht) (.bind (.accept hl) (.peek ?_)))
      simp only [peek_cons, hu, if_false]
      exact .bind hargs (.bind (.require hr) (.pure _ _))

theorem ArgumentsText.reads {args : Arguments} {ts : List Token} :
    ArgumentsText args ts → ∀ {r : Token} {rest : List Token} {p : Pos},
    r.kind = .punct .rparen → Reads arguments ⟨ts ++ r :: rest, p⟩ args ⟨r :: rest, p⟩
  | @ArgumentsText.one e ts h, r, rest, p, hr => by
      have hclose : EndsExpr (TokenStream.mk (r :: rest) p).peek.kind := by
        rw [peek_cons, hr]
        exact endsExpr_punct (.inl rfl)
      have hlast := h.reads hclose.1 (reads_sumTail_nil e hclose.2)
      refine .succ ?_
      simp only [Syntax.arguments]
      exact .bind hlast (.bind (.accept_not (by rw [peek_cons, hr]; simp)) (.pure _ _))
  | @ArgumentsText.cons c e more ts us h hc arguments, r, rest, p, hr => by
      have hcomma : EndsExpr (TokenStream.mk (c :: (us ++ r :: rest)) p).peek.kind := by
        rw [peek_cons, hc]
        exact endsExpr_punct (.inr (.inr rfl))
      have hfirst := h.reads hcomma.1 (reads_sumTail_nil e hcomma.2)
      refine .succ ?_
      simp only [Syntax.arguments, List.append_assoc, List.cons_append]
      exact .bind hfirst (.bind (.accept hc) (.bind (arguments.reads hr) (.pure _ _)))

theorem TermText.reads {e : Expr} {ts : List Token} :
    TermText e ts → ∀ {rest : List Token} {p : Pos},
    EndsFactor (TokenStream.mk rest p).peek.kind → ∀ {d s'},
    Reads (fun n => productTail n e) ⟨rest, p⟩ d s' → Reads term ⟨ts ++ rest, p⟩ d s'
  | .factor h, rest, p, hrest, d, s', htail => by
      refine .succ ?_
      simp only [Syntax.term]
      exact .bind (h.reads hrest) htail
  | @TermText.product op t _ _ ts us lhs hop ht rhs, rest, p, hrest, d, s', htail => by
      have hsign : EndsFactor (TokenStream.mk (t :: (us ++ rest)) p).peek.kind := by
        rw [peek_cons, ht]
        exact endsFactor_sign op
      rw [List.append_assoc, List.cons_append]
      refine lhs.reads hsign (.succ ?_)
      simp only [Syntax.productTail]
      refine .peek ?_
      simp only [peek_cons, ht, productOp?_sign hop]
      exact .bind .advance (.bind (rhs.reads hrest) htail)

theorem ExprText.reads {e : Expr} {ts : List Token} :
    ExprText e ts → ∀ {rest : List Token} {p : Pos},
    EndsTerm (TokenStream.mk rest p).peek.kind → ∀ {d s'},
    Reads (fun n => sumTail n e) ⟨rest, p⟩ d s' → Reads expr ⟨ts ++ rest, p⟩ d s'
  | .term h, rest, p, hrest, d, s', htail => by
      have hterm := h.reads hrest.1 (reads_productTail_nil _ hrest.2)
      refine .succ ?_
      simp only [Syntax.expr]
      exact .bind hterm htail
  | @ExprText.sum op t _ _ ts us lhs hop ht rhs, rest, p, hrest, d, s', htail => by
      have hsign : EndsTerm (TokenStream.mk (t :: (us ++ rest)) p).peek.kind := by
        rw [peek_cons, ht]
        exact ⟨endsFactor_sign op, (sumOp?_sign hop).2⟩
      have hterm := rhs.reads hrest.1 (reads_productTail_nil _ hrest.2)
      rw [List.append_assoc, List.cons_append]
      refine lhs.reads hsign (.succ ?_)
      simp only [Syntax.sumTail]
      refine .peek ?_
      simp only [peek_cons, ht, (sumOp?_sign hop).1]
      exact .bind .advance (.bind hterm htail)

end

section

variable {rest : List Token} {p : Pos}

/-- Reading an expression stops before a token that does not go on with it. -/
theorem ExprText.reads_all {e : Expr} {ts : List Token} (h : ExprText e ts)
    (hrest : EndsExpr (TokenStream.mk rest p).peek.kind) :
    Reads expr ⟨ts ++ rest, p⟩ e ⟨rest, p⟩ :=
  h.reads hrest.1 (reads_sumTail_nil e hrest.2)

theorem RelationText.reads {c : Relation} {ts : List Token} (h : RelationText c ts)
    (hrest : EndsExpr (TokenStream.mk rest p).peek.kind) :
    Reads relation ⟨ts ++ rest, p⟩ c ⟨rest, p⟩ := by
  obtain @⟨op, t, _, _, ts, us, lhs, ht, rhs⟩ := h
  have hsign : EndsExpr (TokenStream.mk (t :: (us ++ rest)) p).peek.kind := by
    rw [peek_cons, ht]
    exact endsExpr_sign op
  rw [List.append_assoc, List.cons_append]
  refine .bind (lhs.reads_all hsign) (.peek ?_)
  simp only [peek_cons, ht, relOp?_sign]
  exact .bind .advance (.bind (rhs.reads_all hrest) (.pure _ _))

/-! Statements. -/

/-- A token that may stand behind a statement. -/
def EndsStmt (k : TokenKind) : Prop := k = .punct .semicolon ∨ k.endsSequence = true

theorem EndsStmt.endsExpr {k : TokenKind} (h : EndsStmt k) :
    EndsExpr k ∧ k.startsExpr = false := by
  rcases h with rfl | h
  · exact ⟨⟨⟨⟨by simp, by simp⟩, rfl⟩, rfl⟩, rfl⟩
  · unfold TokenKind.endsSequence at h
    split at h
    case h_7 => cases h
    all_goals exact ⟨⟨⟨⟨by simp, by simp⟩, rfl⟩, rfl⟩, rfl⟩

theorem not_ends_of_starts {k : TokenKind} (h : k.startsStatement = true) :
    k.endsSequence = false ∧ k ≠ .punct .semicolon := by
  unfold TokenKind.startsStatement at h
  split at h
  case h_6 => cases h
  all_goals exact ⟨rfl, by simp⟩

theorem not_starts_of_ends {k : TokenKind} (h : k.endsSequence = true) :
    k.startsStatement = false ∧ k ≠ .punct .semicolon := by
  unfold TokenKind.endsSequence at h
  split at h
  case h_7 => cases h
  all_goals exact ⟨rfl, by simp⟩

theorem StmtText.starts {s : Stmt} {t : Token} {ts : List Token} (h : StmtText s (t :: ts)) :
    t.kind.startsStatement = true := by
  cases h with
  | call h =>
      obtain ⟨c, us, heq, hc⟩ := h.starts
      obtain ⟨rfl, -⟩ := List.cons.inj heq
      rw [hc]
      rfl
  | assign ht | ifThen ht | ifElse ht | whileDo ht | ret ht | retValue ht =>
      rw [ht]
      rfl

theorem endsSequence_of_eq {t : Token} {k : TokenKind} (ht : t.kind = k)
    (hk : k.endsSequence = true) : (TokenStream.mk (t :: rest) p).peek.kind.endsSequence = true := by
  rw [peek_cons, ht, hk]

theorem endsExpr_of_eq {t : Token} {k : Keyword} (ht : t.kind = .keyword k) :
    EndsExpr (TokenStream.mk (t :: rest) p).peek.kind := by
  rw [peek_cons, ht]
  exact endsExpr_keyword k

end

mutual

theorem StmtText.reads {s : Stmt} {ts : List Token} :
    StmtText s ts → ∀ {rest : List Token} {p : Pos},
    EndsStmt (TokenStream.mk rest p).peek.kind → Reads stmt ⟨ts ++ rest, p⟩ s ⟨rest, p⟩
  | @StmtText.assign l t a x is e ts us hl ht indices ha value, rest, p, hrest => by
      have hindices : Reads Syntax.indices ⟨ts ++ a :: (us ++ rest), p⟩ is ⟨a :: (us ++ rest), p⟩ :=
        indices.reads (by rw [peek_cons, ha]; simp)
      refine .succ ?_
      simp only [Syntax.stmt, List.cons_append, List.append_assoc]
      refine .peek ?_
      simp only [peek_cons, hl]
      exact .bind .advance (.bind (.name ht) (.bind hindices (.bind (.require ha)
        (.bind (value.reads_all hrest.endsExpr.1) (.pure _ _)))))
  | .call h, rest, p, hrest => by
      have hread := h.reads hrest.endsExpr.1.1.1.2
      obtain ⟨c, us, rfl, hc⟩ := h.starts
      refine .succ ?_
      simp only [Syntax.stmt]
      refine .peek ?_
      rw [List.cons_append] at hread ⊢
      simp only [peek_cons, hc]
      exact .bind hread (.pure _ _)
  | @StmtText.ifThen i t f _ _ ts us hi condition ht left hf, rest, p, _ => by
      refine .succ ?_
      simp only [Syntax.stmt, List.cons_append, List.append_assoc, List.nil_append]
      refine .peek ?_
      simp only [peek_cons, hi]
      refine .bind .advance (.bind (condition.reads (endsExpr_of_eq ht)) (.bind (.require ht) ?_))
      refine .bind (left.reads (endsSequence_of_eq hf rfl)) (.peek ?_)
      refine .bind (.accept_not (by rw [peek_cons, hf]; simp)) ?_
      exact .bind (.pure _ _) (.peek (.bind (.require hf) (.pure _ _)))
  | @StmtText.ifElse i t e f _ _ _ ts us vs hi condition ht left he right hf, rest, p, _ => by
      refine .succ ?_
      simp only [Syntax.stmt, List.cons_append, List.append_assoc, List.nil_append]
      refine .peek ?_
      simp only [peek_cons, hi]
      refine .bind .advance (.bind (condition.reads (endsExpr_of_eq ht)) (.bind (.require ht) ?_))
      refine .bind (left.reads (endsSequence_of_eq he rfl)) (.peek (.bind (.accept he) ?_))
      refine .bind (right.reads (endsSequence_of_eq hf rfl)) ?_
      exact .peek (.bind (.require hf) (.pure _ _))
  | @StmtText.whileDo w d o _ _ ts us hw condition hd inside ho, rest, p, _ => by
      refine .succ ?_
      simp only [Syntax.stmt, List.cons_append, List.append_assoc, List.nil_append]
      refine .peek ?_
      simp only [peek_cons, hw]
      refine .bind .advance (.bind (condition.reads (endsExpr_of_eq hd)) (.bind (.require hd) ?_))
      refine .bind (inside.reads (endsSequence_of_eq ho rfl)) ?_
      exact .peek (.bind (.require ho) (.pure _ _))
  | @StmtText.ret r hr, rest, p, hrest => by
      refine .succ ?_
      simp only [Syntax.stmt, List.cons_append, List.nil_append]
      refine .peek ?_
      simp only [peek_cons, hr]
      refine .bind .advance (.peek ?_)
      simp only [hrest.endsExpr.2]
      exact .pure _ _
  | @StmtText.retValue r e ts hr value, rest, p, hrest => by
      have hread := value.reads_all hrest.endsExpr.1
      obtain ⟨u, us, rfl, hu⟩ := value.starts
      refine .succ ?_
      simp only [Syntax.stmt, List.cons_append] at hread ⊢
      refine .peek ?_
      simp only [peek_cons, hr]
      refine .bind .advance (.peek ?_)
      simp only [peek_cons, hu, if_true]
      exact .bind hread (.pure _ _)

theorem SequenceText.reads {q : Sequence} {ts : List Token} :
    SequenceText q ts → ∀ {rest : List Token} {p : Pos},
    (TokenStream.mk rest p).peek.kind.endsSequence = true →
    Reads (fun n => sequence n true) ⟨ts ++ rest, p⟩ q ⟨rest, p⟩
  | .nil, rest, p, hrest => by
      refine .succ ?_
      simp only [Syntax.sequence, List.nil_append]
      refine .peek ?_
      simp only [hrest, if_true]
      exact .pure _ _
  | @SequenceText.skip m q ts hm after, rest, p, hrest => by
      refine .succ ?_
      simp only [Syntax.sequence, List.cons_append]
      refine .peek ?_
      simp only [peek_cons, hm, TokenKind.endsSequence, Bool.false_eq_true, if_false, if_true]
      exact .bind .advance (after.reads hrest)
  | @SequenceText.one t s ts h, rest, p, hrest => by
      have hread := h.reads (.inr hrest)
      have hfirst := not_ends_of_starts h.starts
      have hlast := not_starts_of_ends hrest
      refine .succ ?_
      simp only [Syntax.sequence, List.cons_append] at hread ⊢
      refine .peek ?_
      simp only [peek_cons, hfirst, Bool.false_eq_true, if_false]
      refine .bind hread (.peek ?_)
      simp only [hlast, decide_false, Bool.or_self, Bool.false_eq_true, if_false]
      exact .pure _ _
  | @SequenceText.cons t m s q ts us h hm after, rest, p, hrest => by
      have hread : Reads stmt ⟨t :: (ts ++ m :: (us ++ rest)), p⟩ s ⟨m :: (us ++ rest), p⟩ :=
        h.reads (.inl hm)
      have hfirst := not_ends_of_starts h.starts
      have hnext : Reads (fun n => sequence n false) ⟨m :: (us ++ rest), p⟩ q ⟨rest, p⟩ := by
        refine .succ ?_
        simp only [Syntax.sequence]
        refine .peek ?_
        simp only [peek_cons, hm, TokenKind.endsSequence, Bool.false_eq_true, if_false, if_true]
        exact .bind .advance (after.reads hrest)
      refine .succ ?_
      simp only [Syntax.sequence, List.cons_append, List.append_assoc]
      refine .peek ?_
      simp only [peek_cons, hfirst, Bool.false_eq_true, if_false]
      refine .bind hread (.peek ?_)
      simp only [peek_cons, hm, decide_true, Bool.true_or, if_true]
      exact .bind hnext (.pure _ _)

end

/-! Declarations and computations. -/

theorem NamesText.reads {xs : List Name} {ts : List Token} (h : NamesText xs ts)
    {rest : List Token} {p : Pos} (hrest : (TokenStream.mk rest p).peek.kind ≠ .punct .comma) :
    Reads names ⟨ts ++ rest, p⟩ xs ⟨rest, p⟩ := by
  induction h with
  | one ht =>
      refine .succ ?_
      simp only [Syntax.names]
      exact .bind (.name ht) (.bind (.accept_not hrest) (.pure _ _))
  | cons ht hc _ ih =>
      refine .succ ?_
      simp only [Syntax.names]
      exact .bind (.name ht) (.bind (.accept hc) (.bind ih (.pure _ _)))

theorem NamesText.starts {xs : List Name} {ts : List Token} (h : NamesText xs ts) :
    ∃ t us x, ts = t :: us ∧ t.kind = .ident x := by
  cases h with
  | one ht | cons ht _ _ => exact ⟨_, _, _, rfl, ht⟩

theorem DimensionsText.starts {ds : List Dimension} {ts : List Token} (h : DimensionsText ds ts) :
    ∃ l us, ts = l :: us ∧ l.kind = .punct .lbracket := by
  cases h with
  | one hl _ _ | cons hl _ _ _ => exact ⟨_, _, rfl, hl⟩

theorem DimensionsText.reads {ds : List Dimension} {ts : List Token} (h : DimensionsText ds ts)
    {rest : List Token} {p : Pos} (hrest : (TokenStream.mk rest p).peek.kind ≠ .punct .lbracket) :
    Reads dimensions ⟨ts ++ rest, p⟩ ds ⟨rest, p⟩ := by
  induction h with
  | one hl ht hr =>
      refine .succ ?_
      simp only [Syntax.dimensions, List.cons_append, List.nil_append]
      refine .bind (.require hl) (.peek ?_)
      simp only [peek_cons, ht]
      refine .bind .advance (.bind (.require hr) (.peek ?_))
      simp only [hrest, if_false]
      exact .bind (.pure _ _) (.pure _ _)
  | cons hl ht hr more ih =>
      obtain ⟨l, us, rfl, hopen⟩ := more.starts
      refine .succ ?_
      simp only [Syntax.dimensions, List.cons_append] at ih ⊢
      refine .bind (.require hl) (.peek ?_)
      simp only [peek_cons, ht]
      refine .bind .advance (.bind (.require hr) (.peek ?_))
      simp only [peek_cons, hopen, if_true]
      exact .bind ih (.pure _ _)

theorem VarDeclText.reads {d : VarDecl} {ts : List Token} (h : VarDeclText d ts)
    (rest : List Token) (p : Pos) : Reads varDecl ⟨ts ++ rest, p⟩ d ⟨rest, p⟩ := by
  obtain @⟨m, type, xs, ts, us, htype, hnames, hm⟩ := h
  have hxs : Reads names ⟨us ++ m :: rest, p⟩ xs ⟨m :: rest, p⟩ :=
    hnames.reads (by rw [peek_cons, hm]; simp)
  cases htype with
  | scalar hv =>
      simp only [List.append_assoc, List.cons_append, List.nil_append]
      exact .bind (.accept hv) (.bind (.pure _ _) (.bind hxs (.bind (.require hm) (.pure _ _))))
  | @array a ds ts ha sizes =>
      obtain ⟨t, vs, x, rfl, ht⟩ := hnames.starts
      have hsizes : Reads dimensions ⟨ts ++ t :: (vs ++ m :: rest), p⟩ ds ⟨t :: (vs ++ m :: rest), p⟩ :=
        sizes.reads (by rw [peek_cons, ht]; simp)
      simp only [List.append_assoc, List.cons_append, List.nil_append] at hxs ⊢
      refine .bind (.accept_not (by rw [peek_cons, ha]; simp)) (.bind .advance (.bind hsizes ?_))
      exact .bind (.pure _ _) (.bind hxs (.bind (.require hm) (.pure _ _)))

theorem VarDeclText.starts {d : VarDecl} {ts : List Token} (h : VarDeclText d ts) :
    ∃ t us, ts = t :: us ∧ t.kind.startsVarDecl = true := by
  obtain ⟨htype, -, -⟩ := h
  cases htype with
  | scalar ht | array ht _ => exact ⟨_, _, rfl, by rw [ht]; rfl⟩

theorem reads_varDecls {ds : List VarDecl} {ts : List Token} (h : Each VarDeclText ds ts)
    {rest : List Token} {p : Pos}
    (hrest : (TokenStream.mk rest p).peek.kind.startsVarDecl = false) :
    Reads varDecls ⟨ts ++ rest, p⟩ ds ⟨rest, p⟩ := by
  induction h with
  | nil =>
      refine .succ ?_
      simp only [Syntax.varDecls, List.nil_append]
      refine .peek ?_
      simp only [hrest, Bool.false_eq_true, if_false]
      exact .pure _ _
  | @cons _ _ _ us h _ ih =>
      have hfirst := h.reads (us ++ rest) p
      obtain ⟨t, vs, rfl, ht⟩ := h.starts
      refine .succ ?_
      simp only [Syntax.varDecls, List.append_assoc, List.cons_append] at hfirst ⊢
      refine .peek ?_
      simp only [peek_cons, ht, if_true]
      exact .bind hfirst (.bind ih (.pure _ _))

theorem BodyText.reads {b : Body} {ts : List Token} (h : BodyText b ts) (rest : List Token)
    (p : Pos) : Reads body ⟨ts ++ rest, p⟩ b ⟨rest, p⟩ := by
  obtain @⟨l, r, q, ts, hl, statements, hr⟩ := h
  simp only [List.append_assoc, List.cons_append, List.nil_append]
  refine .peek (.bind (.require hl) (.bind (statements.reads (endsSequence_of_eq hr rfl)) ?_))
  exact .peek (.bind (.require hr) (.pure _ _))

theorem BodyText.starts {b : Body} {ts : List Token} (h : BodyText b ts) :
    ∃ l us, ts = l :: us ∧ l.kind = .punct .lbrace := by
  obtain ⟨hl, -, -⟩ := h
  exact ⟨_, _, rfl, hl⟩

theorem ParametersText.reads {xs : List Name} {ts : List Token} (h : ParametersText xs ts)
    {rest : List Token} {p : Pos} (hrest : (TokenStream.mk rest p).peek.kind ≠ .punct .lparen) :
    Reads parameters ⟨ts ++ rest, p⟩ (xs, .present) ⟨rest, p⟩ := by
  cases h with
  | bare => exact .bind (.accept_not hrest) (.pure _ _)
  | empty hl hr =>
      simp only [List.cons_append, List.nil_append]
      refine .bind (.accept hl) (.peek ?_)
      simp only [peek_cons, hr, if_true]
      exact .bind (.pure _ _) (.bind (.require hr) (.pure _ _))
  | @parens l r _ ts hl names hr =>
      have hxs : Reads Syntax.names ⟨ts ++ r :: rest, p⟩ xs ⟨r :: rest, p⟩ :=
        names.reads (by rw [peek_cons, hr]; simp)
      obtain ⟨t, us, x, rfl, ht⟩ := names.starts
      simp only [List.append_assoc, List.cons_append, List.nil_append] at hxs ⊢
      refine .bind (.accept hl) (.peek ?_)
      simp only [peek_cons, ht, reduceCtorEq, if_false]
      exact .bind hxs (.bind (.require hr) (.pure _ _))

theorem MethodText.reads {d : MethodDecl} {ts : List Token} (h : MethodText d ts)
    (rest : List Token) (p : Pos) : Reads methodDecl ⟨ts ++ rest, p⟩ d ⟨rest, p⟩ := by
  obtain @⟨f, t, m, n, isFunction, x, xs, ds, b, ts, us, vs, hf, ht, parameters, hm, varDecls, body,
    hn⟩ := h
  have hword : decide (f.kind = .keyword .function) = isFunction := by
    rw [hf]
    cases isFunction <;> rfl
  have hbody := body.reads (n :: rest) p
  obtain ⟨l, ws, rfl, hl⟩ := body.starts
  have hdecls : Reads Syntax.varDecls ⟨us ++ (l :: ws ++ n :: rest), p⟩ ds
      ⟨l :: ws ++ n :: rest, p⟩ :=
    reads_varDecls varDecls (by rw [List.cons_append, peek_cons, hl]; rfl)
  have hparameters : Reads Syntax.parameters ⟨ts ++ m :: (us ++ (l :: ws ++ n :: rest)), p⟩
      (xs, .present) ⟨m :: (us ++ (l :: ws ++ n :: rest)), p⟩ :=
    parameters.reads (by rw [peek_cons, hm]; simp)
  simp only [List.append_assoc, List.cons_append, List.nil_append] at hbody hdecls hparameters ⊢
  subst hword
  refine .peek (.bind .advance (.bind (.name ht) (.bind hparameters (.bind (.require hm) ?_))))
  exact .bind hdecls (.bind hbody (.bind (.require hn) (.pure _ _)))

theorem MethodText.starts {d : MethodDecl} {ts : List Token} (h : MethodText d ts) :
    ∃ t us, ts = t :: us ∧ t.kind.startsMethodDecl = true := by
  obtain @⟨f, _, _, _, isFunction, _, _, _, _, _, _, _, hf, _, _, _, _, _, _⟩ := h
  refine ⟨f, _, rfl, ?_⟩
  rw [hf]
  cases isFunction <;> rfl

theorem reads_methodDecls {ms : List MethodDecl} {ts : List Token} (h : Each MethodText ms ts)
    {rest : List Token} {p : Pos}
    (hrest : (TokenStream.mk rest p).peek.kind.startsMethodDecl = false) :
    Reads methodDecls ⟨ts ++ rest, p⟩ ms ⟨rest, p⟩ := by
  induction h with
  | nil =>
      refine .succ ?_
      simp only [Syntax.methodDecls, List.nil_append]
      refine .peek ?_
      simp only [hrest, Bool.false_eq_true, if_false]
      exact .pure _ _
  | @cons _ _ _ us h _ ih =>
      have hfirst := h.reads (us ++ rest) p
      obtain ⟨t, vs, rfl, ht⟩ := h.starts
      refine .succ ?_
      simp only [Syntax.methodDecls, List.append_assoc, List.cons_append] at hfirst ⊢
      refine .peek ?_
      simp only [peek_cons, ht, if_true]
      exact .bind hfirst (.bind ih (.pure _ _))

theorem ComputationText.reads {t : Computation} {ts : List Token} (h : ComputationText t ts)
    (rest : List Token) (p : Pos) :
    ∃ trailing, Reads computation ⟨ts ++ rest, p⟩ { t with trailing := trailing } ⟨rest, p⟩ := by
  obtain @⟨m, q, ds, ms, b, _, ts, us, vs, hm, varDecls, methods, body, hq⟩ := h
  have hbody := body.reads (q :: rest) p
  obtain ⟨l, ws, rfl, hl⟩ := body.starts
  have hmethods : Reads methodDecls ⟨us ++ (l :: ws ++ q :: rest), p⟩ ms ⟨l :: ws ++ q :: rest, p⟩ :=
    reads_methodDecls methods (by rw [List.cons_append, peek_cons, hl]; rfl)
  have hfirst : (TokenStream.mk (us ++ (l :: ws ++ q :: rest)) p).peek.kind.startsVarDecl = false := by
    cases methods with
    | nil =>
        rw [List.nil_append, List.cons_append, peek_cons, hl]
        rfl
    | cons h _ =>
        obtain @⟨f, _, _, _, isFunction, _, _, _, _, _, _, _, hf, _, _, _, _, _, _⟩ := h
        simp only [List.cons_append, peek_cons, hf]
        cases isFunction <;> rfl
  have hdecls := reads_varDecls varDecls hfirst
  simp only [List.append_assoc, List.cons_append, List.nil_append] at hbody hmethods hdecls ⊢
  refine ⟨if (TokenStream.mk rest p).peek.kind = .eof then none else some (TokenStream.mk rest p).peek,
    .bind (.require hm) (.bind hdecls (.bind hmethods (.bind hbody ?_)))⟩
  exact .bind (.require hq) (.peek (.pure _ _))

theorem tokens_ofTokens {tokens : List Token} {last : Token} (hinner : ∀ t ∈ tokens, t.kind ≠ .eof)
    (hlast : last.kind = .eof) : (TokenStream.ofTokens (tokens ++ [last])).tokens = tokens := by
  show List.takeWhile _ _ = _
  rw [List.takeWhile_append_of_pos fun u hu => by simpa using hinner u hu]
  simp [hlast]

/-- The text of a tree is read as this tree, whatever comes behind it. -/
theorem read_sentence {t : Computation} {sentence more : List Token} {last : Token}
    (h : ComputationText t sentence) (hinner : ∀ u ∈ sentence ++ more, u.kind ≠ .eof)
    (hlast : last.kind = .eof) :
    ∃ trailing, read (sentence ++ more ++ [last]) = { t with trailing := trailing } := by
  have htokens := tokens_ofTokens hinner hlast
  obtain ⟨trailing, hreads⟩ := h.reads more (TokenStream.ofTokens (sentence ++ more ++ [last])).endPos
  obtain ⟨n, hread, hn⟩ := (hreads.and (Filter.eventually_ge_atTop _)).exists
  refine ⟨trailing, ?_⟩
  rw [← computation_eq_read _ hn]
  generalize TokenStream.ofTokens (sentence ++ more ++ [last]) = s at htokens hread ⊢
  obtain ⟨_, p⟩ := s
  obtain rfl := htokens
  rw [hread]

end Syntax

end StructuredSsa
