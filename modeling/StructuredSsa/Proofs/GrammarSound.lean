import StructuredSsa.Proofs.Grammar
import StructuredSsa.Proofs.Reading

/-!
# What is taken is text

A tree with nothing missing in it is the tree of the tokens it was read from
(`sentence_of_read`). `Consumes R x Q` says it of one reading function: where
the next token is as `R` says, `x` takes the tokens `ts` off the front and gives
an `a` with `Q a ts`.

How many nested calls a reading function may make does not matter here: one
that may make none gives a tree with something missing, or takes no token.
-/

namespace StructuredSsa

namespace Syntax

variable {α β : Type}

/-- Tokens are taken off the front, and `Q` says which. -/
def Consumes (R : Token → Prop) (x : ReadM α) (Q : α → List Token → Prop) : Prop :=
  ∀ s : TokenStream, R s.peek → ∃ ts, s.tokens = ts ++ (x s).2.tokens ∧ Q (x s).1 ts

namespace Consumes

variable {R : Token → Prop} {Q : α → List Token → Prop}

theorem weaken {R' : Token → Prop} {x : ReadM α} (h : Consumes R x Q) (hR : ∀ t, R' t → R t) :
    Consumes R' x Q :=
  fun s hs => h s (hR _ hs)

theorem any {x : ReadM α} (h : Consumes Any x Q) : Consumes R x Q := h.weaken fun _ _ => trivial

theorem next {x : ReadM α} (h : ∀ t, R t → Consumes (· = t) x Q) : Consumes R x Q :=
  fun s hs => h s.peek hs s rfl

theorem pure {a : α} (h : Q a []) : Consumes R (Pure.pure a) Q := fun _ _ => ⟨[], rfl, h⟩

theorem bind {P : α → List Token → Prop} {x : ReadM α} {f : α → ReadM β}
    {Q : β → List Token → Prop} (hx : Consumes R x P)
    (hf : ∀ a ts, P a ts → Consumes Any (f a) fun b us => Q b (ts ++ us)) :
    Consumes R (x >>= f) Q := by
  intro s hs
  obtain ⟨ts, htokens, hP⟩ := hx s hs
  obtain ⟨us, hrest, hQ⟩ := hf _ ts hP (x s).2 trivial
  refine ⟨ts ++ us, ?_, hQ⟩
  rw [htokens, hrest, List.append_assoc]
  rfl

/-- Taking nothing leaves the next token as it was. -/
theorem skip {a : β} {f : β → ReadM α} (h : Consumes R (f a) Q) :
    Consumes R (Pure.pure a >>= f) Q := h

theorem peek {f : Token → ReadM α} (h : ∀ t, R t → Consumes (· = t) (f t) Q) :
    Consumes R (Syntax.peek >>= f) Q :=
  fun s hs => h s.peek hs s rfl

/-- Nothing of the next token is known any more once it is taken. -/
theorem advance {f : Unit → ReadM α} {t : Token} {kind : TokenKind} (ht : t.kind = kind)
    (h : Consumes Any (f ()) fun b us => Q b (t :: us)) (hkind : kind ≠ .eof := by simp) :
    Consumes (· = t) (Syntax.advance >>= f) Q := by
  rintro ⟨tokens, endPos⟩ rfl
  cases tokens with
  | nil => exact absurd ht.symm hkind
  | cons t rest =>
      obtain ⟨us, hrest, hQ⟩ := h ⟨rest, endPos⟩ trivial
      exact ⟨t :: us, congrArg (t :: ·) hrest, hQ⟩

theorem accept {kind : TokenKind} {f : Bool → ReadM α}
    (hyes : ∀ t, R t → t.kind = kind → Consumes Any (f true) fun b us => Q b (t :: us))
    (hno : Consumes (fun t => R t ∧ t.kind ≠ kind) (f false) Q)
    (hkind : kind ≠ .eof := by simp) :
    Consumes R (Syntax.accept kind >>= f) Q := by
  intro s hs
  rw [accept_bind]
  split
  · next h => exact advance (f := fun _ => f true) h (hyes _ hs h) hkind s rfl
  · next h => exact hno s ⟨hs, h⟩

theorem require {kind : TokenKind} (hkind : kind ≠ .eof := by simp) :
    Consumes R (Syntax.require kind) fun m ts =>
      m = .present → ∃ t, R t ∧ t.kind = kind ∧ ts = [t] :=
  peek fun t ht => accept (fun u hu hk => pure fun _ => ⟨t, ht, hu ▸ hk, by rw [hu]⟩)
    (pure fun h => by cases h) hkind

theorem name : Consumes R Syntax.name fun x ts =>
    x.Whole → ∃ t text, R t ∧ t.kind = .ident text ∧ x = .ident text t.pos ∧ ts = [t] := by
  refine peek fun t ht => ?_
  split
  · next text h => exact advance h (pure fun _ => ⟨t, text, ht, h, rfl, rfl⟩)
  · exact pure fun h => h.elim

end Consumes

theorem sign_of_sumOp? {k : TokenKind} {op : ArithOp} (h : k.sumOp? = some op) :
    (op = .add ∨ op = .sub) ∧ k = .punct op.sign := by
  unfold TokenKind.sumOp? at h
  split at h <;> cases h
  · exact ⟨.inl rfl, rfl⟩
  · exact ⟨.inr rfl, rfl⟩

theorem sign_of_productOp? {k : TokenKind} {op : ArithOp} (h : k.productOp? = some op) :
    (op = .mul ∨ op = .div) ∧ k = .punct op.sign := by
  unfold TokenKind.productOp? at h
  split at h <;> cases h
  · exact ⟨.inl rfl, rfl⟩
  · exact ⟨.inr rfl, rfl⟩

theorem sign_of_relOp? {k : TokenKind} {op : RelOp} (h : k.relOp? = some op) :
    k = .punct op.sign := by
  unfold TokenKind.relOp? at h
  split at h <;> cases h <;> rfl

/-- What the functions that read expressions take, with `n` nested calls. The
tails go on with a text that has been taken already. -/
structure ExprsTaken (n : Nat) : Prop where
  expr : Consumes Any (expr n) fun e ts => e.Whole → ExprText e ts
  sumTail : ∀ lhs ts, (lhs.Whole → ExprText lhs ts) →
    Consumes Any (sumTail n lhs) fun e us => e.Whole → ExprText e (ts ++ us)
  term : Consumes Any (term n) fun e ts => e.Whole → TermText e ts
  productTail : ∀ lhs ts, (lhs.Whole → TermText lhs ts) →
    Consumes Any (productTail n lhs) fun e us => e.Whole → TermText e (ts ++ us)
  factor : Consumes Any (factor n) fun e ts => e.Whole → FactorText e ts
  indices : Consumes Any (indices n) fun is ts => is.Whole → IndicesText is ts
  call : Consumes (·.kind = .keyword .call) (call n) fun r ts =>
    r.1.Whole → r.2.1.Whole → r.2.2 = .present → CallText r.1 r.2.1 ts
  arguments : Consumes Any (arguments n) fun args ts => args.Whole → ArgumentsText args ts

theorem exprsTaken_zero : ExprsTaken 0 where
  expr := .peek fun _ _ => .pure fun h => h.elim
  sumTail lhs ts h := .pure (by simpa using h)
  term := .peek fun _ _ => .pure fun h => h.elim
  productTail lhs ts h := .pure (by simpa using h)
  factor := .peek fun _ _ => .pure fun h => h.elim
  indices := .pure fun _ => .nil
  call := .peek fun _ _ => .pure fun h => h.elim
  arguments := .peek fun _ _ => .pure fun h => h.1.elim

theorem exprsTaken_succ {n : Nat} (ih : ExprsTaken n) : ExprsTaken (n + 1) where
  expr := by
    rw [Syntax.expr]
    exact .bind ih.term fun lhs ts hlhs => ih.sumTail lhs ts fun h => .term (hlhs h)
  sumTail lhs ts hlhs := by
    rw [Syntax.sumTail]
    refine .peek fun t _ => ?_
    split
    · exact .pure (by simpa using hlhs)
    · next op hop =>
        obtain ⟨hsum, ht⟩ := sign_of_sumOp? hop
        refine .advance ht (.bind ih.term fun rhs us hrhs => ?_)
        have hboth : (Expr.arith op lhs rhs t.pos.line).Whole →
            ExprText (.arith op lhs rhs t.pos.line) (ts ++ t :: us) :=
          fun h => .sum (hlhs h.1) hsum ht (hrhs h.2)
        simpa using ih.sumTail _ _ hboth
  term := by
    rw [Syntax.term]
    exact .bind ih.factor fun lhs ts hlhs => ih.productTail lhs ts fun h => .factor (hlhs h)
  productTail lhs ts hlhs := by
    rw [Syntax.productTail]
    refine .peek fun t _ => ?_
    split
    · exact .pure (by simpa using hlhs)
    · next op hop =>
        obtain ⟨hproduct, ht⟩ := sign_of_productOp? hop
        refine .advance ht (.bind ih.factor fun rhs us hrhs => ?_)
        have hboth : (Expr.arith op lhs rhs t.pos.line).Whole →
            TermText (.arith op lhs rhs t.pos.line) (ts ++ t :: us) :=
          fun h => .product (hlhs h.1) hproduct ht (hrhs h.2)
        simpa using ih.productTail _ _ hboth
  factor := by
    rw [Syntax.factor]
    refine .peek fun t _ => ?_
    split
    · refine .bind .name fun x ts hx => .bind ih.indices fun is us his => .pure fun h => ?_
      obtain ⟨u, text, rfl, hu, rfl, rfl⟩ := hx h.1
      simpa using FactorText.designator hu (his h.2)
    · next k hk => exact .advance hk (.pure fun _ => .number hk)
    · split
      · next hl =>
          refine .advance hl (.bind ih.expr fun e ts he => ?_)
          refine .bind .require fun close us hclose => .pure fun h => ?_
          obtain ⟨r, -, hr, rfl⟩ := hclose h.2
          obtain rfl := h.2
          simpa using FactorText.group hl (he h.1) hr
      · split
        · next hc =>
            refine .bind (ih.call.weaken fun _ hu => hu ▸ hc) ?_
            rintro ⟨x, args, close⟩ ts hcall
            refine .pure fun h => ?_
            obtain rfl := h.2.2
            simpa using FactorText.call (hcall h.1 h.2.1 rfl)
        · exact .pure fun h => h.elim
  indices := by
    rw [Syntax.indices]
    refine .accept (fun l _ hl => ?_) (.pure fun _ => .nil)
    refine .bind ih.expr fun e ts he => .bind .require fun close us hclose => ?_
    refine .bind ih.indices fun rest vs hrest => .pure fun h => ?_
    obtain ⟨r, -, hr, rfl⟩ := hclose h.2.1
    obtain rfl := h.2.1
    simpa using IndicesText.cons hl (he h.1) hr (hrest h.2.2)
  call := by
    rw [Syntax.call]
    refine .next fun c hs => .advance hs ?_
    refine .bind .name fun x ts hx => .accept (fun l _ hl => .peek fun u _ => ?_) ?_
    · split
      · refine .bind (P := fun args us => args = .nil ∧ us = []) (.pure ⟨rfl, rfl⟩) ?_
        rintro args us ⟨rfl, rfl⟩
        refine .bind .require fun close vs hclose => .pure fun hname _ hpresent => ?_
        obtain ⟨t, text, -, ht, rfl, rfl⟩ := hx hname
        obtain ⟨r, -, hr, rfl⟩ := hclose hpresent
        exact .empty hs ht hl hr
      · refine .bind ih.arguments.any fun args us hargs => ?_
        refine .bind .require fun close vs hclose => .pure fun hname hwhole hpresent => ?_
        obtain ⟨t, text, -, ht, rfl, rfl⟩ := hx hname
        obtain ⟨r, -, hr, rfl⟩ := hclose hpresent
        simpa using CallText.parens hs ht hl (hargs hwhole) hr
    · refine .pure fun hname _ _ => ?_
      obtain ⟨t, text, -, ht, rfl, rfl⟩ := hx hname
      exact .bare hs ht
  arguments := by
    rw [Syntax.arguments]
    refine .bind ih.expr fun e ts he => .accept (fun c _ hc => ?_) ?_
    · refine .bind ih.arguments fun rest us hrest => .pure fun h => ?_
      simpa using ArgumentsText.cons (he h.1) hc (hrest h.2)
    · refine .pure fun h => ?_
      simpa using ArgumentsText.one (he h.1)

theorem exprsTaken : ∀ n, ExprsTaken n
  | 0 => exprsTaken_zero
  | n + 1 => exprsTaken_succ (exprsTaken n)

theorem relation_taken (n : Nat) :
    Consumes Any (relation n) fun c ts => c.Whole → RelationText c ts := by
  refine .bind (exprsTaken n).expr fun lhs ts hlhs => .peek fun t _ => ?_
  split
  · exact .pure fun h => h.elim
  · next op hop =>
      have ht := sign_of_relOp? hop
      refine .advance ht (.bind (exprsTaken n).expr fun rhs us hrhs => .pure fun h => ?_)
      simpa using RelationText.compare (hlhs h.1) ht (hrhs h.2)

/-- What the functions that read statements take. Behind a statement, a sequence
is whole only if it is empty or starts with a semicolon. -/
structure StmtsTaken (n : Nat) : Prop where
  stmt : Consumes Any (stmt n) fun s ts => s.Whole → StmtText s ts
  sequence : Consumes Any (sequence n true) fun q ts => q.Whole → SequenceText q ts
  following : Consumes Any (Syntax.sequence n false) fun q ts => q.Whole →
    q = .nil ∧ ts = [] ∨ ∃ m us, m.kind = .punct .semicolon ∧ ts = m :: us ∧ SequenceText q us

theorem stmtsTaken_zero : StmtsTaken 0 where
  stmt := .peek fun _ _ => .pure fun h => h.elim
  sequence := .pure fun _ => .nil
  following := .pure fun _ => .inl ⟨rfl, rfl⟩

theorem StmtText.ne_nil {s : Stmt} {ts : List Token} (h : StmtText s ts) : ts ≠ [] := by
  cases h with
  | call h => cases h <;> simp
  | _ => simp

/-- The first token of what is taken is the next one. -/
theorem Consumes.head {R : Token → Prop} {x : ReadM α} {Q : α → List Token → Prop} {t : Token}
    (h : Consumes R x Q) (ht : R t) :
    Consumes (· = t) x fun a ts => Q a ts ∧ (ts ≠ [] → ∃ us, ts = t :: us) := by
  rintro s rfl
  obtain ⟨ts, htokens, hQ⟩ := h s ht
  refine ⟨ts, htokens, hQ, fun hne => ?_⟩
  obtain ⟨u, us, rfl⟩ := List.exists_cons_of_ne_nil hne
  exact ⟨us, by simp [TokenStream.peek, htokens]⟩

theorem passOver_consumes {R : Token → Prop} : Consumes R passOver fun _ _ => True :=
  fun _ _ => ⟨_, (List.takeWhile_append_dropWhile ..).symm, trivial⟩

theorem stmt_taken_succ {n : Nat} (ih : StmtsTaken n) :
    Consumes Any (stmt (n + 1)) fun s ts => s.Whole → StmtText s ts := by
  rw [Syntax.stmt]
  refine .peek fun t _ => ?_
  split
  · next hl =>
      refine .advance hl (.bind .name fun x ts hx => ?_)
      refine .bind (exprsTaken n).indices fun is us his => .bind .require fun arrow vs harrow => ?_
      refine .bind (exprsTaken n).expr fun e ws he => .pure fun h => ?_
      obtain ⟨u, text, -, hu, rfl, rfl⟩ := hx h.1
      obtain ⟨a, -, ha, rfl⟩ := harrow h.2.2.1
      obtain rfl := h.2.2.1
      simpa using StmtText.assign hl hu (his h.2.1) ha (he h.2.2.2)
  · next hc =>
      refine .bind ((exprsTaken n).call.weaken fun _ hu => hu ▸ hc) ?_
      rintro ⟨x, args, close⟩ ts hcall
      refine .pure fun h => ?_
      obtain rfl := h.2.2
      simpa using StmtText.call (hcall h.1 h.2.1 rfl)
  · next hi =>
      refine .advance hi (.bind (relation_taken n) fun c ts hc => ?_)
      refine .bind .require fun thenMark us hthen => .bind ih.sequence fun yes vs hyes => ?_
      refine .peek fun e _ => .accept (fun e' he' hk => ?_) ?_
      · refine .bind ih.sequence fun no ws hno => .peek fun f _ => ?_
        refine .bind .require fun fi xs hfi => .pure fun h => ?_
        obtain ⟨u, -, hu, rfl⟩ := hthen h.2.1
        obtain ⟨f, rfl, hf, rfl⟩ := hfi h.2.2.2.2
        obtain rfl := he'
        obtain rfl := h.2.1
        obtain rfl := h.2.2.2.2
        simpa using StmtText.ifElse hi (hc h.1) hu (hyes h.2.2.1) hk (hno h.2.2.2.1) hf
      · -- Without `else`, the token behind the first part is the one at the end.
        refine .skip (.peek fun f hf => .bind .require fun fi xs hfi => .pure fun h => ?_)
        obtain ⟨u, -, hu, rfl⟩ := hthen h.2.1
        obtain ⟨f, rfl, hend, rfl⟩ := hfi h.2.2.2.2
        obtain rfl := hf.1
        obtain rfl := h.2.1
        obtain rfl := h.2.2.2.2
        simpa using StmtText.ifThen hi (hc h.1) hu (hyes h.2.2.1) hend
  · next hw =>
      refine .advance hw (.bind (relation_taken n) fun c ts hc => ?_)
      refine .bind .require fun doMark us hdo => .bind ih.sequence fun body vs hbody => ?_
      refine .peek fun o _ => .bind .require fun od ws hod => .pure fun h => ?_
      obtain ⟨d, -, hd, rfl⟩ := hdo h.2.1
      obtain ⟨o, rfl, ho, rfl⟩ := hod h.2.2.2
      obtain rfl := h.2.1
      obtain rfl := h.2.2.2
      simpa using StmtText.whileDo hw (hc h.1) hd (hbody h.2.2.1) ho
  · next hr =>
      refine .advance hr (.peek fun u _ => ?_)
      split
      · refine .bind (exprsTaken n).expr.any fun e ts he => .pure fun h => ?_
        simpa using StmtText.retValue hr (he h)
      · exact .pure fun _ => .ret hr
  · exact .bind passOver_consumes fun _ _ _ => .pure fun h => h.elim

theorem stmtsTaken_succ {n : Nat} (ih : StmtsTaken n) : StmtsTaken (n + 1) where
  stmt := stmt_taken_succ ih
  sequence := by
    rw [Syntax.sequence]
    refine .peek fun t _ => ?_
    split
    · exact .pure fun _ => .nil
    · split
      · next hm =>
          refine .advance hm fun s hs => ?_
          obtain ⟨ts, htokens, hq⟩ := ih.sequence s hs
          exact ⟨ts, htokens, fun h => .skip hm (hq h)⟩
      · refine .bind (ih.stmt.head trivial) fun s ts hs => .peek fun u _ => ?_
        have hfirst (h : s.Whole) : ∃ us, ts = t :: us := hs.2 (hs.1 h).ne_nil
        dsimp only
        split
        · refine .bind ih.following.any fun rest us hrest => .pure fun h => ?_
          obtain ⟨vs, rfl⟩ := hfirst h.2.1
          obtain ⟨rfl, rfl⟩ | ⟨m, ws, hm, rfl, hafter⟩ := hrest h.2.2
          · simpa using SequenceText.one (hs.1 h.2.1)
          · simpa using SequenceText.cons (hs.1 h.2.1) hm hafter
        · refine .pure fun h => ?_
          obtain ⟨vs, rfl⟩ := hfirst h.2.1
          simpa using SequenceText.one (hs.1 h.2.1)
  following := by
    rw [Syntax.sequence]
    refine .peek fun t _ => ?_
    split
    · exact .pure fun _ => .inl ⟨rfl, rfl⟩
    · split
      · next hm =>
          refine .advance hm fun s hs => ?_
          obtain ⟨ts, htokens, hq⟩ := ih.sequence s hs
          exact ⟨ts, htokens, fun h => .inr ⟨t, ts, hm, rfl, hq h⟩⟩
      · refine .bind ih.stmt.any fun s ts hs => .peek fun u _ => ?_
        dsimp only
        split
        · exact .bind ih.following.any fun rest us hrest => .pure fun h => absurd h.1 Bool.false_ne_true
        · exact .pure fun h => absurd h.1 Bool.false_ne_true

theorem stmtsTaken : ∀ n, StmtsTaken n
  | 0 => stmtsTaken_zero
  | n + 1 => stmtsTaken_succ (stmtsTaken n)

/-! Declarations. -/

theorem dimensions_taken : ∀ n, Consumes Any (dimensions n) fun ds ts =>
    (∀ d ∈ ds, d.Whole) → DimensionsText ds ts
  | 0 => .peek fun _ _ => .pure fun h => (h _ (List.mem_singleton_self _)).elim
  | n + 1 => by
      rw [Syntax.dimensions]
      refine .bind .require fun opening ts hopening => .peek fun t _ => ?_
      split
      · next k hk =>
          refine .advance hk (.bind .require fun close us hclose => .peek fun u _ => ?_)
          split
          · refine .bind (dimensions_taken n).any fun ds vs hds => .pure fun h => ?_
            obtain ⟨⟨rfl, rfl⟩, hmore⟩ := List.forall_mem_cons.1 h
            obtain ⟨l, -, hl, rfl⟩ := hopening rfl
            obtain ⟨r, -, hr, rfl⟩ := hclose rfl
            simpa using DimensionsText.cons hl hk hr (hds hmore)
          · refine .skip (.pure fun h => ?_)
            obtain ⟨rfl, rfl⟩ := List.forall_mem_singleton.1 h
            obtain ⟨l, -, hl, rfl⟩ := hopening rfl
            obtain ⟨r, -, hr, rfl⟩ := hclose rfl
            exact .one hl hk hr
      · exact .pure fun h => (h _ (List.mem_singleton_self _)).elim

theorem names_taken : ∀ n, Consumes Any (names n) fun xs ts =>
    (∀ x ∈ xs, x.Whole) → NamesText xs ts
  | 0 => .peek fun _ _ => .pure fun h => (h _ (List.mem_singleton_self _)).elim
  | n + 1 => by
      rw [Syntax.names]
      refine .bind .name fun x ts hx => ?_
      split
      · exact .pure fun h => (h _ (List.mem_singleton_self _)).elim
      · refine .accept (fun c _ hc => ?_) ?_
        · refine .bind (names_taken n) fun xs us hxs => .pure fun h => ?_
          obtain ⟨t, text, -, ht, rfl, rfl⟩ := hx (h _ List.mem_cons_self)
          simpa using NamesText.cons ht hc (hxs (List.forall_mem_cons.1 h).2)
        · refine .pure fun h => ?_
          obtain ⟨t, text, -, ht, rfl, rfl⟩ := hx (h _ List.mem_cons_self)
          exact .one ht

theorem array_of_startsVarDecl {k : TokenKind} (h : k.startsVarDecl = true)
    (hvar : k ≠ .keyword .var) : k = .keyword .array := by
  unfold TokenKind.startsVarDecl at h
  split at h
  · exact absurd rfl hvar
  · rfl
  · cases h

theorem varDecl_taken (n : Nat) :
    Consumes (·.kind.startsVarDecl = true) (varDecl n) fun d ts => d.Whole → VarDeclText d ts := by
  have hrest (type : TypeDecl) (ts : List Token) (htype : type.Whole → TypeText type ts) :
      Consumes Any (do
        let xs ← names n
        return ⟨type, xs, ← require (.punct .semicolon)⟩ : ReadM VarDecl)
      fun d us => d.Whole → VarDeclText d (ts ++ us) := by
    refine .bind (names_taken n) fun xs us hxs => .bind .require fun semicolon vs hsemicolon => ?_
    refine .pure fun h => ?_
    obtain ⟨hdecl, hnames, rfl⟩ := h
    obtain ⟨m, -, hm, rfl⟩ := hsemicolon rfl
    simpa using VarDeclText.intro (htype hdecl) (hxs hnames) hm
  refine .accept (fun v _ hv => hrest .scalar [v] fun _ => .scalar hv) (.next fun a ha => ?_)
  have harray := array_of_startsVarDecl ha.1 ha.2
  exact .advance harray (.bind (dimensions_taken n) fun ds ts hds =>
    hrest (.array ds) (a :: ts) fun h => .array harray (hds h))

theorem varDecls_taken : ∀ n, Consumes Any (varDecls n) fun ds ts =>
    (∀ d ∈ ds, d.Whole) → Each VarDeclText ds ts
  | 0 => .pure fun _ => .nil
  | n + 1 => by
      rw [Syntax.varDecls]
      refine .peek fun t _ => ?_
      split
      · next ht =>
          refine .bind ((varDecl_taken n).weaken fun _ hu => hu ▸ ht) fun d ts hd => ?_
          refine .bind (varDecls_taken n) fun ds us hds => .pure fun h => ?_
          obtain ⟨hfirst, hmore⟩ := List.forall_mem_cons.1 h
          simpa using Each.cons (hd hfirst) (hds hmore)
      · exact .pure fun _ => .nil

theorem body_taken (n : Nat) : Consumes Any (body n) fun b ts => b.Whole → BodyText b ts := by
  refine .peek fun l _ => .bind .require fun opening ts hopening => ?_
  refine .bind (stmtsTaken n).sequence fun q us hq => .peek fun r _ => ?_
  refine .bind .require fun closing vs hclosing => .pure fun h => ?_
  obtain ⟨rfl, hwhole, rfl⟩ := h
  obtain ⟨l, rfl, hl, rfl⟩ := hopening rfl
  obtain ⟨r, rfl, hr, rfl⟩ := hclosing rfl
  simpa using BodyText.intro hl (hq hwhole) hr

theorem parameters_taken (n : Nat) : Consumes Any (parameters n) fun r ts =>
    (∀ x ∈ r.1, x.Whole) → r.2 = .present → ParametersText r.1 ts := by
  refine .accept (fun l _ hl => .peek fun u _ => ?_) (.pure fun _ _ => .bare)
  split
  · refine .skip (.bind .require fun close ts hclose => .pure fun _ h => ?_)
    obtain ⟨r, -, hr, rfl⟩ := hclose h
    exact .empty hl hr
  · refine .bind (names_taken n).any fun xs ts hxs => ?_
    refine .bind .require fun close us hclose => .pure fun hnames h => ?_
    obtain ⟨r, -, hr, rfl⟩ := hclose h
    simpa using ParametersText.parens hl (hxs hnames) hr

theorem kind_of_startsMethodDecl {k : TokenKind} (h : k.startsMethodDecl = true) :
    k = .keyword (methodWord (decide (k = .keyword .function))) := by
  unfold TokenKind.startsMethodDecl at h
  split at h
  · simp [methodWord]
  · simp [methodWord]
  · cases h

theorem methodDecl_taken (n : Nat) :
    Consumes (·.kind.startsMethodDecl = true) (methodDecl n) fun d ts =>
      d.Whole → MethodText d ts := by
  refine .peek fun f hf => .advance (kind_of_startsMethodDecl hf) (.bind .name fun x ts hx => ?_)
  refine .bind (parameters_taken n) ?_
  rintro ⟨xs, close⟩ us hxs
  refine .bind .require fun semicolon vs hsemicolon => .bind (varDecls_taken n) fun ds ws hds => ?_
  refine .bind (body_taken n) fun b xs' hb => .bind .require fun terminator ys hterminator => ?_
  refine .pure fun h => ?_
  obtain ⟨hname, hparameters, hclose, hsemi, hdecls, hbody, hend⟩ := h
  obtain ⟨t, text, -, ht, rfl, rfl⟩ := hx hname
  obtain ⟨m, -, hm, rfl⟩ := hsemicolon hsemi
  obtain ⟨k, -, hk, rfl⟩ := hterminator hend
  obtain rfl := hclose
  obtain rfl := hsemi
  obtain rfl := hend
  simpa using MethodText.intro (kind_of_startsMethodDecl hf) ht (hxs hparameters rfl) hm
    (hds hdecls) (hb hbody) hk

theorem methodDecls_taken : ∀ n, Consumes Any (methodDecls n) fun ms ts =>
    (∀ m ∈ ms, m.Whole) → Each MethodText ms ts
  | 0 => .pure fun _ => .nil
  | n + 1 => by
      rw [Syntax.methodDecls]
      refine .peek fun t _ => ?_
      split
      · next ht =>
          refine .bind ((methodDecl_taken n).weaken fun _ hu => hu ▸ ht) fun m ts hm => ?_
          refine .bind (methodDecls_taken n) fun ms us hms => .pure fun h => ?_
          obtain ⟨hfirst, hmore⟩ := List.forall_mem_cons.1 h
          simpa using Each.cons (hm hfirst) (hms hmore)
      · exact .pure fun _ => .nil

theorem computation_taken (n : Nat) :
    Consumes Any (computation n) fun t ts => t.Whole → ComputationText t ts := by
  refine .bind .require fun main ts hmain => .bind (varDecls_taken n) fun ds us hds => ?_
  refine .bind (methodDecls_taken n) fun ms vs hms => .bind (body_taken n) fun b ws hb => ?_
  refine .bind .require fun period xs hperiod => .peek fun t _ => .pure fun h => ?_
  obtain ⟨rfl, hdecls, hmethods, hbody, rfl⟩ := h
  obtain ⟨m, -, hm, rfl⟩ := hmain rfl
  obtain ⟨p, -, hp, rfl⟩ := hperiod rfl
  simpa using ComputationText.intro hm (hds hdecls) (hms hmethods) (hb hbody) hp

/-- A tree with nothing missing is the tree of the tokens it was read from. -/
theorem sentence_of_read {tokens : List Token} (h : (read tokens).Whole) :
    ∃ sentence more, (TokenStream.ofTokens tokens).tokens = sentence ++ more ∧
      ComputationText (read tokens) sentence := by
  obtain ⟨ts, htokens, htext⟩ := computation_taken _ (.ofTokens tokens) trivial
  exact ⟨ts, _, htokens, htext h⟩

end Syntax

end StructuredSsa
