import StructuredSsa.Syntax.Reader

/-!
# Reading does not run out

The functions that read syntax trees take the number of nested calls they may
make. `read` gives them four for each token, and a few more; here this is shown
to be enough, in the sense that any larger number gives the same tree.

A call of a reading function is paid by a token where it comes after one, and
the chains of calls between two tokens are short. So the statement for each
function has its own small constant besides four times the number of tokens
(`Steady`), and one step of the recursion keeps all of them.

The tokens left to read are those from an index on in a list that ends with an end
marker (`Stands`). The index only goes on, and stays in the list (`Passes`).
-/

namespace StructuredSsa

namespace Syntax

variable {α β : Type}

/-- On at most `k` tokens, the next of them as `R` says, `x` and `y` read the
same, and at least `d` tokens. -/
def Agree (R : Token → Prop) (k d : Nat) (x y : ReadM α) : Prop :=
  ∀ s : TokenStream, s.tokens.length ≤ k → R s.peek →
    x s = y s ∧ (x s).2.tokens.length + d ≤ s.tokens.length

/-- Whatever the next token. -/
def Any (_ : Token) : Prop := True

namespace Agree

variable {R : Token → Prop} {k d : Nat}

theorem any {x y : ReadM α} (h : Agree Any k d x y) : Agree R k d x y :=
  fun s hs _ => h s hs trivial

theorem relax {x y : ReadM α} (h : Agree R k d x y) : Agree R k 0 x y := by
  intro s hs hR
  obtain ⟨heq, hlen⟩ := h s hs hR
  exact ⟨heq, by omega⟩

theorem pure (a : α) : Agree R k 0 (Pure.pure a) (Pure.pure a) :=
  fun _ _ _ => ⟨rfl, Nat.le_refl _⟩

theorem bind {x x' : ReadM α} {f f' : α → ReadM β} (hx : Agree R k d x x')
    (hf : ∀ a j, j + d ≤ k → Agree Any j 0 (f a) (f' a)) : Agree R k d (x >>= f) (x' >>= f') := by
  intro s hs hR
  obtain ⟨heq, hlen⟩ := hx s hs hR
  obtain ⟨heq', hlen'⟩ := hf (x s).1 (x s).2.tokens.length (by omega) (x s).2 (Nat.le_refl _) trivial
  refine ⟨?_, ?_⟩
  · show f (x s).1 (x s).2 = f' (x' s).1 (x' s).2
    rw [← heq]
    exact heq'
  · show (f (x s).1 (x s).2).2.tokens.length + d ≤ _
    omega

theorem ite {p : Prop} [Decidable p] {x x' y y' : ReadM α} (hx : p → Agree R k d x x')
    (hy : ¬ p → Agree R k d y y') : Agree R k d (if p then x else y) (if p then x' else y') := by
  split
  · exact hx ‹_›
  · exact hy ‹_›

/-! ## Single tokens -/

theorem peek {f f' : Token → ReadM β} (h : ∀ t, R t → Agree (· = t) k d (f t) (f' t)) :
    Agree R k d (Syntax.peek >>= f) (Syntax.peek >>= f') :=
  fun s hs hR => h s.peek hR s hs rfl

end Agree

/-- A token that is not the end marker can be taken. -/
theorem length_advance {s : TokenStream} (h : s.peek.kind ≠ .eof) :
    s.advance.tokens.length + 1 = s.tokens.length := by
  unfold TokenStream.peek at h
  unfold TokenStream.advance
  cases htokens : s.tokens with
  | nil =>
      rw [htokens] at h
      exact absurd rfl h
  | cons t rest => rfl

theorem length_advance_le (s : TokenStream) : s.advance.tokens.length ≤ s.tokens.length := by
  show s.tokens.tail.length ≤ _
  rw [List.length_tail]
  omega

theorem accept_bind (kind : TokenKind) (f : Bool → ReadM β) (s : TokenStream) :
    (accept kind >>= f) s = if s.peek.kind = kind then f true s.advance else f false s := by
  show (do
    if s.peek.kind = kind then
      advance
      return true
    else
      return false : ReadM Bool).bind f s = _
  split <;> rfl

namespace Agree

variable {R : Token → Prop} {k : Nat}

theorem advance {f f' : Unit → ReadM β} (hR : ∀ t, R t → t.kind ≠ .eof)
    (h : ∀ j, j + 1 ≤ k → Agree Any j 0 (f ()) (f' ())) :
    Agree R k 1 (Syntax.advance >>= f) (Syntax.advance >>= f') := by
  intro s hs hs'
  have hlen := length_advance (hR _ hs')
  obtain ⟨heq, hlen'⟩ := h s.advance.tokens.length (by omega) s.advance (Nat.le_refl _) trivial
  refine ⟨heq, ?_⟩
  show (f () s.advance).2.tokens.length + 1 ≤ _
  omega

theorem skip : Agree R k 0 Syntax.advance Syntax.advance :=
  fun s _ _ => ⟨rfl, length_advance_le s⟩

/-- A token that is accepted is taken. -/
theorem acceptOr {kind : TokenKind} {d : Nat} (hd : d ≤ 1) {f f' : Bool → ReadM β}
    (hkind : kind ≠ .eof) (hyes : ∀ j, j + 1 ≤ k → Agree Any j 0 (f true) (f' true))
    (hno : Agree R k d (f false) (f' false)) :
    Agree R k d (Syntax.accept kind >>= f) (Syntax.accept kind >>= f') := by
  intro s hs hR
  rw [accept_bind, accept_bind]
  split
  · next h =>
      have hlen := length_advance (s := s) (h ▸ hkind)
      obtain ⟨heq, hlen'⟩ := hyes s.advance.tokens.length (by omega) s.advance (Nat.le_refl _) trivial
      exact ⟨heq, by omega⟩
  · exact hno s hs hR

theorem accept {kind : TokenKind} {f f' : Bool → ReadM β} (hkind : kind ≠ .eof)
    (hyes : ∀ j, j + 1 ≤ k → Agree Any j 0 (f true) (f' true))
    (hno : Agree R k 0 (f false) (f' false)) :
    Agree R k 0 (Syntax.accept kind >>= f) (Syntax.accept kind >>= f') :=
  acceptOr (Nat.zero_le 1) hkind hyes hno

theorem require {kind : TokenKind} (hkind : kind ≠ .eof) :
    Agree R k 0 (Syntax.require kind) (Syntax.require kind) :=
  .peek fun _ _ => .accept hkind (fun _ _ => .pure _) (.pure _)

theorem name : Agree R k 0 Syntax.name Syntax.name := by
  refine .peek fun t _ => ?_
  split
  · exact .bind .skip fun _ _ _ => .pure _
  · exact .pure _

end Agree

/-! ## Expressions -/

/-- One more call makes no difference where the tokens pay for `n` of them. -/
structure Steady (n : Nat) : Prop where
  expr : ∀ k, 4 * k + 4 ≤ n → Agree Any k 0 (expr (n + 1)) (expr n)
  sumTail : ∀ k lhs, 4 * k + 1 ≤ n → Agree Any k 0 (sumTail (n + 1) lhs) (sumTail n lhs)
  term : ∀ k, 4 * k + 3 ≤ n → Agree Any k 0 (term (n + 1)) (term n)
  productTail : ∀ k lhs, 4 * k + 1 ≤ n →
    Agree Any k 0 (productTail (n + 1) lhs) (productTail n lhs)
  factor : ∀ k, 4 * k + 2 ≤ n → Agree Any k 0 (factor (n + 1)) (factor n)
  indices : ∀ k, 4 * k + 1 ≤ n → Agree Any k 0 (indices (n + 1)) (indices n)
  call : ∀ k, 4 * k + 1 ≤ n → ∀ t : Token, t.kind ≠ .eof →
    Agree (· = t) k 1 (call (n + 1)) (call n)
  arguments : ∀ k, 4 * k + 5 ≤ n → Agree Any k 0 (arguments (n + 1)) (arguments n)

theorem steady_succ {n : Nat} (ih : Steady n) : Steady (n + 1) where
  expr k hk := by
    unfold Syntax.expr
    exact .bind (ih.term k (by omega)) fun lhs j hj => ih.sumTail j lhs (by omega)
  sumTail k lhs hk := by
    unfold Syntax.sumTail
    refine .peek fun t _ => ?_
    cases hop : t.kind.sumOp? with
    | none => exact .pure _
    | some op =>
        refine .relax (.advance ?_ fun j hj => ?_)
        · rintro _ rfl heof
          rw [heof] at hop
          cases hop
        · exact .bind (ih.term j (by omega)) fun rhs i hi => ih.sumTail i _ (by omega)
  term k hk := by
    unfold Syntax.term
    exact .bind (ih.factor k (by omega)) fun lhs j hj => ih.productTail j lhs (by omega)
  productTail k lhs hk := by
    unfold Syntax.productTail
    refine .peek fun t _ => ?_
    cases hop : t.kind.productOp? with
    | none => exact .pure _
    | some op =>
        refine .relax (.advance ?_ fun j hj => ?_)
        · rintro _ rfl heof
          rw [heof] at hop
          cases hop
        · exact .bind (ih.factor j (by omega)) fun rhs i hi => ih.productTail i _ (by omega)
  factor k hk := by
    unfold Syntax.factor
    refine .peek fun t _ => ?_
    split
    · exact .bind .name fun _ j hj => .bind (ih.indices j (by omega)) fun _ _ _ => .pure _
    · exact .bind .skip fun _ _ _ => .pure _
    · refine .ite (fun hkind => ?_) fun _ => .ite (fun hkind => ?_) fun _ => .pure _
      · refine .relax (.advance (by rintro _ rfl; simp [hkind]) fun j hj => ?_)
        exact .bind (ih.expr j (by omega)) fun _ _ _ =>
          .bind (.require (by simp)) fun _ _ _ => .pure _
      · refine .relax (.bind (ih.call k (by omega) t (by simp [hkind])) fun _ _ _ => .pure _)
  indices k hk := by
    unfold Syntax.indices
    refine .accept (by simp) (fun j hj => ?_) (.pure _)
    exact .bind (ih.expr j (by omega)) fun _ i hi => .bind (.require (by simp)) fun _ l hl =>
      .bind (ih.indices l (by omega)) fun _ _ _ => .pure _
  call k hk t ht := by
    unfold Syntax.call
    refine .advance (by rintro _ rfl; exact ht) fun j hj => .bind .name fun _ i hi => ?_
    refine .accept (by simp) (fun l hl => ?_) (.pure _)
    refine .peek fun t' _ => .any ?_
    refine .ite (fun _ => ?_) fun _ => ?_
    · exact .bind (.pure _) fun _ _ _ => .bind (.require (by simp)) fun _ _ _ => .pure _
    · exact .bind (ih.arguments l (by omega)) fun _ _ _ =>
        .bind (.require (by simp)) fun _ _ _ => .pure _
  arguments k hk := by
    unfold Syntax.arguments
    refine .bind (ih.expr k (by omega)) fun _ j hj => .accept (by simp) (fun i hi => ?_) (.pure _)
    exact .bind (ih.arguments i (by omega)) fun _ _ _ => .pure _

theorem steady : ∀ n, Steady n
  | 0 => by constructor <;> intros <;> omega
  | n + 1 => steady_succ (steady n)

theorem relation_agree {n k : Nat} (hn : 4 * k + 4 ≤ n) :
    Agree Any k 0 (relation (n + 1)) (relation n) := by
  unfold relation
  refine .bind ((steady n).expr k hn) fun lhs j hj => .peek fun t _ => ?_
  cases hop : t.kind.relOp? with
  | none => exact .pure _
  | some op =>
      exact .bind .skip fun _ i hi => .bind ((steady n).expr i (by omega)) fun _ _ _ => .pure _

/-! ## Statements -/

/-- The same for statements. One that can start takes a token. -/
structure SteadyStmt (n : Nat) : Prop where
  stmt : ∀ k, 4 * k + 2 ≤ n → ∀ t : Token, t.kind.endsSequence = false →
    t.kind ≠ .punct .semicolon → Agree (· = t) k 1 (stmt (n + 1)) (stmt n)
  sequence : ∀ k separated, 4 * k + 3 ≤ n →
    Agree Any k 0 (sequence (n + 1) separated) (sequence n separated)

theorem passOver_agree {k : Nat} {t : Token} (hends : t.kind.endsSequence = false)
    (hsep : t.kind ≠ .punct .semicolon) : Agree (· = t) k 1 passOver passOver := by
  rintro s - rfl
  refine ⟨rfl, ?_⟩
  show (s.tokens.dropWhile _).length + 1 ≤ s.tokens.length
  unfold TokenStream.peek at hends hsep
  cases htokens : s.tokens with
  | nil =>
      rw [htokens] at hends
      cases hends
  | cons t rest =>
      rw [htokens] at hends hsep
      rw [List.dropWhile_cons_of_pos (by simpa using ⟨hends, hsep⟩), List.length_cons]
      exact Nat.succ_le_succ (List.dropWhile_sublist _).length_le

theorem steadyStmt_succ {n : Nat} (ih : SteadyStmt n) : SteadyStmt (n + 1) where
  stmt k hk t hends hsep := by
    have he := steady n
    unfold Syntax.stmt
    refine .peek fun t' ht' => ?_
    subst ht'
    have hmore : ∀ u, u = t' → u.kind ≠ .eof := by
      rintro _ rfl heof
      rw [heof] at hends
      cases hends
    split
    · refine .advance hmore fun j hj => .bind .name fun _ i hi => ?_
      refine .bind (he.indices i (by omega)) fun _ l hl => .bind (.require (by simp)) fun _ m hm => ?_
      exact .bind (he.expr m (by omega)) fun _ _ _ => .pure _
    · exact .bind (he.call k (by omega) t' (hmore _ rfl)) fun _ _ _ => .pure _
    · refine .advance hmore fun j hj => .bind (relation_agree (by omega)) fun _ i hi => ?_
      refine .bind (.require (by simp)) fun _ l hl => .bind (ih.sequence l _ (by omega)) fun _ m hm => ?_
      refine .peek fun _ _ => .any (.accept (by simp) (fun o ho => ?_) ?_)
      · refine .bind (ih.sequence o _ (by omega)) fun _ p hp => .peek fun _ _ => .any ?_
        exact .bind (.require (by simp)) fun _ _ _ => .pure _
      · refine .bind (.pure _) fun _ p hp => .peek fun _ _ => .any ?_
        exact .bind (.require (by simp)) fun _ _ _ => .pure _
    · refine .advance hmore fun j hj => .bind (relation_agree (by omega)) fun _ i hi => ?_
      refine .bind (.require (by simp)) fun _ l hl => .bind (ih.sequence l _ (by omega)) fun _ m hm => ?_
      exact .peek fun _ _ => .any (.bind (.require (by simp)) fun _ _ _ => .pure _)
    · refine .advance hmore fun j hj => .peek fun _ _ => .any (.ite (fun _ => ?_) fun _ => .pure _)
      exact .bind (he.expr j (by omega)) fun _ _ _ => .pure _
    · exact .bind (passOver_agree hends hsep) fun _ _ _ => .pure _
  sequence k separated hk := by
    unfold Syntax.sequence
    refine .peek fun t _ => .ite (fun _ => .pure _) fun hends => .ite (fun hsep => ?_) fun hsep => ?_
    · refine .relax (.advance (by rintro _ rfl; simp [hsep]) fun j hj => ?_)
      exact ih.sequence j _ (by omega)
    · refine .relax (.bind (ih.stmt k (by omega) t (by simpa using hends) hsep) fun _ j hj => ?_)
      refine .peek fun _ _ => .any (.ite (fun _ => ?_) fun _ => .pure _)
      exact .bind (ih.sequence j _ (by omega)) fun _ _ _ => .pure _

theorem steadyStmt : ∀ n, SteadyStmt n
  | 0 => by constructor <;> intros <;> omega
  | n + 1 => steadyStmt_succ (steadyStmt n)

/-! ## Declarations -/

theorem dimensions_agree : ∀ {n k : Nat}, 4 * k + 1 ≤ n →
    Agree Any k 0 (dimensions (n + 1)) (dimensions n)
  | 0, _, hk => by omega
  | n + 1, k, hk => by
      unfold dimensions
      refine .bind (.require (by simp)) fun _ j hj => .peek fun t _ => ?_
      split
      · next hkind =>
          refine .relax (.advance (by rintro _ rfl; simp [hkind]) fun i hi => ?_)
          refine .bind (.require (by simp)) fun _ l hl => .peek fun _ _ => .any ?_
          refine .ite (fun _ => ?_) fun _ => .bind (.pure _) fun _ _ _ => .pure _
          exact .bind (dimensions_agree (by omega)) fun _ _ _ => .pure _
      · exact .pure _

theorem names_agree : ∀ {n k : Nat}, 4 * k + 1 ≤ n → Agree Any k 0 (names (n + 1)) (names n)
  | 0, _, hk => by omega
  | n + 1, k, hk => by
      unfold names
      refine .bind .name fun x j hj => ?_
      cases x with
      | missing found => exact .pure _
      | ident text pos =>
          refine .accept (by simp) (fun i hi => ?_) (.pure _)
          exact .bind (names_agree (by omega)) fun _ _ _ => .pure _

/-- A declaration takes the word it starts with. -/
theorem varDecl_agree {n k : Nat} (hk : 4 * k ≤ n) {t : Token}
    (ht : t.kind.startsVarDecl = true) : Agree (· = t) k 1 (varDecl (n + 1)) (varDecl n) := by
  have hnames {α : Type} {j : Nat} (hj : j + 1 ≤ k) (f : List Name → Mark → α) :
      Agree Any j 0 (do let xs ← names (n + 1); return f xs (← require (.punct .semicolon)))
        (do let xs ← names n; return f xs (← require (.punct .semicolon))) :=
    .bind (names_agree (by omega)) fun _ _ _ => .bind (.require (by simp)) fun _ _ _ => .pure _
  unfold varDecl
  refine .acceptOr (Nat.le_refl 1) (by simp) (fun j hj => ?_) ?_
  · exact .bind (.pure _) fun _ i hi => hnames (by omega) _
  · refine .advance ?_ fun j hj => .bind (dimensions_agree (by omega)) fun _ i hi => ?_
    · rintro _ rfl heof
      rw [heof] at ht
      cases ht
    · exact .bind (.pure _) fun _ l hl => hnames (by omega) _

theorem varDecls_agree : ∀ {n k : Nat}, 4 * k + 1 ≤ n →
    Agree Any k 0 (varDecls (n + 1)) (varDecls n)
  | 0, _, hk => by omega
  | n + 1, k, hk => by
      unfold varDecls
      refine .peek fun t _ => .ite (fun ht => ?_) fun _ => .pure _
      refine .relax (.bind (varDecl_agree (by omega) ht) fun _ j hj => ?_)
      exact .bind (varDecls_agree (by omega)) fun _ _ _ => .pure _

theorem body_agree {n k : Nat} (hk : 4 * k + 3 ≤ n) : Agree Any k 0 (body (n + 1)) (body n) := by
  unfold body
  refine .peek fun _ _ => .any (.bind (.require (by simp)) fun _ j hj => ?_)
  refine .bind ((steadyStmt n).sequence j _ (by omega)) fun _ i hi => .peek fun _ _ => .any ?_
  exact .bind (.require (by simp)) fun _ _ _ => .pure _

theorem parameters_agree {n k : Nat} (hk : 4 * k ≤ n + 3) :
    Agree Any k 0 (parameters (n + 1)) (parameters n) := by
  unfold parameters
  refine .accept (by simp) (fun j hj => ?_) (.pure _)
  refine .peek fun _ _ => .any (.ite (fun _ => ?_) fun _ => ?_)
  · exact .bind (.pure _) fun _ _ _ => .bind (.require (by simp)) fun _ _ _ => .pure _
  · exact .bind (names_agree (by omega)) fun _ _ _ =>
      .bind (.require (by simp)) fun _ _ _ => .pure _

theorem methodDecl_agree {n k : Nat} (hk : 4 * k ≤ n) {t : Token} (ht : t.kind ≠ .eof) :
    Agree (· = t) k 1 (methodDecl (n + 1)) (methodDecl n) := by
  unfold methodDecl
  refine .peek fun t' ht' => .advance (by rintro _ rfl; exact ht' ▸ ht) fun j hj => ?_
  refine .bind .name fun _ i hi => .bind (parameters_agree (by omega)) fun _ l hl => ?_
  refine .bind (.require (by simp)) fun _ m hm => .bind (varDecls_agree (by omega)) fun _ o ho => ?_
  exact .bind (body_agree (by omega)) fun _ _ _ => .bind (.require (by simp)) fun _ _ _ => .pure _

theorem methodDecls_agree : ∀ {n k : Nat}, 4 * k + 1 ≤ n →
    Agree Any k 0 (methodDecls (n + 1)) (methodDecls n)
  | 0, _, hk => by omega
  | n + 1, k, hk => by
      unfold methodDecls
      refine .peek fun t _ => .ite (fun ht => ?_) fun _ => .pure _
      have hmore : t.kind ≠ .eof := by
        intro heof
        rw [heof] at ht
        cases ht
      refine .relax (.bind (methodDecl_agree (by omega) hmore) fun _ j hj => ?_)
      exact .bind (methodDecls_agree (by omega)) fun _ _ _ => .pure _

theorem computation_agree {n k : Nat} (hk : 4 * k + 3 ≤ n) :
    Agree Any k 0 (computation (n + 1)) (computation n) := by
  unfold computation
  refine .bind (.require (by simp)) fun _ j hj => .bind (varDecls_agree (by omega)) fun _ i hi => ?_
  refine .bind (methodDecls_agree (by omega)) fun _ l hl => .bind (body_agree (by omega)) fun _ m hm => ?_
  exact .bind (.require (by simp)) fun _ _ _ => .peek fun _ _ => .pure _

/-- However many more nested calls are allowed, the tree is the same. -/
theorem computation_eq_read (tokens : List Token) {n : Nat}
    (hn : 4 * (TokenStream.ofTokens tokens).tokens.length + 8 ≤ n) :
    (computation n (.ofTokens tokens)).1 = read tokens := by
  induction hn with
  | refl => rfl
  | step hn ih => rw [← ih, (computation_agree (Nat.le_trans (by omega) hn) _ (Nat.le_refl _) trivial).1]

/-! ## Sizes of arrays -/

/-- What `x` reads is as `Q` says. -/
def Gives (Q : α → Prop) (x : ReadM α) : Prop := ∀ s, Q (x s).1

namespace Gives

theorem any (x : ReadM α) : Gives (fun _ => True) x := fun _ => trivial

theorem bind {P : α → Prop} {Q : β → Prop} {x : ReadM α} {f : α → ReadM β} (hx : Gives P x)
    (hf : ∀ a, P a → Gives Q (f a)) : Gives Q (x >>= f) :=
  fun s => hf (x s).1 (hx s) (x s).2

theorem pure {Q : α → Prop} {a : α} (h : Q a) : Gives Q (Pure.pure a) := fun _ => h

end Gives

theorem dimensions_ne_nil (n : Nat) : Gives (· ≠ []) (dimensions n) := by
  cases n with
  | zero => exact .bind (.any _) fun _ _ => .pure (by simp)
  | succ n =>
      unfold dimensions
      refine .bind (.any _) fun _ _ => .bind (.any _) fun t _ => ?_
      split
      · refine .bind (.any _) fun _ _ => .bind (.any _) fun _ _ => .bind (.any _) fun _ _ => ?_
        split
        · exact .bind (.any _) fun _ _ => .pure (by simp)
        · exact .bind (.any _) fun _ _ => .pure (by simp)
      · exact .pure (by simp)

/-- An array that is declared has a size. -/
def VarDecl.Sized (d : VarDecl) : Prop := d.type ≠ .array []

theorem varDecl_sized (n : Nat) : Gives VarDecl.Sized (varDecl n) := by
  have htail (type : TypeDecl) (h : type ≠ .array []) : Gives VarDecl.Sized (do
      let xs ← names n
      return ⟨type, xs, ← require (.punct .semicolon)⟩) :=
    .bind (.any _) fun _ _ => .bind (.any _) fun _ _ => .pure h
  unfold varDecl
  refine .bind (.any _) fun b _ => ?_
  split
  · exact .bind (P := fun type => type = .scalar) (.pure rfl) fun _ h => htail _ (by simp [h])
  · refine .bind (.any _) fun _ _ => .bind (dimensions_ne_nil n) fun dims hdims => ?_
    exact .bind (P := fun type => type = .array dims) (.pure rfl) fun _ h => htail _ (by simpa [h])

theorem varDecls_sized : ∀ n, Gives (fun ds => ∀ d ∈ ds, d.Sized) (varDecls n)
  | 0 => .pure (by simp)
  | n + 1 => by
      unfold varDecls
      refine .bind (.any _) fun t _ => ?_
      split
      · exact .bind (varDecl_sized n) fun d hd => .bind (varDecls_sized n) fun ds hds =>
          .pure (by simpa using ⟨hd, hds⟩)
      · exact .pure (by simp)

theorem methodDecls_sized : ∀ n, Gives (fun ms => ∀ m ∈ ms, ∀ d ∈ m.varDecls, d.Sized) (methodDecls n)
  | 0 => .pure (by simp)
  | n + 1 => by
      have hmethod : Gives (fun m => ∀ d ∈ m.varDecls, d.Sized) (methodDecl n) := by
        unfold methodDecl
        refine .bind (.any _) fun _ _ => .bind (.any _) fun _ _ => .bind (.any _) fun _ _ => ?_
        refine .bind (.any _) fun _ _ => .bind (.any _) fun _ _ => ?_
        exact .bind (varDecls_sized n) fun _ h => .bind (.any _) fun _ _ => .bind (.any _) fun _ _ =>
          .pure h
      unfold methodDecls
      refine .bind (.any _) fun t _ => ?_
      split
      · exact .bind hmethod fun m hm => .bind (methodDecls_sized n) fun ms hms =>
          .pure (by simpa using ⟨hm, hms⟩)
      · exact .pure (by simp)

/-- The declarations of variables in a computation, those of its methods too. -/
def Computation.allVarDecls (t : Computation) : List VarDecl :=
  t.varDecls ++ t.methods.flatMap (·.varDecls)

theorem read_sized (tokens : List Token) : ∀ d ∈ (read tokens).allVarDecls, d.Sized := by
  have hread (n : Nat) : Gives (fun t => ∀ d ∈ t.allVarDecls, d.Sized) (computation n) := by
    unfold computation
    refine .bind (.any _) fun _ _ => .bind (varDecls_sized n) fun ds hds => ?_
    refine .bind (methodDecls_sized n) fun ms hms => .bind (.any _) fun _ _ => ?_
    refine .bind (.any _) fun _ _ => .bind (.any _) fun _ _ => .pure fun d hd => ?_
    rcases List.mem_append.1 hd with hd | hd
    · exact hds d hd
    · obtain ⟨m, hm, hd⟩ := List.mem_flatMap.1 hd
      exact hms m hm d hd
  exact hread _ _

/-! ## Tokens by index -/

/-- The tokens with an end marker at their end. -/
def closed (ts : List Token) : List Token :=
  if ts.getLast?.map Token.kind = some .eof then ts
  else ts ++ [⟨.eof, "", (ts.getLast?.map Token.pos).getD .start⟩]

/-- A stream is what stands in a list from an index on up to the first end marker, which
is there. -/
structure Stands (s : TokenStream) (ts : List Token) (i : Nat) : Prop where
  stop : ∃ t more, ts.drop i = s.tokens ++ t :: more ∧ t.kind = .eof ∧ t.pos = s.endPos
  before : ∀ t ∈ s.tokens, t.kind ≠ .eof

/-- How `passOver` goes through such a list. Each index that is looked at is there, as the
end marker ends every sequence. -/
inductive Passes (ts : List Token) : Nat → Nat → Prop where
  | stop {i : Nat} {t : Token} (found : ts[i]? = some t)
      (h : t.kind.endsSequence = true ∨ t.kind = .punct .semicolon) : Passes ts i i
  | next {i j : Nat} {t : Token} (found : ts[i]? = some t)
      (h : ¬(t.kind.endsSequence = true ∨ t.kind = .punct .semicolon)) (rest : Passes ts (i + 1) j) :
      Passes ts i j

theorem ofTokens_stands (ts : List Token) : Stands (.ofTokens ts) (closed ts) 0 := by
  unfold TokenStream.ofTokens
  cases hfind : ts.find? fun t => t.kind == .eof with
  | some t =>
      obtain ⟨ht, front, more, rfl, hfront⟩ := List.find?_eq_some_iff_append.1 hfind
      obtain ⟨extra, hclosed⟩ : ∃ extra, closed (front ++ t :: more) = front ++ t :: more ++ extra := by
        unfold closed
        split
        · exact ⟨[], by simp⟩
        · exact ⟨_, rfl⟩
      rw [List.takeWhile_append_of_pos (by simpa using hfront),
        List.takeWhile_cons_of_neg (by simpa using ht), List.append_nil]
      exact ⟨⟨t, more ++ extra, by simp [hclosed], by simpa using ht, rfl⟩, by simpa using hfront⟩
  | none =>
      have hnone : ∀ t ∈ ts, t.kind ≠ .eof := by simpa using hfind
      have hclosed : closed ts = ts ++ [⟨.eof, "", (ts.getLast?.map Token.pos).getD .start⟩] := by
        refine if_neg fun hlast => ?_
        obtain ⟨t, ht, hkind⟩ := Option.map_eq_some_iff.1 hlast
        exact hnone t (List.mem_of_getLast? ht) hkind
      have htake : ts.takeWhile (fun t => t.kind != .eof) = ts := by
        rw [← List.append_nil ts, List.takeWhile_append_of_pos (by simpa using hnone)]
        rfl
      rw [htake]
      refine ⟨⟨⟨.eof, "", (ts.getLast?.map Token.pos).getD .start⟩, [], hclosed, rfl, ?_⟩, hnone⟩
      cases ts.getLast? <;> rfl

variable {s : TokenStream} {ts : List Token} {i : Nat}

/-- What is next stands at the index, but for the text of the end marker. -/
theorem Stands.peek (h : Stands s ts i) :
    ∃ t, ts[i]? = some t ∧ t.kind = s.peek.kind ∧ t.pos = s.peek.pos := by
  obtain ⟨⟨stop, more, hdrop, hkind, hpos⟩, -⟩ := h
  rw [← List.head?_drop, hdrop]
  unfold TokenStream.peek
  cases s.tokens with
  | nil => exact ⟨stop, rfl, hkind, hpos⟩
  | cons t rest => exact ⟨t, rfl, rfl, rfl⟩

/-- The index goes on unless it is at the end marker. -/
theorem Stands.advance (h : Stands s ts i) :
    Stands s.advance ts (if s.peek.kind = .eof then i else i + 1) := by
  obtain ⟨⟨stop, more, hdrop, hkind, hpos⟩, hbefore⟩ := h
  obtain ⟨_ | ⟨t, rest⟩, endPos⟩ := s
  · exact ⟨⟨stop, more, hdrop, hkind, hpos⟩, hbefore⟩
  · rw [List.forall_mem_cons] at hbefore
    show Stands _ ts (if t.kind = .eof then i else i + 1)
    rw [if_neg hbefore.1]
    exact ⟨⟨stop, more, by rw [← List.tail_drop, hdrop]; rfl, hkind, hpos⟩, hbefore.2⟩

theorem Stands.passOver (h : Stands s ts i) : ∃ j, Passes ts i j ∧ Stands (passOver s).2 ts j := by
  obtain ⟨tokens, endPos⟩ := s
  induction tokens generalizing i with
  | nil =>
      obtain ⟨t, hfound, hkind, -⟩ := h.peek
      exact ⟨i, .stop hfound (Or.inl (hkind ▸ rfl)), h⟩
  | cons u rest ih =>
      obtain ⟨t, hfound, hkind, -⟩ := h.peek
      have hnext := h.advance
      rw [← hkind] at hnext
      replace hkind : t.kind = u.kind := hkind
      by_cases hstop : u.kind.endsSequence = true ∨ u.kind = .punct .semicolon
      · have hsame : (Syntax.passOver ⟨u :: rest, endPos⟩).2 = ⟨u :: rest, endPos⟩ :=
          congrArg (TokenStream.mk · endPos)
            (List.dropWhile_cons_of_neg (by rcases hstop with h | h <;> simp [h]))
        exact ⟨i, .stop hfound (hkind ▸ hstop), by rwa [hsame]⟩
      · have hsame : (Syntax.passOver ⟨u :: rest, endPos⟩).2 = (Syntax.passOver ⟨rest, endPos⟩).2 :=
          congrArg (TokenStream.mk · endPos) (List.dropWhile_cons_of_pos (by simpa using hstop))
        rw [if_neg (hkind ▸ h.before u (List.mem_cons_self ..))] at hnext
        obtain ⟨j, hpasses, hstands⟩ := ih hnext
        exact ⟨j, .next hfound (hkind ▸ hstop) hpasses, by rwa [hsame]⟩

end Syntax

end StructuredSsa
