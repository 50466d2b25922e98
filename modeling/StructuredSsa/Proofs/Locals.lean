import StructuredSsa.Proofs.Assembled
import StructuredSsa.Proofs.Blame
import StructuredSsa.Proofs.GrammarSound

/-!
# What a method declares

The names that a method declares are those of its text, so they are spelled by
identifiers, and no identifier of a scanned text is spelled like a keyword. In
particular no variable is called what the value of a function is called
(`no_local_return`).

While statements are built, the methods keep their names and what they declare
(`durable_headers`).
-/

namespace StructuredSsa

namespace Syntax

/-! ## From the text -/

/-- Names that are spelled by identifiers among some tokens. -/
def Spelled (xs : List String) (ts : List Token) : Prop := ∀ x ∈ xs, ∃ t ∈ ts, t.kind = .ident x

theorem Spelled.mono {xs ys : List String} {ts us : List Token} (h : Spelled xs ts) (hxs : ys ⊆ xs)
    (hts : ts ⊆ us) : Spelled ys us := by
  intro x hx
  obtain ⟨t, ht, hkind⟩ := h x (hxs hx)
  exact ⟨t, hts ht, hkind⟩

theorem Spelled.append {xs ys : List String} {ts us : List Token} (h : Spelled xs ts)
    (k : Spelled ys us) : Spelled (xs ++ ys) (ts ++ us) := by
  intro x hx
  rcases List.mem_append.1 hx with hx | hx
  · exact h.mono (fun _ h => h) (List.subset_append_left ..) x hx
  · exact k.mono (fun _ h => h) (List.subset_append_right ..) x hx

theorem spelled_nil (ts : List Token) : Spelled [] ts := by
  intro x hx
  cases hx

/-- The names that a method declares. -/
def MethodDecl.locals (d : MethodDecl) : List String :=
  d.parameters.flatMap Name.texts ++ d.varDecls.flatMap VarDecl.declared

theorem name_spelled : Consumes Any name fun x ts => Spelled x.texts ts := by
  refine .peek fun t _ => ?_
  split
  · next text h =>
      refine .advance h (.pure fun x hx => ⟨t, List.mem_singleton_self t, ?_⟩)
      rw [List.mem_singleton.1 hx, h]
  · exact .pure (spelled_nil _)

theorem names_spelled : ∀ n, Consumes Any (names n) fun xs ts => Spelled (xs.flatMap Name.texts) ts
  | 0 => .peek fun _ _ => .pure (spelled_nil _)
  | n + 1 => by
      rw [names]
      refine .bind name_spelled fun x ts hx => ?_
      split
      · exact .pure (by simpa using hx)
      · refine .accept (fun c _ _ => ?_) ?_
        · refine .bind (names_spelled n) fun xs us hxs => .pure ?_
          rw [List.flatMap_cons]
          refine hx.append (hxs.mono (fun _ h => h) fun u hu => ?_)
          simp [hu]
        · exact .pure (by simpa using hx)

theorem varDecl_spelled (n : Nat) : Consumes (·.kind.startsVarDecl = true) (varDecl n) fun d ts =>
    Spelled d.declared ts := by
  have hrest (type : TypeDecl) (ts : List Token) : Consumes Any (do
      let xs ← names n
      return ⟨type, xs, ← require (.punct .semicolon)⟩ : ReadM VarDecl)
      fun d us => Spelled d.declared (ts ++ us) := by
    refine .bind (names_spelled n) fun xs us hxs => .bind .require fun semicolon vs _ => .pure ?_
    refine hxs.mono (fun _ h => h) fun u hu => ?_
    simp [hu]
  refine .accept (fun v _ _ => hrest .scalar [v]) (.next fun a ha => ?_)
  have harray := array_of_startsVarDecl ha.1 ha.2
  exact .advance harray (.bind (dimensions_taken n) fun ds ts _ => hrest (.array ds) (a :: ts))

theorem varDecls_spelled : ∀ n, Consumes Any (varDecls n) fun ds ts =>
    Spelled (ds.flatMap VarDecl.declared) ts
  | 0 => .pure (spelled_nil _)
  | n + 1 => by
      rw [varDecls]
      refine .peek fun t _ => ?_
      split
      · next ht =>
          refine .bind ((varDecl_spelled n).weaken fun _ hu => hu ▸ ht) fun d ts hd => ?_
          refine .bind (varDecls_spelled n) fun ds us hds => .pure ?_
          rw [List.flatMap_cons, List.append_nil]
          exact hd.append hds
      · exact .pure (spelled_nil _)

theorem parameters_spelled (n : Nat) : Consumes Any (parameters n) fun r ts =>
    Spelled (r.1.flatMap Name.texts) ts := by
  refine .accept (fun l _ _ => .peek fun u _ => ?_) (.pure (spelled_nil _))
  split
  · exact .skip (.bind .require fun close ts _ => .pure (spelled_nil _))
  · refine .bind (names_spelled n).any fun xs ts hxs => .bind .require fun close us _ => .pure ?_
    refine hxs.mono (fun _ h => h) fun u hu => ?_
    simp [hu]

theorem methodDecl_spelled (n : Nat) :
    Consumes (·.kind.startsMethodDecl = true) (methodDecl n) fun d ts => Spelled d.locals ts := by
  refine .peek fun f hf => .advance (kind_of_startsMethodDecl hf)
    (.bind name_spelled fun x ts _ => .bind (parameters_spelled n) ?_)
  rintro ⟨xs, close⟩ us hxs
  refine .bind .require fun semicolon vs _ => .bind (varDecls_spelled n) fun ds ws hds => ?_
  refine .bind (body_taken n) fun b xs' _ => .bind .require fun terminator ys _ => .pure ?_
  refine (hxs.append hds).mono (fun _ h => h) fun u hu => ?_
  rcases List.mem_append.1 hu with hu | hu <;> simp [hu]

theorem methodDecls_spelled : ∀ n, Consumes Any (methodDecls n) fun ms ts =>
    ∀ d ∈ ms, Spelled d.locals ts
  | 0 => .pure (by simp)
  | n + 1 => by
      rw [methodDecls]
      refine .peek fun t _ => ?_
      split
      · next ht =>
          refine .bind ((methodDecl_spelled n).weaken fun _ hu => hu ▸ ht) fun m ts hm => ?_
          refine .bind (methodDecls_spelled n) fun ms us hms => .pure ?_
          rw [List.append_nil]
          refine List.forall_mem_cons.2 ⟨?_, fun d hd => ?_⟩
          · exact hm.mono (fun _ h => h) (List.subset_append_left ..)
          · exact (hms d hd).mono (fun _ h => h) (List.subset_append_right ..)
      · exact .pure (by simp)

/-- The names that a computation declares for all its methods. -/
def Computation.globals (t : Computation) : List String := t.varDecls.flatMap VarDecl.declared

theorem computation_spelled (n : Nat) : Consumes Any (computation n) fun t ts =>
    Spelled t.globals ts ∧ ∀ d ∈ t.methods, Spelled d.locals ts := by
  refine .bind .require fun main ts _ => .bind (varDecls_spelled n) fun ds us hds => ?_
  refine .bind (methodDecls_spelled n) fun ms vs hms => .bind (body_taken n) fun b ws _ => ?_
  refine .bind .require fun period xs _ => .peek fun t _ => .pure ⟨?_, fun d hd => ?_⟩
  · refine hds.mono (fun _ h => h) fun u hu => ?_
    simp [hu]
  · refine (hms d hd).mono (fun _ h => h) fun u hu => ?_
    simp [hu]

/-- The names that a text declares are spelled by tokens. -/
theorem read_spelled (tokens : List Token) : Spelled (read tokens).globals tokens
    ∧ ∀ d ∈ (read tokens).methods, Spelled d.locals tokens := by
  obtain ⟨ts, htokens, hglobals, hlocals⟩ := computation_spelled _ (.ofTokens tokens) trivial
  have hsub : ts ⊆ tokens := by
    intro t ht
    have hmem : t ∈ (TokenStream.ofTokens tokens).tokens := by
      rw [htokens]
      exact List.mem_append_left _ ht
    exact (List.takeWhile_prefix _).subset hmem
  exact ⟨hglobals.mono (fun _ h => h) hsub, fun d hd => (hlocals d hd).mono (fun _ h => h) hsub⟩

end Syntax

/-- An identifier is not spelled like a keyword. -/
theorem ofText?_of_ident {s : Segment} {x : String} (h : s.kind? = .ok (some (.ident x))) :
    Keyword.ofText? x = none := by
  unfold Segment.kind? at h
  split at h
  · split at h <;> cases h
  · next letters =>
      have hword : TokenKind.ofWord (String.ofList letters) = .ident x :=
        Option.some.inj (Except.ok.inj h)
      unfold TokenKind.ofWord at hword
      split at hword
      · cases hword
      · next hnone =>
          obtain rfl := TokenKind.ident.inj hword
          exact hnone
  · cases h
  · cases h

theorem lex_ident {t : Token} {x : String} (hx : t.kind = .ident x) :
    ∀ (segments : List Segment) {pos : Pos}, t ∈ (lex segments pos).tokens →
      Keyword.ofText? x = none
  | [], _, ht => by cases ht
  | s :: rest, pos, ht => by
      unfold lex at ht
      dsimp only at ht
      split at ht
      · cases ht
      · next kind? hkind =>
          cases kind? with
          | none => exact lex_ident hx rest ht
          | some kind =>
              rcases List.mem_cons.1 ht with rfl | ht
              · dsimp only at hx
                exact ofText?_of_ident (hx ▸ hkind)
              · exact lex_ident hx rest ht

section Scanned

variable {source : String} {tokens : List Token} {scanner : Scanner}

/-- In a scanned text no identifier is called what the value of a function is called. -/
theorem Syntax.Spelled.not_return {xs : List String} (hxs : Syntax.Spelled xs tokens)
    (h : (Scanner.ofText source).scan = (.ok tokens, scanner)) : Bindings.returnName ∉ xs := by
  intro hx
  obtain ⟨t, ht, hkind⟩ := hxs _ hx
  unfold Scanner.scan at h
  dsimp only at h
  split at h
  · cases (Prod.mk.inj h).1
  · obtain rfl := Except.ok.inj (Prod.mk.inj h).1
    rcases List.mem_append.1 ht with ht | ht
    · exact absurd (lex_ident hkind _ ht) (by decide)
    · rw [List.mem_singleton.1 ht] at hkind
      cases hkind

theorem no_local_return (h : (Scanner.ofText source).scan = (.ok tokens, scanner))
    {d : Syntax.MethodDecl} (hd : d ∈ (Syntax.read tokens).methods) :
    Bindings.returnName ∉ d.locals :=
  ((Syntax.read_spelled tokens).2 d hd).not_return h

theorem no_global_return (h : (Scanner.ofText source).scan = (.ok tokens, scanner)) :
    Bindings.returnName ∉ (Syntax.read tokens).globals :=
  (Syntax.read_spelled tokens).1.not_return h

end Scanned

namespace Build

open Syntax

/-! ## From the declaration -/

variable {α β : Type}

/-- The method under construction is called `x`, and what it declares is among
`xs`. -/
structure Heads (x : String) (kind : MethodKind) (xs : List String) (n : Names) : Prop where
  header : ∃ h, n.methods[n.current.index]? = some h ∧ h.name = x ∧ h.kind = kind
    ∧ ∀ d ∈ h.symbols.symbols, d.name ∈ xs

section Heads

variable {E : Error → Prop} {P : Names → Prop} {x : String} {kind : MethodKind} {xs : List String}

theorem Honest.forM {f : α → BuildM Unit} : ∀ {l : List α},
    (∀ a ∈ l, Honest E P (f a) fun _ => P) → Honest E P (l.forM f) fun _ => P
  | [], _ => .pure fun _ hn => hn
  | a :: l, h => .bind (h a (by simp)) fun _ => forM fun b hb => h b (by simp [hb])

theorem heads_modify {n : Names} (h : Heads x kind xs n) {d : Symbol} (hd : d.name ∈ xs)
    (i : Nat) : Heads x kind xs { n with
      methods := n.methods.modify i fun m => { m with symbols := m.symbols.declare d } } := by
  obtain ⟨m, hm, hname, hkind, hsymbols⟩ := h.header
  have hget : (n.methods.modify i fun m => { m with symbols := m.symbols.declare d })[n.current.index]?
      = some (if i = n.current.index then { m with symbols := m.symbols.declare d } else m) := by
    rw [List.getElem?_modify, hm]
    rfl
  refine ⟨_, hget, ?_, ?_, ?_⟩ <;> split
  · exact hname
  · exact hname
  · exact hkind
  · exact hkind
  · intro e he
    rcases Scope.mem_declare he with he | rfl
    · exact hsymbols e he
    · exact hd
  · exact hsymbols

theorem declareLocal_heads (m : MethodId) {d : Symbol} (hd : d.name ∈ xs) {f : Method → Method}
    (hf : ∀ r, (f r).header = { r.header with symbols := r.symbols.declare d }) :
    Honest E (Heads x kind xs) (edit fun p => .ok (p.modifyMethod m f))
      fun _ => Heads x kind xs := by
  intro s hs
  show Heads x kind xs (Builder.names { s with program := s.program.modifyMethod m f })
  rw [names_modifyMethod s m f (fun r => { r with symbols := r.symbols.declare d }) hf]
  exact heads_modify hs hd _

theorem declareName_heads (hkind : kind ≠ .main) {d : Symbol} (hd : d.name ∈ xs) :
    Honest E (Heads x kind xs) (declareName d) fun _ => Heads x kind xs := by
  refine .bind calm.cursor.honest fun c => .bind method_honest fun m => ?_
  split
  · next hmain =>
      rintro s ⟨hs, hm⟩
      obtain ⟨h, hh, -, hk, -⟩ := hs.header
      rw [hm] at hh
      obtain rfl := Option.some.inj hh
      exact absurd (hk.symm.trans hmain) hkind
  · have hlocal : Honest E (Heads x kind xs) (do
        edit fun p => .ok (p.modifyMethod c.method fun m =>
          { m with symbols := m.symbols.declare d })
        return !m.symbols.contains d.name) fun _ => Heads x kind xs :=
      .bind (declareLocal_heads c.method hd fun _ => rfl) fun _ => .pure fun _ hn => hn
    exact hlocal.mono (fun _ he => he) (fun _ hn => hn.1) fun _ _ hn => hn

theorem declare_names (shape : Shape) {y : String} (pos : Pos)
    (hy : Honest E P (declareName ⟨y, shape, false, pos.line⟩) fun _ => P) :
    Honest E P (declare shape y pos) fun _ => P := by
  refine .bind hy fun new => ?_
  split
  · split
    · exact .bind (calm.emit ..).honest fun _ => (Calm.bindName ..).honest
    · exact .bind (calm.emit ..).honest fun _ => .pure fun _ hn => hn
  · exact (Calm.report ..).honest

theorem declareParameter_heads {y : String} (pos : Pos) (hy : y ∈ xs) :
    Honest E (Heads x kind xs) (declareParameter y pos) fun _ => Heads x kind xs := by
  refine .bind calm.cursor.honest fun c => .bind calm.method.honest fun m => ?_
  refine .bind (declareLocal_heads (d := ⟨y, .scalar, true, pos.line⟩) c.method hy fun _ => rfl)
    fun _ => ?_
  split
  · exact (Calm.report ..).honest
  · exact .bind (calm.emit ..).honest fun _ =>
      .bind (Calm.edit fun _ _ => Program.sameNames_addParameter).honest fun _ =>
        (Calm.bindName ..).honest

/-- A name that is there, before something is done with it. -/
theorem name_heads {what : String} {y : Name} {f : String × Pos → BuildM Unit}
    {Q : Names → Prop}
    (h : ∀ text pos, text ∈ y.texts → Honest (fun _ => True) P (f (text, pos)) fun _ => Q) :
    Honest (fun _ => True) P (name what y >>= f) fun _ => Q := by
  cases y with
  | ident text pos => exact h text pos (List.mem_singleton_self text)
  | missing found => exact .bind (Q := fun _ _ => False) (.fail trivial) fun _ _ h => h.elim

theorem shape_heads : ∀ t : TypeDecl, Honest (fun _ => True) P (shape t) fun _ => P
  | .scalar => .pure fun _ hn => hn
  | .array dims => by
      have hsizes : ∀ dims : List Dimension, Honest (fun _ => True) P (sizes dims) fun _ => P := by
        intro dims
        induction dims with
        | nil => exact .pure fun _ hn => hn
        | cons dim rest ih =>
            cases dim with
            | missing opening found =>
                unfold sizes
                exact .bind (Calm.require ..).honest fun _ => .fail trivial
            | sized opening n pos close =>
                have hrest : Honest (fun _ => True) P (do
                    require (.punct .rbracket) close
                    return n :: (← sizes rest)) fun _ => P :=
                  .bind (Calm.require ..).honest fun _ => .bind ih fun _ => .pure fun _ hn => hn
                unfold sizes
                refine .bind (Calm.require ..).honest fun _ => ?_
                split
                · exact .bind (Calm.report ..).honest fun _ => hrest
                · exact hrest
      exact .bind (hsizes dims) fun _ => .pure fun _ hn => hn

/-- Declarations of variables come down to those of single names. -/
theorem varDecls_names {ds : List VarDecl} (h : ∀ d : Symbol, d.name ∈ ds.flatMap VarDecl.declared →
    Honest (fun _ => True) P (declareName d) fun _ => P) :
    Honest (fun _ => True) P (ds.forM varDecl) fun _ => P := by
  refine .forM fun d hd => ?_
  refine .bind (shape_heads d.type) fun s => .bind (.forM fun y hy => ?_) fun _ =>
    (Calm.require ..).honest
  exact name_heads fun text pos htext =>
    declare_names s pos (h _ (List.mem_flatMap.2 ⟨d, hd, List.mem_flatMap.2 ⟨y, hy, htext⟩⟩))

/-- Where the cursor is. -/
theorem cursor_honest : Honest E P cursor fun c n => P n ∧ c.method = n.current :=
  fun _ hs => ⟨hs, rfl⟩

theorem openBody_heads (line : Nat) :
    Honest E (Heads x kind xs) (openBody line) fun _ => Heads x kind xs := by
  refine .bind cursor_honest fun c => .bind (calm.newBlock _).honest fun _ => ?_
  refine .bind (calm.departTo ..).honest fun _ => .bind (calm.beginBlock ..).honest fun _ => ?_
  refine .bind (calm.newBlock _).honest fun _ =>
    .bind (Calm.edit fun _ _ => Program.sameNames_setExit).honest fun _ => ?_
  rintro s ⟨hs, hc⟩
  show Heads x kind xs ⟨s.program.globals, s.program.headers, c.method⟩
  rw [hc]
  exact hs

end Heads

/-- Before its body a method is called as its declaration says, and declares
nothing else. -/
theorem openDecl_heads (d : MethodDecl) : Honest (fun _ => True) (fun _ => True) (openDecl d)
    fun _ n => ∃ x pos, d.name = .ident x pos
      ∧ Heads x (if d.isFunction then .function else .procedure) d.locals n := by
  unfold openDecl
  cases hname : d.name with
  | missing found => exact .bind (Q := fun _ _ => False) (.fail trivial) fun _ _ h => h.elim
  | ident x pos =>
      have hkind : (if d.isFunction then MethodKind.function else .procedure) ≠ .main := by
        split <;> simp
      refine Honest.mono (Q := fun _ n =>
        Heads x (if d.isFunction then .function else .procedure) d.locals n) ?_ (fun _ he => he)
        (fun _ hn => hn) fun _ _ hn => ⟨x, pos, rfl, hn⟩
      rw [show name "method name" (.ident x pos) = pure (x, pos) from rfl, pure_bind]
      refine .bind (calm_checkMethodName ..).honest fun _ => ?_
      have hopened : Honest (fun _ => True) (fun _ => True)
          (openMethod x (if d.isFunction then .function else .procedure))
          fun _ => Heads x (if d.isFunction then .function else .procedure) d.locals := by
        refine (openMethod_honest x _).mono (fun _ he => he) (fun _ hn => hn) ?_
        rintro _ _ ⟨n, -, rfl⟩
        refine ⟨⟨x, if d.isFunction then .function else .procedure, .empty⟩, by simp [openNames],
          rfl, rfl, ?_⟩
        simp [Scope.empty]
      refine .bind hopened fun _ => .bind (.forM fun y hy => ?_) fun _ => ?_
      · exact name_heads fun text pos htext => declareParameter_heads pos
          (List.mem_append_left _ (List.mem_flatMap.2 ⟨y, hy, htext⟩))
      refine .bind (Calm.require ..).honest fun _ => .bind (Calm.require ..).honest fun _ => ?_
      exact varDecls_names fun y hy => declareName_heads hkind (List.mem_append_right _ hy)

/-- The globals are declared by the computation. -/
theorem openMain_globals (t : Computation) : Honest (fun _ => True) (fun n => n.globals = .empty)
    (openMain t) fun _ n => ∀ d ∈ n.globals.symbols, d.name ∈ t.globals := by
  let Among (n : Names) : Prop := ∀ d ∈ n.globals.symbols, d.name ∈ t.globals
  have hopened : Honest (fun _ => True) (fun n => n.globals = .empty) (openMethod "main" .main)
      fun _ => Among := by
    refine (openMethod_honest "main" .main).mono (fun _ he => he) (fun _ hn => hn) ?_
    rintro _ _ ⟨n, hn, rfl⟩ d hd
    have hd : d ∈ n.globals.symbols := hd
    rw [hn] at hd
    cases hd
  have hname (d : Symbol) (hd : d.name ∈ t.globals) :
      Honest (fun _ => True) Among (declareName d) fun _ => Among := by
    refine .bind calm.cursor.honest fun c => .bind calm.method.honest fun m => ?_
    split
    · intro s hs e he
      rcases Scope.mem_declare he with he | rfl
      · exact hs e he
      · exact hd
    · exact fun s hs => hs
  exact .bind (Calm.require ..).honest fun _ => .bind hopened fun _ => varDecls_names hname

/-- Statements declare nothing. -/
theorem durable_headers (hs : List Header) : Durable fun p => p.headers = hs where
  newBlock h hq := (Program.sameNames_newBlock hq).headers.trans h
  emit h hq := (Program.sameNames_emit hq).headers.trans h
  addPhi h hq := (Program.sameNames_addPhi hq).headers.trans h
  link h hq := (Program.sameNames_link hq).headers.trans h
  setDominator h hq := (Program.sameNames_setDominator hq).headers.trans h
  setBefore h hq := (Program.sameNames_setBefore hq).headers.trans h
  sealBlock h hq := (Program.sameNames_sealBlock hq).headers.trans h

end Build

end StructuredSsa
