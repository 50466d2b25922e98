import StructuredSsa.Proofs.SsaForm
import StructuredSsa.Verify

/-!
# Verification of built programs

`Program.WellFormed` says what a verified program is, rule by rule, and
`verify_findings_iff` that these are the rules that verification checks. A
program that is built breaks none of them and has no block that cannot be
reached, so it also passes a strict verification.
-/

namespace StructuredSsa

/-! ## The rules -/

namespace Program

variable {p : Program} {b : BlockId} {r : Block}

/-- The rules for one block. -/
structure BlockFormed (p : Program) (b : BlockId) (r : Block) : Prop where
  succ_edge : ∀ s ∈ r.succs, b ∈ p.preds s
  pred_edge : ∀ q ∈ r.preds, b ∈ p.succs q
  dominator : r.isEntry = false → r.dominator ≠ none
  /-- One terminator, at the end, which goes where the edges go. -/
  terminator : ∃ init op, p.opsOf r.body = init ++ [op] ∧ op.isTerminator = true
    ∧ (∀ o ∈ init, o.isTerminator = false) ∧ ∀ s, s ∈ op.targets ↔ s ∈ r.succs
  phi_arity : ∀ v ∈ r.phis, ∀ i x os, p.instr? v = some i → i.op = .phi x os →
    os.length = r.preds.length
  owner : ∀ v ∈ r.contents, ∀ i, p.instr? v = some i → i.owner = some b
  /-- What is read stands in some block and knows its reader. -/
  operand : ∀ u ∈ r.contents, ∀ v ∈ p.operands u, ∀ i, p.instr? v = some i →
    i.owner ≠ none ∧ u ∈ i.users
  user : ∀ v ∈ r.contents, ∀ i, p.instr? v = some i → ∀ u ∈ i.users, v ∈ p.operands u

/-- The rules for one method. -/
structure MethodFormed (p : Program) (m : Method) : Prop where
  entry : p.preds m.entry = []
  exit : ∃ e r, m.exit = some e ∧ p.block? e = some r ∧ r.succs = []
  block : ∀ b r, b ∈ m.blocks → p.block? b = some r → p.BlockFormed b r

/-- The rules for a program. -/
def WellFormed (p : Program) : Prop := ∀ m ∈ p.methods, p.MethodFormed m

/-- Every listed block can be reached. -/
def AllReached (p : Program) : Prop := ∀ m ∈ p.methods, ∀ b ∈ m.blocks, Reaches p.succs m.entry b

/-! ## Verification checks the rules -/

theorem when_eq_nil {c : Bool} {f : Finding} : Finding.when c f = [] ↔ c = false := by
  cases c <;> simp [Finding.when]

theorem edgeFindings_eq_nil :
    p.edgeFindings b r = [] ↔ (∀ s ∈ r.succs, b ∈ p.preds s) ∧ ∀ q ∈ r.preds, b ∈ p.succs q := by
  simp [edgeFindings]

theorem sameMembers_iff {xs ys : List BlockId} :
    sameMembers xs ys = true ↔ ∀ s, s ∈ xs ↔ s ∈ ys := by
  simp only [sameMembers, Bool.and_eq_true, List.all_eq_true, decide_eq_true_eq]
  exact ⟨fun h s => ⟨h.1 s, h.2 s⟩, fun h => ⟨fun s => (h s).1, fun s => (h s).2⟩⟩

/-- One terminator that stands last, counted: as many as there are before it
is none. -/
theorem filter_isTerminator_append {init : List Op} {op : Op} (hop : op.isTerminator = true) :
    ((init ++ [op]).filter Op.isTerminator).length = 1 ↔ ∀ o ∈ init, o.isTerminator = false := by
  simp [List.filter_append, hop, List.filter_eq_nil_iff]

theorem terminatorFindings_eq_nil :
    p.terminatorFindings b r = [] ↔
      ∃ init op, p.opsOf r.body = init ++ [op] ∧ op.isTerminator = true
        ∧ (∀ o ∈ init, o.isTerminator = false) ∧ ∀ s, s ∈ op.targets ↔ s ∈ r.succs := by
  rcases List.eq_nil_or_concat (p.opsOf r.body) with hops | ⟨init, op, hops⟩
  · simp [terminatorFindings, hops]
  · rw [terminatorFindings, hops]
    simp only [List.concat_eq_append, List.getLast?_append, List.getLast?_singleton, Option.or]
    constructor
    · intro h
      split at h
      · next hcond =>
          simp only [Bool.and_eq_true, decide_eq_true_eq] at hcond
          rw [when_eq_nil, Bool.not_eq_false', sameMembers_iff] at h
          exact ⟨init, op, rfl, hcond.2, (filter_isTerminator_append hcond.2).1 hcond.1, h⟩
      · cases h
    · rintro ⟨init', op', heq, hop, hinit, htargets⟩
      obtain ⟨rfl, hlast⟩ := List.append_inj' heq rfl
      obtain rfl := List.singleton_inj.1 hlast
      rw [if_pos, when_eq_nil, Bool.not_eq_false', sameMembers_iff]
      · exact htargets
      · rw [Bool.and_eq_true, decide_eq_true_eq]
        exact ⟨(filter_isTerminator_append hop).2 hinit, hop⟩

theorem phiFindings_eq_nil :
    p.phiFindings r = [] ↔ ∀ v ∈ r.phis, ∀ i x os, p.instr? v = some i → i.op = .phi x os →
      os.length = r.preds.length := by
  rw [phiFindings, List.flatMap_eq_nil_iff]
  refine forall₂_congr fun v _ => ?_
  constructor
  · rintro h ⟨_, _, _, _⟩ x os hi rfl
    simpa [hi, when_eq_nil] using h
  · intro h
    split
    · next x os _ _ _ hi =>
        rw [when_eq_nil]
        simpa using h _ x os hi rfl
    · rfl

theorem operandFindings_eq_nil {u v : ValueId} :
    p.operandFindings u v = [] ↔
      ∀ i, p.instr? v = some i → i.owner ≠ none ∧ u ∈ i.users := by
  rw [operandFindings]
  cases p.instr? v with
  | none => simp
  | some i => simp [when_eq_nil, Option.isSome_iff_ne_none]

theorem instrFindings_eq_nil {v : ValueId} :
    p.instrFindings b v = [] ↔
      (∀ i, p.instr? v = some i → i.owner = some b)
        ∧ (∀ o ∈ p.operands v, ∀ i, p.instr? o = some i → i.owner ≠ none ∧ v ∈ i.users)
        ∧ ∀ i, p.instr? v = some i → ∀ u ∈ i.users, v ∈ p.operands u := by
  rw [instrFindings, operands]
  cases p.instr? v with
  | none => simp
  | some i => simp [when_eq_nil, operandFindings_eq_nil]

theorem blockFindings_eq_nil : p.blockFindings b r = [] ↔ p.BlockFormed b r := by
  simp only [blockFindings, List.append_eq_nil_iff, edgeFindings_eq_nil, terminatorFindings_eq_nil,
    phiFindings_eq_nil, List.flatMap_eq_nil_iff, instrFindings_eq_nil, when_eq_nil]
  constructor
  · rintro ⟨⟨⟨⟨⟨hs, hp⟩, hd⟩, ht⟩, harity⟩, hinstr⟩
    refine ⟨hs, hp, fun he hnone => ?_, ht, harity, fun v hv => (hinstr v hv).1,
      fun u hu => (hinstr u hu).2.1, fun v hv => (hinstr v hv).2.2⟩
    simp [he, hnone] at hd
  · intro h
    refine ⟨⟨⟨⟨⟨h.succ_edge, h.pred_edge⟩, ?_⟩, h.terminator⟩, h.phi_arity⟩,
      fun v hv => ⟨h.owner v hv, h.operand v hv, h.user v hv⟩⟩
    cases hentry : r.isEntry with
    | true => rfl
    | false => simpa [Option.isSome_iff_ne_none] using h.dominator hentry

theorem endFindings_eq_nil {m : Method} :
    p.endFindings m = .ok [] ↔
      p.preds m.entry = [] ∧ ∃ e r, m.exit = some e ∧ p.block? e = some r ∧ r.succs = [] := by
  rw [endFindings]
  cases hexit : m.exit with
  | none => simp [pure, Except.pure]
  | some e =>
      cases hr : p.block? e with
      | none => simp [getBlock, hr, bind, Except.bind]
      | some r => simp [getBlock, hr, bind, Except.bind, pure, Except.pure, when_eq_nil]

theorem methodFindings_eq_nil {m : Method} : p.methodFindings m = .ok [] ↔ p.MethodFormed m := by
  have hblocks : ((p.listed m).flatMap fun x => p.blockFindings x.1 x.2) = [] ↔
      ∀ b r, b ∈ m.blocks → p.block? b = some r → p.BlockFormed b r := by
    simp only [List.flatMap_eq_nil_iff, listed, List.mem_filterMap, Option.map_eq_some_iff,
      Prod.forall, Prod.mk.injEq, blockFindings_eq_nil]
    constructor
    · intro h b r hb hr
      exact h b r ⟨b, hb, r, hr, rfl, rfl⟩
    · rintro h b r ⟨c, hc, s, hs, rfl, rfl⟩
      exact h c s hc hs
  have hsplit : p.methodFindings m = .ok [] ↔ p.endFindings m = .ok []
      ∧ ((p.listed m).flatMap fun x => p.blockFindings x.1 x.2) = [] := by
    rw [methodFindings]
    cases p.endFindings m with
    | error e => simp [bind, Except.bind]
    | ok ends => simp [bind, Except.bind, pure, Except.pure]
  rw [hsplit, endFindings_eq_nil, hblocks]
  exact ⟨fun h => ⟨h.1.1, h.1.2, h.2⟩, fun h => ⟨⟨h.entry, h.exit⟩, h.block⟩⟩

/-- Nothing is found where every part finds nothing. -/
theorem mapM_flatten_eq_nil {α β ε : Type} {f : α → Except ε (List β)} :
    ∀ {l : List α}, (∃ xs, l.mapM f = .ok xs ∧ xs.flatten = []) ↔ ∀ a ∈ l, f a = .ok []
  | [] => by simp [pure, Except.pure]
  | a :: l => by
      have ih := mapM_flatten_eq_nil (f := f) (l := l)
      rw [List.mapM_cons, List.forall_mem_cons, ← ih]
      cases f a with
      | error e => simp [bind, Except.bind]
      | ok x =>
          cases l.mapM f with
          | error e => simp [bind, Except.bind]
          | ok xs => simp [bind, Except.bind, pure, Except.pure]

/-- Verification finds nothing exactly where every rule is kept. -/
theorem verify_findings_iff (strict : Bool) :
    (∃ report, p.verify strict = .ok report ∧ report.findings = []) ↔ p.WellFormed := by
  have hall : p.WellFormed ↔ ∀ m ∈ p.methods.toList, p.methodFindings m = .ok [] := by
    simp [WellFormed, methodFindings_eq_nil]
  rw [hall, ← mapM_flatten_eq_nil, verify]
  cases p.methods.toList.mapM p.methodFindings with
  | error e => simp [bind, Except.bind]
  | ok xs => simp [bind, Except.bind, pure, Except.pure]

theorem deadBlocks_eq_nil : p.deadBlocks = [] ↔ p.AllReached := by
  simp [deadBlocks, AllReached, unreachable, mem_reachableFrom]

/-- What a report says besides its findings. -/
theorem verify_report {strict : Bool} {report : Report} (h : p.verify strict = .ok report) :
    report.warnings = p.deadBlocks
      ∧ report.valid = (report.findings.isEmpty && (!strict || report.warnings.isEmpty)) := by
  rw [verify] at h
  cases hxs : p.methods.toList.mapM p.methodFindings with
  | error e => simp [hxs, bind, Except.bind] at h
  | ok xs =>
      simp only [hxs, bind, Except.bind, pure, Except.pure, Except.ok.injEq] at h
      subst h
      exact ⟨rfl, rfl⟩

/-! ## Built programs keep the rules -/

/-- A block with an end has the terminator that the rules ask for. -/
theorem opsOf_of_ends (hr : p.block? b = some r) (h : p.view.Ends b) :
    ∃ init op, p.opsOf r.body = init ++ [op] ∧ op.isTerminator = true
      ∧ (∀ o ∈ init, o.isTerminator = false) ∧ ∀ s, s ∈ op.targets ↔ s ∈ r.succs := by
  obtain ⟨-, -, -, hbody, -, hsuccs, -⟩ := view_of_block hr
  obtain ⟨init, t, op, hinit, hop, hterm, hothers, htargets, -⟩ := h
  refine ⟨p.opsOf init, op, ?_, hterm, fun o ho => ?_, fun s => ?_⟩
  · rw [← hbody, hinit, opsOf, List.filterMap_append, ← opsOf]
    obtain ⟨i, hi, rfl⟩ := exists_instr hop
    simp [hi]
  · obtain ⟨u, hu, ho⟩ := List.mem_filterMap.1 ho
    obtain ⟨o', ho', hno⟩ := hothers u hu
    obtain rfl := Option.some.inj (ho.symm.trans ho')
    exact hno
  · rw [← hsuccs]
    exact htargets s

/-- A block of a finished method keeps the rules for blocks. -/
theorem blockFormed_of_closed (h : p.view.Sound) {id : MethodId} {m : Method} {e : BlockId}
    (hm : p.method? id = some m) (hclosed : p.view.Closed id e) (hb : b ∈ m.blocks)
    (hr : p.block? b = some r) : p.BlockFormed b r := by
  obtain ⟨-, hentry, -, howned, -⟩ := view_of_method hm
  obtain ⟨hkind, -, hphis, hbody, hpreds, hsuccs, -, -, hidom⟩ := view_of_block hr
  rw [← howned] at hb
  have hhome := h.wired.owned_home b id hb
  have hlive := hclosed.alive b hb
  have howner {v : ValueId} (hv : v ∈ r.contents) : p.view.owner v = some b := by
    rw [← h.wired.listed, View.contents, hphis, hbody]
    exact hv
  refine
    { succ_edge := fun s hs => (h.wired.edge b s).1 (hsuccs ▸ hs)
      pred_edge := fun q hq => (h.wired.edge q b).2 (hpreds ▸ hq)
      dominator := fun hnot hnone => ?_
      terminator := opsOf_of_ends hr (h.ended b hlive (hclosed.sealed b hb))
      phi_arity := fun v hv i x os hi hop => ?_
      owner := fun v hv i hi => ?_
      operand := fun u hu v hv i hi => ?_
      user := fun v hv i hi u hu => ?_ }
  · have habove := h.scoping.rooted b id _ (hclosed.sealed b hb) hhome hentry
    cases habove with
    | refl =>
        obtain ⟨vs, hvs⟩ := (h.wired.isEntry_entry _ id hentry).1
        rw [hkind] at hvs
        simp [Block.isEntry, Option.some.inj hvs] at hnot
    | up hd _ =>
        rw [hidom, hnone] at hd
        cases hd
  · obtain ⟨y, os', hop', hos⟩ := hclosed.filled b hb v (hphis ▸ hv)
    have hphi : p.view.op v = some (.phi x os) := by simp [view, hi, hop]
    obtain ⟨-, rfl⟩ := Op.phi.inj (Option.some.inj (hphi.symm.trans hop'))
    rw [← hpreds, ← hos, List.length_map]
  · simpa [view, hi] using howner hv
  · rw [← view_operands] at hv
    refine ⟨?_, ?_⟩
    · obtain ⟨c, -, d, hd, -⟩ := h.operand_defined (howner hu) hlive hv
      have : i.owner = some d := by simpa [view, hi] using hd
      simp [this]
    · obtain ⟨j, hj, hju⟩ := h.wired.reads_user u b v (howner hu) hlive hv
      obtain rfl := Option.some.inj (hi.symm.trans hj)
      exact hju
  · rw [← view_operands]
    exact h.wired.user_reads v u ⟨i, hi, hu⟩

/-- A program whose methods are all finished keeps the rules, and all of its
blocks can be reached. -/
theorem wellFormed_of_closed (h : p.view.Sound)
    (hclosed : ∀ m, p.view.sort m ≠ none → ∃ e, p.view.Closed m e) :
    p.WellFormed ∧ p.AllReached := by
  have hmethod (m : Method) (hm : m ∈ p.methods) :
      ∃ id e, p.method? id = some m ∧ p.view.Closed id e := by
    obtain ⟨i, hi⟩ := Array.mem_iff_getElem?.1 hm
    obtain ⟨hsort, -⟩ := view_of_method (p := p) (m := ⟨i⟩) hi
    obtain ⟨e, he⟩ := hclosed ⟨i⟩ (by simp [hsort])
    exact ⟨⟨i⟩, e, hi, he⟩
  refine ⟨fun m hm => ?_, fun m hm b hb => ?_⟩
  · obtain ⟨id, e, hid, he⟩ := hmethod m hm
    obtain ⟨-, hentry, hexit, -, -⟩ := view_of_method hid
    refine ⟨h.wired.entry_preds _ (h.wired.isEntry_entry _ id hentry).1, ?_, fun b r hb hr =>
      blockFormed_of_closed h hid he hb hr⟩
    obtain ⟨r, hr, -⟩ := exists_block he.kind
    obtain ⟨-, -, -, -, -, hsuccs, -⟩ := view_of_block hr
    exact ⟨e, r, hexit.symm.trans he.exit, hr, hsuccs.symm.trans (h.wired.exit_succs e he.kind)⟩
  · obtain ⟨id, e, hid, he⟩ := hmethod m hm
    obtain ⟨-, hentry, -, howned, -⟩ := view_of_method hid
    rw [← howned] at hb
    exact h.wired.live_reached b id _ (he.alive b hb) (h.wired.owned_home b id hb) hentry

/-- Listed blocks exist, and so do their instructions and what those read. -/
def Complete (p : Program) : Prop :=
  ∀ m ∈ p.methods, ∀ b ∈ m.blocks, ∃ r, p.block? b = some r
    ∧ ∀ u ∈ r.contents, p.instr? u ≠ none ∧ ∀ v ∈ p.operands u, p.instr? v ≠ none

/-- A value lists as users exactly the instructions of blocks that read it. -/
def UsesExact (p : Program) : Prop :=
  ∀ u v b i, p.DefinedIn u b → p.instr? v = some i → (u ∈ i.users ↔ v ∈ p.operands u)

theorem usesExact_of_closed (h : p.view.Sound)
    (hclosed : ∀ m, p.view.sort m ≠ none → ∃ e, p.view.Closed m e) : p.UsesExact := by
  intro u v b i hu hi
  rw [definedIn_iff] at hu
  rw [← view_operands]
  constructor
  · intro huser
    exact h.wired.user_reads v u ⟨i, hi, huser⟩
  · intro hv
    obtain ⟨-, hlive, -⟩ := h.live_of_owner p.view_tables hclosed hu
    obtain ⟨j, hj, huser⟩ := h.wired.reads_user u b v hu hlive hv
    obtain rfl := Option.some.inj (hi.symm.trans hj)
    exact huser

theorem instr?_ne_none {v : ValueId} : p.instr? v ≠ none ↔ p.view.op v ≠ none := by
  simp [view]

theorem complete_of_sound (h : p.view.Sound) : p.Complete := by
  intro m hm b hb
  obtain ⟨i, hi⟩ := Array.mem_iff_getElem?.1 hm
  obtain ⟨-, -, -, howned, -⟩ := view_of_method (p := p) (m := ⟨i⟩) hi
  have hhome := h.wired.owned_home b ⟨i⟩ (howned ▸ hb)
  have hkind := p.view_tables.present_of_home hhome
  obtain ⟨r, hr⟩ := block_of_kind hkind
  obtain ⟨-, -, hphis, hbody, -⟩ := view_of_block hr
  refine ⟨r, hr, fun u hu => ⟨?_, fun v hv => ?_⟩⟩
  · rw [instr?_ne_none]
    refine h.wired.op_of_contents (b := b) ?_
    rw [View.contents, hphis, hbody]
    exact hu
  · rw [instr?_ne_none]
    rw [← view_operands] at hv
    cases hop : p.view.op u with
    | none => simp [View.operands, hop] at hv
    | some op =>
        rw [View.operands, hop] at hv
        exact (h.wired.operand_value u v op hop hv).exists_op

end Program

/-- Whatever the tokens, a program that is built passes verification without a
finding and without a warning, and keeps all the rules. -/
theorem buildTokens_verifies {tokens : List Token} {earlier : List Diagnostic} {built : Built}
    (h : buildTokens tokens earlier = .ok built) :
    (∀ strict, ∃ report, built.program.verify strict = .ok report
        ∧ report.valid = true ∧ report.findings = [] ∧ report.warnings = [])
      ∧ built.program.WellFormed ∧ built.program.AllReached ∧ built.program.Complete
      ∧ built.program.UsesExact := by
  obtain ⟨hsound, hclosed⟩ := buildTokens_sound h
  obtain ⟨hformed, hreached⟩ := Program.wellFormed_of_closed hsound hclosed
  refine ⟨fun strict => ?_, hformed, hreached, Program.complete_of_sound hsound,
    Program.usesExact_of_closed hsound hclosed⟩
  obtain ⟨report, hreport, hfindings⟩ := (Program.verify_findings_iff strict).2 hformed
  obtain ⟨hwarnings, hvalid⟩ := Program.verify_report hreport
  have hnone : report.warnings = [] := hwarnings.trans (Program.deadBlocks_eq_nil.2 hreached)
  refine ⟨report, hreport, ?_, hfindings, hnone⟩
  simp [hvalid, hfindings, hnone]

/-- A body with code after its return, cut off in the middle and never closed. -/
def interrupted : List Token :=
  [.keyword .main, .keyword .var, .ident "x", .punct .semicolon, .punct .lbrace,
    .keyword .if_, .ident "x", .punct .lt, .number 9, .keyword .then_,
    .keyword .ret, .punct .semicolon, .eof, .keyword .let_, .ident "x", .punct .arrow, .number 1,
    .keyword .fi, .punct .rbrace].map fun k => ⟨k, k.text, .start⟩

theorem interrupted_verifies : ∃ built, buildTokens interrupted [] = .ok built
    ∧ built.diagnostics.length = 3
    ∧ ((∀ strict, ∃ report, built.program.verify strict = .ok report
        ∧ report.valid = true ∧ report.findings = [] ∧ report.warnings = [])
      ∧ built.program.WellFormed ∧ built.program.AllReached ∧ built.program.Complete
      ∧ built.program.UsesExact) := by
  have hrun : ((buildTokens interrupted []).toOption.map fun b => b.diagnostics.length)
      = some 3 := by
    decide +kernel
  cases h : buildTokens interrupted [] with
  | error e => rw [h] at hrun; cases hrun
  | ok built =>
      rw [h] at hrun
      exact ⟨built, rfl, Option.some.inj hrun, buildTokens_verifies h⟩

end StructuredSsa
