import StructuredSsa.Proofs.FoldedForm

/-!
# Folding built programs

Folding ends well or at a division by zero, and in both cases the program it
leaves has the form of `Program.Kept`: it passes verification, its phis read
what their variables hold at the sources of the edges, and what control can
still get to is in static single assignment form below true dominators. So no
compilation ends at its own verification.
-/

namespace StructuredSsa

/-! ## Whole runs -/

namespace Fold

/-- A run that ends well or at a division by zero, with a program of which `I`
holds. -/
inductive Settles (I : Program → Prop) : EStateM.Result Stop Program FoldCount → Prop where
  | done {count : FoldCount} {p : Program} : I p → Settles I (.ok count p)
  | divisionByZero {p : Program} (line : Nat) :
      I p → Settles I (.error (.error (.divisionByZero line)) p)

variable {I J : Program → Prop} {p : Program} {b : BlockId} {v : ValueId}

theorem Settles.mono {r : EStateM.Result Stop Program FoldCount} (h : Settles I r)
    (hIJ : ∀ q, I q → J q) : Settles J r := by
  cases h with
  | done hI => exact .done (hIJ _ hI)
  | divisionByZero line hI => exact .divisionByZero line (hIJ _ hI)

theorem Settles.bind {x : FoldM FoldCount} {f : FoldCount → FoldM FoldCount}
    (hx : Settles I (x p)) (hIJ : ∀ q, I q → J q)
    (hf : ∀ count q, I q → Settles J (f count q)) : Settles J ((x >>= f) p) := by
  show Settles J (EStateM.bind x f p)
  unfold EStateM.bind
  cases hrun : x p with
  | ok count q =>
      rw [hrun] at hx
      cases hx with
      | done hI => exact hf count q hI
  | error e q =>
      rw [hrun] at hx
      cases hx with
      | divisionByZero line hI => exact .divisionByZero line (hIJ q hI)

/-- An invariant of the steps is one of going through a list with them. -/
theorem Settles.foldlM {α : Type} {f : FoldCount → α → FoldM FoldCount} :
    ∀ {as : List α}, (∀ a ∈ as, ∀ count p, I p → Settles I (f count a p)) →
      ∀ {count : FoldCount} {p : Program}, I p → Settles I (as.foldlM f count p)
  | [], _, _, _, hI => .done hI
  | a :: as, hf, count, p, hI => by
      rw [List.foldlM_cons]
      exact (hf a (List.mem_cons_self ..) count p hI).bind (fun _ hq => hq) fun _ _ hq =>
        Settles.foldlM (fun c hc => hf c (List.mem_cons_of_mem _ hc)) hq

/-- A program in form that lists the blocks `bs`. -/
structure Formed (bs : List BlockId) (p : Program) : Prop where
  form : p.view.Formed
  present : ∀ b ∈ bs, p.view.kind b ≠ none

theorem evaluates_op {n : Int64} (h : p.view.Evaluates v n) :
    ∃ o, p.view.op v = some o ∧ o.isTerminator = false := by
  cases h with
  | arith hop _ _ _ => exact ⟨_, hop, rfl⟩
  | compare hop _ _ => exact ⟨_, hop, rfl⟩

/-- A visit keeps the form, and the rest of the block stays where it is. -/
theorem visit_settles {bs : List BlockId} (h : Formed bs p) (hv : v ∈ p.view.body b)
    (count : FoldCount) :
    Settles (fun q => Formed bs q ∧ ∀ u ∈ p.view.body b, u ≠ v → u ∈ q.view.body b)
      (visit b count v p) := by
  have hvisited := visit_cases h.form.toTidy hv count
  generalize visit b count v p = result at hvisited
  cases hvisited with
  | kept => exact .done ⟨h, fun u hu _ => hu⟩
  | divisionByZero line => exact .divisionByZero line ⟨h, fun u hu _ => hu⟩
  | folded hn hview =>
      obtain ⟨o, hop, hno⟩ := evaluates_op hn
      refine .done ⟨⟨?_, ?_⟩, fun u hu hne => ?_⟩ <;> rw [hview]
      · exact h.form.foldInto p.view_tables hv hop hno
      · exact h.present
      · rw [h.form.foldInto_body p.view_tables hv]
        exact List.mem_map.2 ⟨u, hu, rename_of_ne hne⟩
  | followed hd hview =>
      obtain ⟨op, user, succs, preds, hrest⟩ := p.view.follow_rest b v _ _
      refine .done ⟨⟨?_, ?_⟩, fun u hu _ => ?_⟩
      · rw [hview]
        exact h.form.follow hv hd
      · rw [hview, hrest]
        exact h.present
      · rw [hview, hrest]
        exact hu

theorem visits_settle {bs : List BlockId} : ∀ {vs : List ValueId} {p : Program}
    {count : FoldCount}, Formed bs p → vs.Nodup → (∀ v ∈ vs, v ∈ p.view.body b) →
      Settles (Formed bs) (vs.foldlM (visit b) count p)
  | [], _, _, h, _, _ => .done h
  | v :: vs, p, count, h, hnodup, hvs => by
      rw [List.foldlM_cons]
      obtain ⟨hnot, hnodup⟩ := List.nodup_cons.1 hnodup
      refine (visit_settles h (hvs v (List.mem_cons_self ..)) count).bind (fun q hq => hq.1)
        fun count' q hq => visits_settle hq.1 hnodup fun u hu => ?_
      refine hq.2 u (hvs u (List.mem_cons_of_mem _ hu)) ?_
      rintro rfl
      exact hnot hu

theorem visitBlock_settles {bs : List BlockId} (h : Formed bs p) (hb : b ∈ bs)
    (count : FoldCount) : Settles (Formed bs) (visitBlock count b p) := by
  obtain ⟨r, hr⟩ := Program.block_of_kind (h.present b hb)
  obtain ⟨-, -, -, hbody, -⟩ := Program.view_of_block hr
  have hrun : visitBlock count b p = (p.view.body b).foldlM (visit b) count p := by
    simp [visitBlock, bind, EStateM.bind, look, Program.getBlock_ok hr, hbody]
  rw [hrun]
  exact visits_settle h (h.form.nodup b) fun v hv => hv

/-- A pass goes over blocks that are there, whatever it does to their bodies. -/
theorem pass_settles (h : p.view.Formed) : Settles (fun q => q.view.Formed) (pass p) := by
  have hrun : pass p = (p.methods.toList.flatMap (·.blocks)).foldlM visitBlock
      { FoldCount.zero with passes := 1 } p := rfl
  have hformed : Formed (p.methods.toList.flatMap (·.blocks)) p := by
    refine ⟨h, fun b hb => ?_⟩
    obtain ⟨m, hm, hb⟩ := List.mem_flatMap.1 hb
    obtain ⟨i, hi⟩ := List.mem_iff_getElem?.1 hm
    obtain ⟨-, -, -, howned, -⟩ := Program.view_of_method (p := p) (m := ⟨i⟩)
      (by simpa [Program.method?] using hi)
    exact h.listed_kind ⟨i⟩ b (howned ▸ hb)
  rw [hrun]
  exact Settles.mono (Settles.foldlM (fun b hb count q hq => visitBlock_settles hq hb count) hformed)
    fun q hq => hq.form

theorem repeated_settles : ∀ (n : Nat) {p : Program}, p.view.Formed →
    Settles (fun q => q.view.Formed) (repeated n p)
  | 0, _, h => pass_settles h
  | n + 1, p, h => by
      refine (pass_settles h).bind (fun _ hq => hq) fun count q hq => ?_
      split
      · exact (repeated_settles n hq).bind (fun _ hq => hq) fun _ _ hq => .done hq
      · exact .done hq

theorem run_settles (level maxPasses : Nat) (h : p.view.Formed) :
    Settles (fun q => q.view.Formed) (run level maxPasses p) := by
  unfold run
  split
  · exact .done h
  · exact pass_settles h
  · exact repeated_settles _ h

end Fold

/-! ## What the form says of a program -/

namespace Program

/-- Every phi of a block has one operand for each edge into the block, in their
order: what its variable holds on leaving the source of the edge. -/
def PhisAgree (p : Program) (r : Block) : Prop :=
  ∀ v ∈ r.phis, ∃ i x os, p.instr? v = some i ∧ i.op = .phi x os
    ∧ List.Forall₂ (fun q o => o.1 = q ∧ ∃ st, p.leaving? q = some st ∧ st.get? x = some o.2)
        r.preds os

/-- The form that a block of a method keeps. -/
structure BlockKept (p : Program) (m : Method) (b : BlockId) (r : Block) : Prop where
  phis : p.PhisAgree r
  /-- The pointer of a block that can be reached leads to another block, which
  is on every walk there. -/
  dominator : Reaches p.succs m.entry b → b ≠ m.entry →
    ∃ d, r.dominator = some d ∧ d ≠ b ∧ OnEveryWalk p.succs m.entry d b
  ssa : Reaches p.succs m.entry b → p.SsaBlock m b r

/-- The form that a program keeps. -/
structure Kept (p : Program) : Prop where
  verifies : ∀ strict, ∃ report, p.verify strict = .ok report ∧ report.findings = []
  block : ∀ id m, p.method? id = some m → ∀ b ∈ m.blocks,
    ∃ r, p.block? b = some r ∧ p.BlockKept m b r

section

variable {p : Program} (h : p.view.Formed)
include h

theorem blockFormed_of_formed {id : MethodId} {m : Method} {b : BlockId} {r : Block}
    (hm : p.method? id = some m) (hb : b ∈ m.blocks) (hr : p.block? b = some r) :
    p.BlockFormed b r := by
  obtain ⟨-, -, -, howned, -⟩ := view_of_method hm
  obtain ⟨hkind, -, hphis, hbody, hpreds, hsuccs, -, -, hidom⟩ := view_of_block hr
  rw [← howned] at hb
  have howner {v : ValueId} (hv : v ∈ r.contents) : p.view.owner v = some b := by
    rw [← h.listed, View.contents, hphis, hbody]
    exact hv
  refine
    { succ_edge := fun s hs => (h.edge b s).1 (hsuccs ▸ hs)
      pred_edge := fun q hq => (h.edge q b).2 (hpreds ▸ hq)
      dominator := fun hnot hnone => ?_
      terminator := opsOf_of_ends hr (h.ended id b hb)
      phi_arity := fun v hv i x os hi hop => ?_
      owner := fun v hv i hi => ?_
      operand := fun u hu v hv i hi => ?_
      user := fun v hv i hi u hu => ?_ }
  · rcases h.pointed id b hb with ⟨-, vs, hvs⟩ | hsome
    · rw [hkind] at hvs
      simp [Block.isEntry, Option.some.inj hvs] at hnot
    · exact hsome (hidom.trans hnone)
  · obtain ⟨y, os', hop', hos⟩ := h.agrees id b v hb (hphis ▸ hv)
    have hphi : p.view.op v = some (.phi x os) := by simp [view, hi, hop]
    obtain ⟨-, rfl⟩ := Op.phi.inj (Option.some.inj (hphi.symm.trans hop'))
    rw [← hpreds, hos.length_eq]
  · simpa [view, hi] using howner hv
  · rw [← view_operands] at hv
    refine ⟨?_, ?_⟩
    · obtain ⟨d, hd⟩ := Option.ne_none_iff_exists'.1 (h.defined u b v (howner hu) hv)
      have : i.owner = some d := by simpa [view, hi] using hd
      simp [this]
    · obtain ⟨j, hj, hju⟩ := h.reads_user u b v (howner hu) hv
      obtain rfl := Option.some.inj (hi.symm.trans hj)
      exact hju
  · rw [← view_operands]
    exact h.user_reads v u ⟨i, hi, hu⟩

theorem wellFormed_of_formed : p.WellFormed := by
  intro m hm
  obtain ⟨i, hi⟩ := Array.mem_iff_getElem?.1 hm
  have hid : p.method? ⟨i⟩ = some m := hi
  obtain ⟨hsort, hentry, hexit, -, -⟩ := view_of_method hid
  refine ⟨h.entry_preds ⟨i⟩ m.entry hentry, ?_, fun b r hb hr => blockFormed_of_formed h hid hb hr⟩
  obtain ⟨e, he, hkind, hsuccs⟩ := h.exit ⟨i⟩ (by simp [hsort])
  obtain ⟨r, hr⟩ := block_of_kind hkind
  obtain ⟨-, -, -, -, -, hsuccs', -⟩ := view_of_block hr
  exact ⟨e, r, hexit.symm.trans he, hr, hsuccs'.symm.trans hsuccs⟩

/-- A block of a program in form is in static single assignment form if it can
be reached. -/
theorem ssaBlock_of_formed {id : MethodId} {m : Method} {b : BlockId} {r : Block}
    (hm : p.method? id = some m) (hb : b ∈ m.blocks) (hr : p.block? b = some r)
    (hreach : Reaches p.succs m.entry b) : p.SsaBlock m b r := by
  obtain ⟨-, hentry, hexit, howned, -⟩ := view_of_method hm
  obtain ⟨-, -, hphis, hbody, -, -, -, hafter, -⟩ := view_of_block hr
  rw [← howned] at hb
  have hdom := h.dominated id m.entry b hentry hb
  refine ⟨hreach, hafter ▸ h.sealed id b hb, fun u hu => ?_, fun j u v hj hv => ?_,
    fun u i x os q v hu hi hop hq => ?_, fun hnot st x v hst hx => ?_⟩
  · rw [definedIn_iff, ← h.listed, View.contents, hphis, hbody]
    exact hu
  · obtain ⟨hlt, rfl⟩ := List.getElem?_eq_some_iff.1 hj
    have hsplit : p.view.body b = r.body.take j ++ r.body[j] :: r.body.drop (j + 1) := by
      rw [hbody, List.cons_getElem_drop_succ, List.take_append_drop]
    rw [← view_operands] at hv
    have howner {x : ValueId} (hx : x ∈ p.view.contents b) : p.DefinedIn x b :=
      definedIn_iff.2 ((h.listed x b).1 hx)
    rcases hdom.operand _ _ _ v hsplit hv with hphi | hdone | ⟨d, hd, hne, hwalk⟩
    · exact ⟨b, howner (List.mem_append_left _ hphi), Or.inl (hphis ▸ hphi)⟩
    · obtain ⟨i, hi, hget⟩ := List.mem_take_iff_getElem.1 hdone
      have hij : i < j := by omega
      have hat : r.body[i]? = some v := List.getElem?_eq_some_iff.2 ⟨by omega, hget⟩
      exact ⟨b, howner (List.mem_append_right _ (hbody ▸ List.mem_of_getElem? hat)),
        Or.inr (Or.inl ⟨i, hij, hat⟩)⟩
    · exact ⟨d, definedIn_iff.2 hd, Or.inr (Or.inr ⟨hne, hwalk⟩)⟩
  · have hop' : p.view.op u = some (.phi x os) := by simp [view, hi, hop]
    obtain ⟨d, hd, hwalk⟩ := hdom.phi_operand u x os q v (hphis ▸ hu) hop' hq
    exact ⟨d, definedIn_iff.2 hd, hwalk⟩
  · have hne : p.view.kind b ≠ some .exit := fun hk =>
      hnot (hexit.symm.trans (h.exit_sole id b hb hk))
    obtain ⟨d, hd, hwalk⟩ := hdom.binding st x v hne (hafter.trans hst) hx
    exact ⟨d, definedIn_iff.2 hd, Or.inr hwalk⟩

theorem kept_of_formed : p.Kept := by
  refine ⟨fun strict => (verify_findings_iff strict).2 (wellFormed_of_formed h),
    fun id m hm b hb => ?_⟩
  obtain ⟨-, hentry, -, howned, -⟩ := view_of_method hm
  obtain ⟨r, hr⟩ := block_of_kind (h.listed_kind id b (howned ▸ hb))
  obtain ⟨-, -, hphis, -, hpreds, -, -, -, hidom⟩ := view_of_block hr
  refine ⟨r, hr, fun v hv => ?_, fun _ hne => ?_, fun hreach => ssaBlock_of_formed h hm hb hr hreach⟩
  · obtain ⟨x, os, hop, hos⟩ := h.agrees id b v (howned ▸ hb) (hphis ▸ hv)
    obtain ⟨i, hi, hiop⟩ := exists_instr hop
    exact ⟨i, x, os, hi, hiop, hpreds ▸ hos⟩
  · rcases h.pointed id b (howned ▸ hb) with ⟨he, -⟩ | hsome
    · exact absurd (Option.some.inj (he.symm.trans hentry)) hne
    · obtain ⟨d, hd⟩ := Option.ne_none_iff_exists'.1 hsome
      exact ⟨d, hidom.symm.trans hd,
        (h.dominated id m.entry b hentry (howned ▸ hb)).pointer d hd⟩

end

end Program

/-! ## Built programs, and what is compiled -/

theorem formed_of_built {tokens : List Token} {earlier : List Diagnostic} {built : Built}
    (h : buildTokens tokens earlier = .ok built) : built.program.view.Formed := by
  obtain ⟨hsound, hclosed⟩ := buildTokens_sound h
  exact View.formed_of_closed hsound built.program.view_tables hclosed

theorem lex_failure : ∀ (segments : List Segment) (pos : Pos) {e : Error},
    (lex segments pos).failure = some e → ∃ pos message, e = .malformed pos message
  | [], pos, e, h => by simp [lex] at h
  | s :: rest, pos, e, h => by
      unfold lex at h
      dsimp only at h
      split at h
      · obtain rfl := Option.some.inj h
        exact ⟨_, _, rfl⟩
      · exact lex_failure rest _ h

/-- A source text that is not built has an error of its own. -/
theorem build_error {source : String} {stop : Stop} (h : build source = .error stop) :
    ∃ e ds, stop = .error (e.after ds)
      ∧ (Build.Expected e ∨ ∃ pos message, e = .malformed pos message) := by
  unfold build at h
  unfold Scanner.scan at h
  dsimp only at h
  split at h
  · next e scanner hscan =>
      obtain rfl := Except.error.inj h
      split at hscan
      · next hfailure =>
          obtain ⟨rfl, -⟩ : _ = e ∧ _ := by simpa using hscan
          exact ⟨_, _, rfl, Or.inr (lex_failure _ _ hfailure)⟩
      · simp at hscan
  · next tokens scanner hscan =>
      cases hbuilt : buildTokens tokens scanner.diagnostics with
      | ok built => simp [hbuilt, bind, Except.bind, pure, Except.pure] at h
      | error stop' =>
          obtain rfl : stop' = stop := by simpa [hbuilt, bind, Except.bind] using h
          obtain ⟨e, ds, rfl, he⟩ := buildTokens_error hbuilt
          exact ⟨e, ds, rfl, Or.inl he⟩

/-- What is folded passes the verification behind it. -/
theorem verifyFolded_ok {p : Program} (h : p.view.Formed) (o : Options) (ds : List Diagnostic) :
    verifyFolded o p ds = .ok () := by
  obtain ⟨report, hreport, hfindings⟩ := (p.kept_of_formed h).verifies false
  have hvalid : report.valid = true := by
    rw [(Program.verify_report hreport).2, hfindings]
    rfl
  unfold verifyFolded
  split
  · simp [hreport, Stop.lift, bind, Except.bind, hvalid, pure, Except.pure]
  · rfl

/-- A compilation that fails does so for its source or for a division by zero:
it neither misuses the program it works on nor breaks its own expectations. -/
theorem compile_error {o : Options} {source : String} {stop : Stop}
    (h : compile o source = .error stop) :
    ∃ e, stop = .error e ∧ ∀ reason, e.root ≠ .internal reason := by
  unfold compile at h
  cases hbuilt : build source with
  | error stop' =>
      obtain rfl : stop' = stop := by simpa [hbuilt, bind, Except.bind] using h
      obtain ⟨e, ds, rfl, he⟩ := build_error hbuilt
      refine ⟨_, rfl, fun reason hroot => ?_⟩
      rw [Error.root_after] at hroot
      rcases he with he | ⟨pos, message, rfl⟩
      · cases e <;> first | exact he | cases hroot
      · cases hroot
  | ok built =>
      simp only [hbuilt, bind, Except.bind] at h
      cases hreject : rejectErrors o built.diagnostics with
      | error stop' =>
          obtain rfl : stop' = stop := by simpa [hreject] using h
          unfold rejectErrors at hreject
          dsimp only at hreject
          split at hreject
          · obtain rfl := Except.error.inj hreject
            exact ⟨_, rfl, fun reason hroot => by cases hroot⟩
          · cases hreject
      | ok _ =>
          obtain ⟨tokens, scanner, built', -, htokens, hsame⟩ := exists_tokens_of_build hbuilt
          have hformed := hsame ▸ formed_of_built htokens
          have hsettles := Fold.run_settles o.optLevel o.maxFoldPasses hformed
          simp only [hreject, foldBuilt] at h
          cases hrun : Fold.run o.optLevel o.maxFoldPasses built.program with
          | ok count p =>
              rw [hrun] at hsettles h
              cases hsettles with
              | done hp => simp [verifyFolded_ok hp, pure, Except.pure] at h
          | error stop' p =>
              rw [hrun] at hsettles h
              cases hsettles with
              | divisionByZero line _ =>
                  obtain rfl := Except.error.inj h
                  refine ⟨_, rfl, fun reason hroot => ?_⟩
                  rw [Error.root_after] at hroot
                  cases hroot

/-- Folding a built program, at any level and for any number of passes, ends
well or at a division by zero, and leaves a program that has kept its form. No
compilation, whatever its source and options, fails its own verification. -/
theorem fold_kept :
    (∀ tokens earlier built, buildTokens tokens earlier = .ok built → ∀ level maxPasses, ∃ p,
      ((∃ count, Fold.run level maxPasses built.program = .ok count p)
        ∨ ∃ line, Fold.run level maxPasses built.program = .error (.error (.divisionByZero line)) p)
      ∧ p.Kept)
    ∧ ∀ o source stop, compile o source = .error stop →
        ∃ e, stop = .error e ∧ ∀ reason, e.root ≠ .internal reason := by
  refine ⟨fun tokens earlier built hbuilt level maxPasses => ?_, fun o source stop => compile_error⟩
  have hsettles := Fold.run_settles level maxPasses (formed_of_built hbuilt)
  cases hrun : Fold.run level maxPasses built.program with
  | ok count p =>
      rw [hrun] at hsettles
      cases hsettles with
      | done hp => exact ⟨p, Or.inl ⟨count, rfl⟩, p.kept_of_formed hp⟩
  | error stop p =>
      rw [hrun] at hsettles
      cases hsettles with
      | divisionByZero line hp => exact ⟨p, Or.inr ⟨line, rfl⟩, p.kept_of_formed hp⟩

/-- A branch on constants around a loop, and a division by zero behind it. -/
def halved : List Token :=
  [.keyword .main, .keyword .var, .ident "x", .punct .semicolon, .punct .lbrace,
    .keyword .if_, .number 2, .punct .lt, .number 1, .keyword .then_,
    .keyword .while_, .ident "x", .punct .lt, .number 9, .keyword .do_,
    .keyword .let_, .ident "x", .punct .arrow, .ident "x", .punct .plus, .number 1,
    .keyword .od, .keyword .fi, .punct .semicolon,
    .keyword .let_, .ident "x", .punct .arrow, .number 7, .punct .slash, .number 0,
    .punct .rbrace, .punct .period, .eof].map fun k => ⟨k, k.text, .start⟩

theorem halved_fold_kept : ∃ built p, buildTokens halved [] = .ok built
    ∧ Fold.run 2 5 built.program = .error (.error (.divisionByZero 1)) p
    ∧ p.blocks.size = built.program.blocks.size ∧ p.values.size = built.program.values.size + 1
    ∧ p.Kept := by
  have hrun : ((buildTokens halved []).toOption.bind fun built =>
      match Fold.run 2 5 built.program with
      | .error (.error (.divisionByZero line)) p => some (line,
          p.blocks.size == built.program.blocks.size
            && p.values.size == built.program.values.size + 1)
      | _ => none) = some (1, true) := by
    decide +kernel
  cases hbuilt : buildTokens halved [] with
  | error e => rw [hbuilt] at hrun; cases hrun
  | ok built =>
      obtain ⟨p, hcases, hkept⟩ := fold_kept.1 halved [] built hbuilt 2 5
      rw [hbuilt] at hrun
      rcases hcases with ⟨count, hfold⟩ | ⟨line, hfold⟩
      · simp [Except.toOption, hfold] at hrun
      · simp only [Except.toOption, Option.bind_some, hfold, Option.some.injEq, Prod.mk.injEq,
          Bool.and_eq_true, beq_iff_eq] at hrun
        obtain ⟨rfl, hblocks, hvalues⟩ := hrun
        exact ⟨built, p, rfl, hfold, hblocks, hvalues, hkept⟩

end StructuredSsa
