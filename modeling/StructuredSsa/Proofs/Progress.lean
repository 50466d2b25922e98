import StructuredSsa.Proofs.Machine
import StructuredSsa.Proofs.SsaForm

/-!
# Runs of finished methods do not break

A run follows a walk from the entry, and whatever stands in a block it has
left has a word. Since definitions lie on every walk to their uses, an
instruction finds its operands, and a phi its operand for the edge it is
entered by. `Closed.run_ne_broken` says it of every run, whatever the
surroundings answer.
-/

namespace StructuredSsa

open Machine

namespace View

/-- Those of some values that have a word at all have one now. -/
def Known (w : View) (regs : ValueId → Option Int64) (vs : List ValueId) : Prop :=
  ∀ v ∈ vs, w.HasValue v → regs v ≠ none

theorem Known.set {w : View} {regs : ValueId → Option Int64} {vs : List ValueId} {u : ValueId}
    {value : Option Int64} (h : ∀ v ∈ vs, v ≠ u → w.HasValue v → regs v ≠ none)
    (hu : w.HasValue u → value ≠ none) :
    w.Known (fun v => if v = u then value else regs v) vs := by
  intro v hv hvalue
  by_cases hvu : v = u
  · simpa [hvu] using hu (hvu ▸ hvalue)
  · simpa [hvu] using h v hv hvu hvalue

/-- A run that came along a walk and left nothing out. -/
structure OnTrack (w : View) (e : BlockId) (s : State) : Prop where
  walked : ∃ l, Walk w.succs e s.block l ∧ ∀ a ∈ l, a ≠ s.block → w.Known s.regs (w.contents a)
  here : ∃ done, w.body s.block = done ++ s.rest ∧ w.Known s.regs (w.phis s.block ++ done)
  more : s.rest ≠ []

/-! ## The end of a block -/

/-- What stands before the end of a block is no terminator, and a terminator
stands at its end. -/
theorem Ends.split {w : View} {b : BlockId} (h : w.Ends b) {done rest : List ValueId} {u : ValueId}
    {op : Op} (hbody : w.body b = done ++ u :: rest) (hop : w.op u = some op) :
    (op.isTerminator = false ∧ rest ≠ []) ∨ (op.isTerminator = true ∧ rest = []
      ∧ (∀ s, s ∈ op.targets ↔ s ∈ w.succs b) ∧ op.targets.Nodup) := by
  obtain ⟨init, t, o, hinit, ho, hterm, hothers, htargets, hnodup⟩ := h
  rw [hbody] at hinit
  rcases List.eq_nil_or_concat rest with rfl | ⟨rest', last, rfl⟩
  · obtain ⟨-, hlast⟩ := List.append_inj' hinit rfl
    obtain rfl := List.singleton_inj.1 hlast
    obtain rfl := Option.some.inj (hop.symm.trans ho)
    exact Or.inr ⟨hterm, rfl, htargets, hnodup⟩
  · rw [List.concat_eq_append, ← List.cons_append, ← List.append_assoc] at hinit
    obtain ⟨hfront, -⟩ := List.append_inj' hinit rfl
    obtain ⟨o', ho', hno⟩ := hothers u (by simp [← hfront])
    obtain rfl := Option.some.inj (hop.symm.trans ho')
    exact Or.inl ⟨hno, by simp⟩

theorem Ends.body_ne {w : View} {b : BlockId} (h : w.Ends b) : w.body b ≠ [] := by
  obtain ⟨init, t, -, hinit, -⟩ := h
  simp [hinit]

/-- A terminator has no word. -/
theorem not_hasValue {w : View} {v : ValueId} {op : Op} (hop : w.op v = some op)
    (hterm : op.isTerminator = true) : ¬w.HasValue v := by
  rintro ⟨o, ho, hvalue⟩
  obtain rfl := Option.some.inj (hop.symm.trans ho)
  cases op <;> simp_all [Op.isTerminator, Op.hasValue]

/-! ## Operands have words -/

section

variable {w : View} {m : MethodId} {x e : BlockId} {s : State}

theorem OnTrack.live (h : w.Sound) (he : w.entry m = some e) (ht : w.OnTrack e s) :
    w.Live s.block ∧ w.home s.block = some m := by
  obtain ⟨l, hl, -⟩ := ht.walked
  exact h.wired.live_of_reaches he ⟨l, hl⟩

theorem OnTrack.ends (h : w.Sound) (hx : w.Closed m x) (he : w.entry m = some e)
    (ht : w.OnTrack e s) : w.Ends s.block := by
  obtain ⟨hlive, hhome⟩ := ht.live h he
  exact h.ended _ hlive (hx.sealed _ (h.wired.live_owned _ m hlive hhome))

/-- What is defined above the block of a run, in another block, has a word. -/
theorem OnTrack.known_above (h : w.Sound) (he : w.entry m = some e) (ht : w.OnTrack e s)
    {v : ValueId} {d : BlockId} (hv : w.HasValue v) (hd : w.owner v = some d)
    (habove : Above w.idom d s.block) (hne : d ≠ s.block) : s.regs v ≠ none := by
  obtain ⟨l, hl, hknown⟩ := ht.walked
  exact hknown d (h.mem_walk he hl habove) hne v ((h.wired.listed v d).2 hd) hv

theorem OnTrack.operand (h : w.Sound) (he : w.entry m = some e) (ht : w.OnTrack e s)
    {u v : ValueId} {rest : List ValueId} {op : Op} (hrest : s.rest = u :: rest)
    (hop : w.op u = some op) (hv : v ∈ op.operands) : s.regs v ≠ none := by
  obtain ⟨done, hbody, hknown⟩ := ht.here
  rw [hrest] at hbody
  have hu : u ∈ w.body s.block := by simp [hbody]
  obtain ⟨o, ho, hno⟩ := h.wired.not_phi_of_body u _ hu
  obtain rfl := Option.some.inj (hop.symm.trans ho)
  have howner := (h.wired.listed u _).1 (List.mem_append_right _ hu)
  have hvalue := h.wired.operand_value u v op hop hv
  obtain ⟨d, hd, habove⟩ :=
    h.scoping.operand_above u _ v op howner (ht.live h he).1 hop hno hv
  by_cases hdb : d = s.block
  · refine hknown v ?_ hvalue
    subst hdb
    rcases List.mem_append.1 ((h.wired.listed v _).2 hd) with hphi | hord
    · exact List.mem_append_left _ hphi
    · refine List.mem_append_right _ ?_
      -- The block is in order of creation, so `v` cannot stand behind `u`.
      have hlt := h.wired.operand_lt u v op hop hno hv
      have hsorted := h.wired.body_sorted s.block
      rw [hbody, List.pairwise_append] at hsorted
      rw [hbody] at hord
      rcases List.mem_append.1 hord with hdone | hrest'
      · exact hdone
      · rcases List.mem_cons.1 hrest' with rfl | hlater
        · omega
        · have := (List.pairwise_cons.1 hsorted.2.1).1 v hlater
          omega
  · exact ht.known_above h he hvalue hd habove hdb

/-- At the end of its block a run knows the whole block. -/
theorem OnTrack.contents (ht : w.OnTrack e s) {u : ValueId} (hrest : s.rest = [u])
    (hu : ¬w.HasValue u) : w.Known s.regs (w.contents s.block) := by
  obtain ⟨done, hbody, hknown⟩ := ht.here
  intro v hv hvalue
  rw [View.contents, hbody, hrest, ← List.append_assoc] at hv
  rcases List.mem_append.1 hv with hv | hv
  · exact hknown v hv hvalue
  · exact absurd (List.mem_singleton.1 hv ▸ hvalue) hu

/-- A phi finds what it takes along an edge. -/
theorem OnTrack.incoming (h : w.Sound) (hx : w.Closed m x) (he : w.entry m = some e)
    (ht : w.OnTrack e s) (hcontents : w.Known s.regs (w.contents s.block)) {b : BlockId}
    (hb : b ∈ w.succs s.block) {v : ValueId} (hv : v ∈ w.phis b) :
    w.code.incoming s.block s.regs v ≠ none := by
  obtain ⟨hlive, hhome⟩ := ht.live h he
  have hpred := (h.wired.edge s.block b).1 hb
  have howned : b ∈ w.owned m := h.wired.live_owned b m (Or.inr (List.ne_nil_of_mem hpred))
    ((h.wired.edge_home s.block b hb).trans hhome)
  obtain ⟨y, os, hop, hos⟩ := hx.filled b howned v hv
  have hop' : w.code.op v = some (.phi y os) := hop
  have hmem : s.block ∈ os.map (·.1) := hos ▸ hpred
  cases hlook : os.lookup s.block with
  | none =>
      obtain ⟨⟨q, u⟩, hqu, rfl⟩ := List.mem_map.1 hmem
      simpa using List.lookup_eq_none_iff.1 hlook _ hqu
  | some u =>
      obtain ⟨before, behind, hsplit, -⟩ := List.lookup_eq_some_iff.1 hlook
      have hu : (s.block, u) ∈ os := by simp [hsplit]
      obtain ⟨-, d, hd, habove⟩ := h.phi_operand_above hv hop hu
      have hvalue := h.wired.operand_value v u _ hop (List.mem_map_of_mem hu)
      have hregs : s.regs u ≠ none := by
        by_cases hdb : d = s.block
        · exact hcontents u (hdb ▸ (h.wired.listed u d).2 hd) hvalue
        · exact ht.known_above h he hvalue hd habove hdb
      simpa [Code.incoming, hop', hlook] using hregs

/-! ## Steps -/

section

variable (h : w.Sound) (hx : w.Closed m x) (he : w.entry m = some e)
include h hx he

theorem onTrack_start : w.OnTrack e (w.code.start e) := by
  obtain ⟨hentry, hhome⟩ := h.wired.isEntry_entry e m he
  have hphis : w.phis e = [] :=
    Classical.not_not.1 fun hne => h.wired.phis_preds e hne (h.wired.entry_preds e hentry)
  have howned := h.wired.live_owned e m (Or.inl hentry) hhome
  refine ⟨⟨[e], .here, fun a ha hne => absurd (List.mem_singleton.1 ha) hne⟩, ⟨[], rfl, ?_⟩, ?_⟩
  · intro v hv
    change v ∈ w.phis e ++ [] at hv
    rw [hphis] at hv
    cases hv
  · exact (h.ended e (Or.inl hentry) (hx.sealed e howned)).body_ne

/-- Along an edge a run stays on track: the block it leaves is known, and the
phis of the one it enters get their words. -/
theorem OnTrack.enter (ht : w.OnTrack e s) (hcontents : w.Known s.regs (w.contents s.block))
    {b : BlockId} (hb : b ∈ w.succs s.block)
    (hphis : ∀ v ∈ w.phis b, w.code.incoming s.block s.regs v ≠ none) :
    w.OnTrack e { s with
      block := b
      rest := w.body b
      regs := fun v =>
        if v ∈ w.phis b then w.code.incoming s.block s.regs v else s.regs v } := by
  have hkeep {vs : List ValueId} (hvs : w.Known s.regs vs) : w.Known (fun v =>
      if v ∈ w.phis b then w.code.incoming s.block s.regs v else s.regs v) vs := by
    intro v hv hvalue
    by_cases hphi : v ∈ w.phis b
    · simpa [hphi] using hphis v hphi
    · simpa [hphi] using hvs v hv hvalue
  obtain ⟨l, hl, hleft⟩ := ht.walked
  obtain ⟨hlive, hhome⟩ := ht.live h he
  have hlive' : w.Live b := Or.inr (List.ne_nil_of_mem ((h.wired.edge s.block b).1 hb))
  have howned := h.wired.live_owned b m hlive' ((h.wired.edge_home s.block b hb).trans hhome)
  refine ⟨⟨b :: l, .step hl hb, fun a ha hne => hkeep ?_⟩, ⟨[], rfl, ?_⟩, ?_⟩
  · rcases List.mem_cons.1 ha with rfl | ha
    · exact absurd rfl hne
    · by_cases hab : a = s.block
      · exact hab ▸ hcontents
      · exact hleft a ha hab
  · intro v hv _
    rw [List.append_nil] at hv
    simpa [hv] using hphis v hv
  · exact (h.ended b hlive' (hx.sealed b howned)).body_ne

theorem OnTrack.step (ht : w.OnTrack e s) (env : Env) (hs : s.status = .running) :
    (w.code.step env s).status ≠ .broken
      ∧ ((w.code.step env s).status = .running → w.OnTrack e (w.code.step env s)) := by
  obtain ⟨u, rest, hrest⟩ := List.exists_cons_of_ne_nil ht.more
  obtain ⟨done, hbody, hknown⟩ := ht.here
  rw [hrest] at hbody
  have hu : u ∈ w.body s.block := by simp [hbody]
  obtain ⟨op, hop, hphi⟩ := h.wired.not_phi_of_body u _ hu
  have hready : op.act? env s.trace s.regs ≠ none :=
    Op.act?_ne_none hphi fun v hv => ht.operand h he hrest hop hv
  obtain ⟨action, haction⟩ := Option.ne_none_iff_exists'.1 hready
  have hnext {t : State} (hperform : w.code.perform? s u rest action = some t) :
      w.code.step env s = t :=
    Code.step_of_next hs (Code.next?_eq_some.2 ⟨u, rest, op, action, hrest, hop, haction, hperform⟩)
  rcases (ht.ends h hx he).split hbody hop with ⟨hno, hmore⟩ | ⟨hterm, rfl, htargets, -⟩
  · rcases Op.act?_inside haction hno with rfl | ⟨value, events, rfl, hvalue⟩
    · rw [hnext rfl]
      simp
    · rw [hnext rfl]
      have hset : w.HasValue u → value ≠ none := by
        rintro ⟨o, ho, hhas⟩
        exact hvalue (Option.some.inj (hop.symm.trans ho) ▸ hhas)
      refine ⟨by simp [hs], fun _ => ⟨?_, ⟨done ++ [u], by simp [hbody], ?_⟩, hmore⟩⟩
      · obtain ⟨l, hl, hleft⟩ := ht.walked
        exact ⟨l, hl, fun a ha hne => .set (fun v hv _ => hleft a ha hne v hv) hset⟩
      · refine .set (fun v hv hne => ?_) hset
        rw [← List.append_assoc] at hv
        rcases List.mem_append.1 hv with hv | hv
        · exact hknown v hv
        · exact absurd (List.mem_singleton.1 hv) hne
  · rcases Op.act?_terminator haction hterm with ⟨b, hb, rfl⟩ | ⟨value, rfl⟩
    · have hsucc := (htargets b).1 hb
      have hcontents := ht.contents hrest (not_hasValue hop hterm)
      have hphis : ∀ v ∈ w.phis b, w.code.incoming s.block s.regs v ≠ none := fun v hv =>
        ht.incoming h hx he hcontents hsucc hv
      rw [hnext (if_pos hphis)]
      refine ⟨by simp [hs], fun _ => ht.enter h hx he hcontents hsucc hphis⟩
    · rw [hnext rfl]
      simp

end

end

/-- Whatever the surroundings answer, a run of a finished method does not
break. -/
theorem Closed.run_ne_broken {w : View} {m : MethodId} {x e : BlockId} (hx : w.Closed m x)
    (h : w.Sound) (he : w.entry m = some e) (env : Env) (n : Nat) :
    (w.code.run env n (w.code.start e)).status ≠ .broken := by
  have hinv : (w.code.run env n (w.code.start e)).status ≠ .broken
      ∧ ((w.code.run env n (w.code.start e)).status = .running →
        w.OnTrack e (w.code.run env n (w.code.start e))) := by
    induction n with
    | zero => exact ⟨by simp [Code.run_zero, Code.start], fun _ => onTrack_start h hx he⟩
    | succ n ih =>
        rw [Code.run_succ]
        by_cases hrun : (w.code.run env n (w.code.start e)).status = .running
        · exact (ih.2 hrun).step h hx he env hrun
        · rw [Code.step_of_ne hrun]
          exact ⟨ih.1, fun h => absurd h hrun⟩
  exact hinv.1

end View

end StructuredSsa
