import StructuredSsa.Proofs.Close

/-!
# Operands for phis

While a body is built, a phi knows only some of the ways into its block. When
all edges are there, each phi gets one operand for each of them, in their
order: what its variable holds on leaving the source of the edge.
-/

namespace StructuredSsa

namespace View

/-- Only operands of phis in `S` changed. -/
structure Rephied (w z : View) (S : ValueId → Prop) : Prop where
  rest : z = { w with op := z.op, user := z.user }
  kept : ∀ v, ¬S v → z.op v = w.op v
  phi : ∀ v, S v → ∃ x os os', w.op v = some (.phi x os) ∧ z.op v = some (.phi x os')

/-- A phi of a block has one operand for each edge into the block. -/
def Filled (w : View) (b : BlockId) (v : ValueId) : Prop :=
  ∃ x os, w.op v = some (.phi x os) ∧ os.map (·.1) = w.preds b

/-- The ways into a block all bind the variables of its phis. -/
def Bindable (w : View) (b : BlockId) : Prop :=
  ∀ v ∈ w.phis b, ∀ x os, w.op v = some (.phi x os) → ∀ q ∈ w.preds b,
    ∃ st u, w.after q = some st ∧ st.get? x = some u

namespace Rephied

variable {w z y : View} {S T : ValueId → Prop}

theorem refl (w : View) : Rephied w w fun _ => False :=
  ⟨rfl, fun _ _ => rfl, fun _ h => h.elim⟩

theorem trans (h : Rephied w z S) (k : Rephied z y T) : Rephied w y fun v => S v ∨ T v := by
  refine ⟨?_, fun v hv => ?_, fun v hv => ?_⟩
  · have hrest (op : ValueId → Option Op) (user : ValueId → ValueId → Prop) :
        { z with op := op, user := user } = { w with op := op, user := user } := by
      rw [h.rest]
    rw [← hrest, ← k.rest]
  · obtain ⟨hS, hT⟩ := not_or.1 hv
    rw [k.kept v hT, h.kept v hS]
  · by_cases hS : S v
    · obtain ⟨x, os, os', hw, hz⟩ := h.phi v hS
      by_cases hT : T v
      · obtain ⟨x', os₁, os₂, hz', hy⟩ := k.phi v hT
        obtain ⟨rfl, rfl⟩ := Op.phi.inj (Option.some.inj (hz.symm.trans hz'))
        exact ⟨x, os, os₂, hw, hy⟩
      · exact ⟨x, os, os', hw, by rw [k.kept v hT, hz]⟩
    · obtain ⟨x, os, os', hz, hy⟩ := k.phi v (hv.resolve_left hS)
      exact ⟨x, os, os', by rw [← h.kept v hS, hz], hy⟩

/-- What a phi is after the change, it was before but for its operands. -/
theorem of_phi (h : Rephied w z S) {v : ValueId} {x : String} {os : List (BlockId × ValueId)}
    (hv : z.op v = some (.phi x os)) : ∃ os', w.op v = some (.phi x os') := by
  by_cases hS : S v
  · obtain ⟨y, os₁, os₂, hw, hz⟩ := h.phi v hS
    obtain ⟨rfl, rfl⟩ := Op.phi.inj (Option.some.inj (hv.symm.trans hz))
    exact ⟨os₁, hw⟩
  · exact ⟨os, by rw [← h.kept v hS, hv]⟩

theorem bindable (h : Rephied w z S) {b : BlockId} (hb : w.Bindable b) : z.Bindable b := by
  intro v hv x os hop q hq
  obtain ⟨os', hop'⟩ := h.of_phi hop
  rw [h.rest] at hv hq ⊢
  exact hb v hv x os' hop' q hq

end Rephied

theorem rephied_setPhi {w : View} {phi : ValueId} {x : String} {old : List (BlockId × ValueId)}
    (os : List (BlockId × ValueId)) (hphi : w.op phi = some (.phi x old)) :
    Rephied w (w.setPhi phi x os) (· = phi) :=
  ⟨rfl, fun _ hv => if_neg hv, fun _ hv => ⟨x, old, os, hv ▸ hphi, if_pos hv⟩⟩

theorem Sound.setPhi {w : View} (h : w.Sound) {b : BlockId} {phi : ValueId} {x : String}
    {old os : List (BlockId × ValueId)} (hb : phi ∈ w.phis b) (hphi : w.op phi = some (.phi x old))
    (hos : ∀ q u, (q, u) ∈ os → q ∈ w.preds b ∧ ∃ st, w.after q = some st ∧ st.get? x = some u) :
    (w.setPhi phi x os).Sound where
  wired := h.wired.setPhi hphi fun v hv => by
    obtain ⟨⟨q, u⟩, hmem, rfl⟩ := List.mem_map.1 hv
    obtain ⟨-, st, hst, hx⟩ := hos q u hmem
    exact h.wired.after_value q st x u hst hx
  scoping := h.scoping.setPhi h.wired hb hphi hos
  ended c hl hc := by
    refine (h.ended c hl hc).mono (fun v hv op hop => ?_) rfl rfl
    obtain ⟨o, ho, hno⟩ := h.wired.not_phi_of_body v c hv
    have hne : v ≠ phi := by
      rintro rfl
      rw [hphi] at ho
      obtain rfl := Option.some.inj ho
      cases hno
    exact (if_neg hne).trans hop
  sole := h.sole

end View

namespace Build

open View

variable {E : Error → Prop} {s : Builder}

/-- What a phi reads along edges whose sources bind its variable. -/
theorem incoming_meets (x : String) :
    ∀ {preds : List BlockId}, (∀ q ∈ preds, ∃ st u, s.program.view.after q = some st
        ∧ st.get? x = some u) →
      Meets E (incoming x preds) s fun os t => t = s ∧ os.map (·.1) = preds
        ∧ ∀ q u, (q, u) ∈ os → ∃ st, s.program.view.after q = some st ∧ st.get? x = some u
  | [], _ => meets_pure ⟨rfl, rfl, by simp⟩
  | q :: rest, h => by
      obtain ⟨st, u, hst, hu⟩ := h q (List.mem_cons_self ..)
      have hst' : s.program.leaving? q = some st := hst
      unfold incoming
      refine meets_get ?_
      simp only [hst', Option.bind_some, hu]
      refine Meets.bind (incoming_meets x fun r hr => h r (List.mem_cons_of_mem _ hr)) ?_
      rintro os _ ⟨rfl, hos, hall⟩
      refine meets_pure ⟨rfl, by simp [hos], fun r v hv => ?_⟩
      rcases List.mem_cons.1 hv with heq | hv
      · obtain ⟨rfl, rfl⟩ := Prod.mk.inj heq
        exact ⟨st, hst, hu⟩
      · exact hall r v hv

theorem resolvePhi_meets {b : BlockId} {v : ValueId} (h : s.program.view.Sound)
    (hv : v ∈ s.program.view.phis b) (hb : s.program.view.Bindable b) :
    Meets E (resolvePhi (s.program.view.preds b) v) s fun _ t => t.cursor = s.cursor
      ∧ t.program.view.Sound ∧ Rephied s.program.view t.program.view (· = v)
      ∧ t.program.view.Filled b v := by
  obtain ⟨x, old, hop⟩ := h.wired.phi_of_phis v b hv
  obtain ⟨i, hi, hiop⟩ := Program.exists_instr hop
  unfold resolvePhi
  refine Meets.bind (P := fun a t => a = i ∧ t = s)
    (meets_look (Program.getInstr_ok hi) ⟨rfl, rfl⟩) ?_
  rintro _ s ⟨rfl, rfl⟩
  simp only [hiop]
  refine Meets.bind (incoming_meets x fun q hq => hb v hv x old hop q hq) ?_
  rintro os s ⟨rfl, hfst, hos⟩
  have hos' : ∀ q u, (q, u) ∈ os → q ∈ s.program.view.preds b
      ∧ ∃ st, s.program.view.after q = some st ∧ st.get? x = some u := fun q u hq =>
    ⟨hfst ▸ List.mem_map.2 ⟨(q, u), hq, rfl⟩, hos q u hq⟩
  obtain ⟨p, hp, hview⟩ := Program.updatePhi_ok os hop fun u hu => by
    obtain ⟨⟨q, u⟩, hmem, rfl⟩ := List.mem_map.1 hu
    obtain ⟨st, hst, hx⟩ := hos q u hmem
    exact (h.wired.after_value q st x u hst hx).exists_op
  refine meets_edit hp ⟨rfl, ?_⟩
  dsimp only
  rw [hview]
  exact ⟨h.setPhi hv hop hos', rephied_setPhi os hop, x, os, if_pos rfl, hfst⟩

/-- All phis of a block. The induction goes along its list; those behind have
their operands already. -/
theorem resolvePhis_meets {b : BlockId} :
    ∀ {vs : List ValueId} {s : Builder}, s.program.view.Sound → vs.Nodup →
      (∀ v ∈ vs, v ∈ s.program.view.phis b) → s.program.view.Bindable b →
      Meets E (vs.forM (resolvePhi (s.program.view.preds b))) s fun _ t => t.cursor = s.cursor
        ∧ t.program.view.Sound ∧ Rephied s.program.view t.program.view (· ∈ vs)
        ∧ ∀ v ∈ vs, t.program.view.Filled b v
  | [], s, h, _, _, _ => meets_pure ⟨rfl, h, by simpa using .refl _, by simp⟩
  | v :: vs, s, h, hnodup, hvs, hb => by
      obtain ⟨hnot, hnodup⟩ := List.nodup_cons.1 hnodup
      refine Meets.bind (resolvePhi_meets h (hvs v (List.mem_cons_self ..)) hb) ?_
      rintro _ t ⟨hc, ht, hre, hfilled⟩
      have hpreds : t.program.view.preds b = s.program.view.preds b := by rw [hre.rest]
      have hphis : t.program.view.phis b = s.program.view.phis b := by rw [hre.rest]
      rw [← hpreds]
      refine (resolvePhis_meets ht hnodup (fun u hu => hphis ▸ hvs u (List.mem_cons_of_mem _ hu))
        (hre.bindable hb)).mono ?_
      rintro _ u ⟨hc', hu, hre', hrest⟩
      refine ⟨hc'.trans hc, hu, ?_, fun y hy => ?_⟩
      · simpa [List.mem_cons] using hre.trans hre'
      · rcases List.mem_cons.1 hy with rfl | hy
        · obtain ⟨x, os, hop, hos⟩ := hfilled
          refine ⟨x, os, by rw [hre'.kept y hnot, hop], ?_⟩
          rw [hos, hre'.rest]
        · exact hrest y hy

end Build

end StructuredSsa
