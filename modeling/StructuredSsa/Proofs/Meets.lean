import StructuredSsa.Build.Computation
import StructuredSsa.Proofs.Scoped

/-!
# What a step of the construction meets

`Meets E x s Q`: run from `s`, the step `x` ends in a state with `Q`, or with
an error of the source text that `E` allows; it never misuses the program.
The rules follow the monad, so that a proof about a step reads along its text.

Nothing here depends on diagnostics: what is said of a state is said of its
program and its cursor.
-/

namespace StructuredSsa

namespace Build

variable {α β : Type} {E : Error → Prop} {s : Builder}

section Runs

variable {x : BuildM α} {f : α → BuildM β} {t u : Builder}

theorem bind_run {a : α} (h : x s = .ok a t) : (x >>= f) s = f a t := by
  show EStateM.bind x f s = _
  rw [EStateM.bind, h]

theorem bind_error {stop : Stop} (h : x s = .error stop t) : (x >>= f) s = .error stop t := by
  show EStateM.bind x f s = _
  rw [EStateM.bind, h]

/-- Two steps end well when both do. -/
theorem of_bind_ok {b : β} (h : (x >>= f) s = .ok b u) : ∃ a t, x s = .ok a t ∧ f a t = .ok b u := by
  change EStateM.bind x f s = _ at h
  unfold EStateM.bind at h
  split at h
  · next a t hx => exact ⟨a, t, hx, h⟩
  · cases h

theorem ok_of_run' {a : α} (h : EStateM.run' x s = some a) : ∃ t, x s = .ok a t := by
  unfold EStateM.run' EStateM.run at h
  split at h
  · next t hx => exact ⟨t, hx.trans (by rw [Option.some.inj h])⟩
  · cases h

end Runs

/-- A run from `s` ends as `Q` says, or with an error that `E` allows. -/
def Meets (E : Error → Prop) (x : BuildM α) (s : Builder) (Q : α → Builder → Prop) : Prop :=
  match x s with
  | .ok a s' => Q a s'
  | .error (.error e) _ => E e
  | .error (.fault _) _ => False

/-- What a run that ends well has met. -/
theorem Meets.of_ok {x : BuildM α} {Q : α → Builder → Prop} (h : Meets E x s Q) {a : α}
    {s' : Builder} (hx : x s = .ok a s') : Q a s' := by
  simpa only [Meets, hx] using h

/-- A run that does not end well ends with an error that is allowed. -/
theorem Meets.of_error {x : BuildM α} {Q : α → Builder → Prop} (h : Meets E x s Q) {stop : Stop}
    {s' : Builder} (hx : x s = .error stop s') : ∃ e, stop = .error e ∧ E e := by
  simp only [Meets, hx] at h
  cases stop with
  | error e => exact ⟨e, rfl, h⟩
  | fault f => exact h.elim

/-- A run that is allowed no error ends well. -/
theorem Meets.exists_ok {x : BuildM α} {Q : α → Builder → Prop}
    (h : Meets (fun _ => False) x s Q) : ∃ a s', x s = .ok a s' ∧ Q a s' := by
  unfold Meets at h
  split at h
  · next a s' hx => exact ⟨a, s', hx, h⟩
  · exact h.elim
  · exact h.elim

theorem Meets.mono {x : BuildM α} {P Q : α → Builder → Prop} (h : Meets E x s P)
    (hPQ : ∀ a s', P a s' → Q a s') : Meets E x s Q := by
  unfold Meets at h ⊢
  split
  · next a s' hx =>
      rw [hx] at h
      exact hPQ a s' h
  · next e s' hx =>
      rw [hx] at h
      exact h
  · next f s' hx =>
      rw [hx] at h
      exact h

/-- Two things that are known of one run. -/
theorem Meets.and {x : BuildM α} {P Q : α → Builder → Prop} (h : Meets E x s P)
    (k : Meets E x s Q) : Meets E x s fun a s' => P a s' ∧ Q a s' := by
  unfold Meets at h k ⊢
  split
  · next a s' hx =>
      rw [hx] at h k
      exact ⟨h, k⟩
  · next e s' hx =>
      rw [hx] at h
      exact h
  · next f s' hx =>
      rw [hx] at h
      exact h

/-- A run that ends well can be named. -/
theorem Meets.run {x : BuildM α} {Q : α → Builder → Prop} (h : Meets E x s Q) :
    Meets E x s fun a s' => x s = .ok a s' ∧ Q a s' := by
  unfold Meets at h ⊢
  split
  · next a s' hx =>
      rw [hx] at h
      exact ⟨hx, h⟩
  · next hx =>
      rw [hx] at h
      exact h
  · next hx =>
      rw [hx] at h
      exact h

/-- One step after another. -/
theorem Meets.bind {x : BuildM α} {f : α → BuildM β} {P : α → Builder → Prop}
    {Q : β → Builder → Prop} (hx : Meets E x s P)
    (hf : ∀ a s', P a s' → Meets E (f a) s' Q) : Meets E (x >>= f) s Q := by
  unfold Meets at hx
  show Meets E (EStateM.bind x f) s Q
  unfold Meets EStateM.bind
  cases h : x s with
  | ok a s' =>
      rw [h] at hx
      exact hf a s' hx
  | error e s' =>
      rw [h] at hx
      cases e with
      | error e => exact hx
      | fault f => exact hx.elim

/-! ## Steps that always go through -/

theorem meets_pure {a : α} {Q : α → Builder → Prop} (h : Q a s) : Meets E (pure a) s Q := h

theorem meets_fail {e : Error} {Q : α → Builder → Prop} (h : E e) : Meets E (fail e) s Q := h

/-- A step that only computes its result from the state. -/
theorem meets_bind_of_eq {x : BuildM α} {f : α → BuildM β} {a : α} {s' : Builder}
    {Q : β → Builder → Prop} (hx : x s = .ok a s') (h : Meets E (f a) s' Q) :
    Meets E (x >>= f) s Q :=
  Meets.bind (P := fun b t => b = a ∧ t = s') (by simp [Meets, hx]) fun _ _ ⟨ha, hs⟩ => by
    rw [ha, hs]
    exact h

theorem meets_cursor {f : Cursor → BuildM β} {Q : β → Builder → Prop}
    (h : Meets E (f s.cursor) s Q) : Meets E (cursor >>= f) s Q :=
  meets_bind_of_eq rfl h

theorem meets_get {f : Builder → BuildM β} {Q : β → Builder → Prop}
    (h : Meets E (f s) s Q) : Meets E (get >>= f) s Q :=
  meets_bind_of_eq rfl h

theorem meets_moveTo {c : Cursor} {Q : Unit → Builder → Prop}
    (h : Q () { s with cursor := c }) : Meets E (moveTo c) s Q := h

theorem meets_bindName {x : String} {v : ValueId} {Q : Unit → Builder → Prop}
    (h : Q () { s with cursor := { s.cursor with bindings := s.cursor.bindings.bind x v } }) :
    Meets E (Build.bind x v) s Q := h

/-! ## Steps that only report -/

/-- A step that at most adds diagnostics. -/
structure Quiet (x : BuildM Unit) : Prop where
  run : ∀ s, ∃ ds, x s = .ok () { s with diagnostics := ds }

theorem Quiet.of_ok {x : BuildM Unit} (hx : Quiet x) (run : x s = .ok () t) :
    ∃ ds, t = { s with diagnostics := ds } := by
  obtain ⟨ds, hs⟩ := hx.run s
  cases run.symm.trans hs
  exact ⟨ds, rfl⟩

theorem Quiet.meets {x : BuildM Unit} (hx : Quiet x) {Q : Unit → Builder → Prop}
    (h : ∀ ds, Q () { s with diagnostics := ds }) : Meets E x s Q := by
  obtain ⟨ds, hs⟩ := hx.run s
  simpa only [Meets, hs] using h ds

theorem Quiet.bind {x : BuildM Unit} (hx : Quiet x) {f : Unit → BuildM β}
    {Q : β → Builder → Prop} (h : ∀ ds, Meets E (f ()) { s with diagnostics := ds } Q) :
    Meets E (x >>= f) s Q := by
  obtain ⟨ds, hs⟩ := hx.run s
  exact meets_bind_of_eq hs (h ds)

theorem quiet_pure : Quiet (pure ()) := ⟨fun s => ⟨s.diagnostics, rfl⟩⟩

theorem quiet_report (pos : Pos) (problem : Problem) : Quiet (report pos problem) :=
  ⟨fun _ => ⟨_, rfl⟩⟩

theorem quiet_require (want : TokenKind) (mark : Syntax.Mark) : Quiet (require want mark) := by
  cases mark with
  | present => exact quiet_pure
  | missing found => exact quiet_report ..

theorem quiet_checkArguments (callee : String) (pos : Pos) (declared given : Nat) :
    Quiet (checkArguments callee pos declared given) := by
  unfold checkArguments
  split
  · exact quiet_report ..
  · exact quiet_pure

theorem quiet_checkScalar (x : String) (pos : Pos) (is : List ValueId) :
    Quiet (checkScalar x pos is) := by
  unfold checkScalar
  split
  · exact quiet_report ..
  · exact quiet_pure

/-! ## Steps that ask or change the program -/

theorem meets_look {f : Program → Except Fault α} {a : α} {Q : α → Builder → Prop}
    (hf : f s.program = .ok a) (h : Q a s) : Meets E (look f) s Q := by
  simpa only [Meets, look, hf] using h

theorem meets_edit {f : Program → Except Fault Program} {p : Program} {Q : Unit → Builder → Prop}
    (hf : f s.program = .ok p) (h : Q () { s with program := p }) : Meets E (edit f) s Q := by
  simpa only [Meets, edit, hf] using h

theorem meets_editWith {f : Program → Except Fault (α × Program)} {a : α} {p : Program}
    {Q : α → Builder → Prop} (hf : f s.program = .ok (a, p)) (h : Q a { s with program := p }) :
    Meets E (editWith f) s Q := by
  simpa only [Meets, editWith, hf] using h

/-- Change the program and go on. -/
theorem meets_bind_edit {f : Program → Except Fault Program} {g : Unit → BuildM β} {p : Program}
    {Q : β → Builder → Prop} (hf : f s.program = .ok p)
    (h : Meets E (g ()) { s with program := p } Q) : Meets E (edit f >>= g) s Q :=
  meets_bind_of_eq (by simp only [edit, hf]) h

end Build

end StructuredSsa
