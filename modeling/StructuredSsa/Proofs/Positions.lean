import Mathlib.Data.List.DropRight
import Mathlib.Data.Prod.Lex
import StructuredSsa.Proofs.Tiling

/-!
# Where tokens and problems stand

A position is told from the text in front of it: its line from the line feeds
there, its column from what follows the last of them (`Pos.IsBehind`). Whatever a
scanner returns or reports is about a segment of the one cut of its text, and stands
at the first character of that segment (`scan_positions`). Most segments only move the
column on (`Segment.Fits.past_text`).
-/

namespace StructuredSsa

namespace Pos

/-- The place of the first character behind a text. -/
structure IsBehind (p : Pos) (before : List Char) : Prop where
  line : p.line = 1 + before.count '\n'
  column : p.column = 1 + (before.rtakeWhile (· ≠ '\n')).length

/-- Positions by line, and within a line by column. -/
def order (p : Pos) : ℕ ×ₗ ℕ := toLex (p.line, p.column)

theorem isBehind_past (before : List Char) : (start.past before).IsBehind before := by
  induction before using List.reverseRecOn with
  | nil => exact ⟨rfl, rfl⟩
  | append_singleton cs c ih =>
      obtain ⟨hline, hcolumn⟩ := ih
      rw [past_append, past_cons, past_nil, next]
      split
      · next hc => exact ⟨by simp [hline, hc, Nat.add_assoc], by simp [hc]⟩
      · next hc =>
          refine ⟨by simp [hline, hc], ?_⟩
          simp [hc] at hcolumn ⊢
          omega

/-- Every character but a line feed is one more column. -/
theorem past_of_not_mem {text : List Char} (h : '\n' ∉ text) (p : Pos) :
    p.past text = ⟨p.line, p.column + text.length⟩ := by
  induction text generalizing p with
  | nil => rfl
  | cons c text ih =>
      rw [List.mem_cons, not_or] at h
      rw [past_cons, next, if_neg (Ne.symm h.1), ih h.2, List.length_cons]
      simp only [Nat.add_assoc, Nat.add_comm 1]

theorem order_next (p : Pos) (c : Char) : p.order < (p.next c).order := by
  unfold next order
  rw [Prod.Lex.toLex_lt_toLex]
  split
  · exact Or.inl (Nat.lt_succ_self _)
  · exact Or.inr ⟨rfl, Nat.lt_succ_self _⟩

theorem order_past (p : Pos) (text : List Char) : p.order ≤ (p.past text).order := by
  induction text generalizing p with
  | nil => exact le_rfl
  | cons c text ih => exact (p.order_next c).le.trans (ih _)

theorem order_past_lt (p : Pos) {text : List Char} (h : text ≠ []) :
    p.order < (p.past text).order := by
  obtain ⟨c, cs, rfl⟩ := List.exists_cons_of_ne_nil h
  exact (p.order_next c).trans_le (order_past _ cs)

end Pos

namespace Segment

variable {rest : List Char} {s : Segment}

/-- The segment `s` is one of the cut of `source`, with `before` in front of it. -/
def StandsBehind (s : Segment) (before source : List Char) : Prop :=
  ∃ done more, Tiles (done ++ s :: more) source ∧ done.flatMap text = before

/-- A token read from the segment that starts at its position. -/
def TokenIn (source : List Char) (t : Token) : Prop :=
  ∃ before s, StandsBehind s before source ∧ Reads s t ∧ t.pos.IsBehind before

/-- A diagnostic about the segment that starts at its position, which is the
opening of a comment that is not closed. -/
def ProblemIn (source : List Char) (d : Diagnostic) : Prop :=
  ∃ before s, StandsBehind s before source ∧ Blames s d ∧ d.pos.IsBehind before ∧
    (d.problem = .unterminatedComment → ['/', '*'] <+: s.text)

/-- An error about the number too large that starts at its position, with its digits. -/
def FailureIn (source : List Char) (e : Error) : Prop :=
  ∃ before s pos, StandsBehind s before source ∧ s.Oversized ∧ pos.IsBehind before ∧
    e = .malformed pos ("integer literal " ++ String.ofList s.text ++ " does not fit in 64 bits")

theorem Tiles.fits {done more : List Segment} {source : List Char}
    (h : Tiles (done ++ s :: more) source) : ∃ rest, s.Fits rest := by
  induction done generalizing source with
  | nil =>
      cases h with
      | cons hfits => exact ⟨_, hfits⟩
  | cons t done ih =>
      cases h with
      | cons _ hmore => exact ih hmore

theorem Tiles.text_eq {segments : List Segment} {source : List Char} (h : Tiles segments source) :
    segments.flatMap text = source := by
  rw [tiles_iff.1 h, flatMap_text_ofText]

theorem Fits.text_ne (h : s.Fits rest) : s.text ≠ [] := by
  obtain ⟨c, cs, -, hsplit⟩ := split_of_fits h
  simpa [hsplit] using text_ne_nil c cs

/-- How a segment moves a position while it is read. Only a blank and a block comment may
start a line, and the comment does so behind the two characters that open it; any other
segment moves the column on by its length, be it one character, two or more. -/
theorem Fits.past_text (h : s.Fits rest) (p : Pos) :
    p.past s.text = match s with
      | .blank c => p.next c
      | .blockComment content _ => .past ⟨p.line, p.column + 2⟩ (content.drop 2)
      | s => ⟨p.line, p.column + s.text.length⟩ := by
  cases h with
  | blank | closed | unclosed => rfl
  | lineComment h line =>
      refine Pos.past_of_not_mem ?_ p
      rcases h with rfl | rfl <;> simpa [text] using line
  | number h =>
      refine Pos.past_of_not_mem (fun hmem => ?_) p
      exact absurd (h.2 _ hmem) (by decide)
  | @word letters _ h =>
      refine Pos.past_of_not_mem (fun hmem => ?_) p
      cases letters with
      | nil => cases hmem
      | cons c cs =>
          rcases List.mem_cons.1 hmem with rfl | hmem
          · exact absurd h.1 (by decide)
          · exact absurd (h.2 _ hmem) (by decide)
  | @punct q => exact Pos.past_of_not_mem (by cases q <;> decide) p
  | lone h => rcases h with rfl | rfl <;> rfl
  | stray hblank =>
      refine Pos.past_of_not_mem (fun hmem => hblank ?_) p
      obtain rfl := List.mem_singleton.1 hmem
      simp

theorem text_of_error {digits : List Char} (h : s.kind? = .error digits) : s.text = digits := by
  cases s with
  | number =>
      unfold kind? at h
      dsimp only at h
      split at h
      · cases h
      · exact Except.error.inj h
  | _ => cases h

theorem blames_of_problem {problem : Problem} (pos : Pos) (hfits : s.Fits rest)
    (h : s.problem? = some problem) :
    Blames s (.of pos problem) ∧ (problem = .unterminatedComment → ['/', '*'] <+: s.text) := by
  cases hfits with
  | lone | stray =>
      obtain rfl := Option.some.inj h
      exact ⟨.unscannable, nofun⟩
  | @unclosed content =>
      obtain rfl := Option.some.inj h
      exact ⟨.unclosed, fun _ => ⟨content, rfl⟩⟩
  | blank | lineComment | closed | number | word | punct => cases h

theorem spells_of_kind {kind : TokenKind} (hfits : s.Fits rest) (h : s.kind? = .ok (some kind)) :
    Spells s.text kind := by
  have hno : ¬ s.Oversized := fun hover => by
    obtain ⟨_, herror⟩ := kind_of_oversized hover
    cases h.symm.trans herror
  obtain ⟨_, hok, hplain, htoken⟩ := kind_of_fits hfits hno
  obtain rfl := Except.ok.inj (h.symm.trans hok)
  cases hs : s.isToken with
  | false => cases hplain hs
  | true =>
      obtain ⟨_, hkind, hspells⟩ := htoken hs
      exact Option.some.inj hkind ▸ hspells

end Segment

open Segment

/-- The entries of a list are as `P` says, and stand one behind the other from `p` on and
before `q`. -/
structure Ranged {α : Type} (P : α → Prop) (pos : α → Pos) (p q : Pos) (l : List α) : Prop where
  all : ∀ a ∈ l, P a
  behind : ∀ a ∈ l, p.order ≤ (pos a).order
  before : ∀ a ∈ l, (pos a).order < q.order
  increasing : l.Pairwise fun a b => (pos a).order < (pos b).order

section Ranged

variable {α : Type} {P : α → Prop} {pos : α → Pos} {p q r : Pos} {l k : List α}

theorem Ranged.nil : Ranged P pos p q [] := ⟨by simp, by simp, by simp, .nil⟩

theorem Ranged.append (h : Ranged P pos p q l) (hk : Ranged P pos q r k)
    (hp : p.order ≤ q.order) (hr : q.order ≤ r.order) : Ranged P pos p r (l ++ k) where
  all := List.forall_mem_append.2 ⟨h.all, hk.all⟩
  behind := List.forall_mem_append.2 ⟨h.behind, fun a ha => hp.trans (hk.behind a ha)⟩
  before := List.forall_mem_append.2 ⟨fun a ha => (h.before a ha).trans_le hr, hk.before⟩
  increasing := List.pairwise_append.2 ⟨h.increasing, hk.increasing, fun a ha b hb =>
    (h.before a ha).trans_le (hk.behind b hb)⟩

theorem ranged_singleton {a : α} (h : P a) (hq : (pos a).order < q.order) :
    Ranged P pos (pos a) q [a] :=
  ⟨by simpa using h, by simp, by simpa using hq, List.pairwise_singleton _ _⟩

end Ranged

/-- What is found from `pos` on stands in `source` where it should, one behind the other,
and reading can go on where it stopped. -/
structure Lexed.Located (source : List Char) (pos : Pos) (found : Lexed) : Prop where
  stands : ∃ done, Tiles (done ++ found.rest) source ∧ found.pos = .past .start (done.flatMap text)
  finished : found.failure = none → found.rest = []
  later : pos.order ≤ found.pos.order
  tokens : Ranged (TokenIn source) Token.pos pos found.pos found.tokens
  diagnostics : Ranged (ProblemIn source) Diagnostic.pos pos found.pos found.diagnostics
  failure : ∀ e, found.failure = some e → FailureIn source e

theorem lex_located {source : List Char} {rest done : List Segment} {pos : Pos}
    (h : Tiles (done ++ rest) source) (hpos : pos = .past .start (done.flatMap text)) :
    (lex rest pos).Located source pos := by
  -- one segment after another goes over to `done`, the text in front of the position
  induction rest generalizing done pos with
  | nil => exact ⟨⟨done, h, hpos⟩, fun _ => rfl, le_rfl, .nil, .nil, by simp [lex]⟩
  | cons s more ih =>
      obtain ⟨rest, hfits⟩ := h.fits
      have hstands : StandsBehind s (done.flatMap text) source := ⟨done, more, h, rfl⟩
      have hbehind : pos.IsBehind (done.flatMap text) := hpos ▸ Pos.isBehind_past _
      have hlt := pos.order_past_lt hfits.text_ne
      have hnext : pos.past s.text = .past .start ((done ++ [s]).flatMap text) := by
        simp [Pos.past_append, hpos]
      have hmore : Tiles ((done ++ [s]) ++ more) source := by simpa using h
      cases hkind : s.kind? with
      | error digits =>
          have hover : s.Oversized := by
            by_contra hno
            obtain ⟨_, hok, -⟩ := kind_of_fits hfits hno
            cases hkind.symm.trans hok
          simp only [lex, hkind]
          refine ⟨⟨done ++ [s], hmore, hnext⟩, by simp, hlt.le, .nil, .nil, fun e he => ?_⟩
          obtain rfl := Option.some.inj he
          exact ⟨_, s, pos, hstands, hover, hbehind, text_of_error hkind ▸ rfl⟩
      | ok kind? =>
          have hrest := ih hmore hnext
          simp only [lex, hkind]
          refine ⟨hrest.stands, hrest.finished, hlt.le.trans hrest.later, ?_, ?_, hrest.failure⟩
          · cases kind? with
            | none => exact .append .nil hrest.tokens hlt.le hrest.later
            | some kind =>
                have hreads : Reads s ⟨kind, String.ofList s.text, pos⟩ :=
                  ⟨String.toList_ofList, spells_of_kind hfits hkind⟩
                have htoken : TokenIn source ⟨kind, String.ofList s.text, pos⟩ :=
                  ⟨_, s, hstands, hreads, hbehind⟩
                exact .append (ranged_singleton htoken hlt) hrest.tokens hlt.le hrest.later
          · cases hproblem : s.problem? with
            | none => exact .append .nil hrest.diagnostics hlt.le hrest.later
            | some problem =>
                obtain ⟨hblames, hcomment⟩ := blames_of_problem pos hfits hproblem
                have hin : ProblemIn source (.of pos problem) :=
                  ⟨_, s, hstands, hblames, hbehind, hcomment⟩
                exact .append (ranged_singleton hin hlt) hrest.diagnostics hlt.le hrest.later

namespace Scanner

/-- The scanner of a text behind some scans; before each of them the diagnostics so
far may have been taken away. -/
def resumed (source : String) (taken : List Bool) : Scanner :=
  taken.foldl (fun s take => (if take then s.clearDiagnostics else s).scan.2) (ofText source)

/-- A scanner somewhere in `source`, with what it holds where it should be. -/
structure Located (source : List Char) (s : Scanner) : Prop where
  stands : ∃ done, Tiles (done ++ s.rest) source ∧ s.pos = .past .start (done.flatMap text)
  pending : Ranged (TokenIn source) Token.pos .start s.pos s.pending
  diagnostics : Ranged (ProblemIn source) Diagnostic.pos .start s.pos s.diagnostics

/-- What a scan hands out, or keeps where it fails, and what it has reported then. -/
theorem Located.lexed {source : List Char} {s : Scanner} (h : s.Located source) :
    let found := lex s.rest s.pos
    found.Located source s.pos ∧
      Ranged (TokenIn source) Token.pos .start found.pos (s.pending ++ found.tokens) ∧
      Ranged (ProblemIn source) Diagnostic.pos .start found.pos (s.diagnostics ++ found.diagnostics) := by
  obtain ⟨done, htiles, hpos⟩ := h.stands
  have hfound := lex_located htiles hpos
  have hstart : Pos.start.order ≤ s.pos.order := hpos ▸ Pos.order_past _ _
  exact ⟨hfound, h.pending.append hfound.tokens hstart hfound.later,
    h.diagnostics.append hfound.diagnostics hstart hfound.later⟩

theorem Located.scan {source : List Char} {s : Scanner} (h : s.Located source) :
    s.scan.2.Located source := by
  obtain ⟨hfound, hpending, hdiagnostics⟩ := h.lexed
  unfold Scanner.scan
  dsimp only
  split
  · exact ⟨hfound.stands, hpending, hdiagnostics⟩
  · exact ⟨hfound.stands, .nil, hdiagnostics⟩

theorem located_resumed (source : String) (taken : List Bool) :
    (resumed source taken).Located source.toList := by
  have hstart : (ofText source).Located source.toList :=
    ⟨⟨[], tiles_iff.2 rfl, rfl⟩, .nil, .nil⟩
  unfold resumed
  generalize ofText source = s at hstart ⊢
  induction taken generalizing s with
  | nil => exact hstart
  | cons take taken ih =>
      refine ih _ (Located.scan ?_)
      split
      · exact { hstart with diagnostics := .nil }
      · exact hstart

end Scanner

/-- Positions are exact. However often a text was scanned before, the tokens that a
scan returns stand at the first characters of their segments, the end marker stands
at the end of the text, and positions increase from token to token. What is
reported, and the number that a scan fails for, stand there as well, and positions
increase from one report to the next. -/
theorem scan_positions (source : String) (taken : List Bool) :
    (∀ tokens, (Scanner.resumed source taken).scan.1 = .ok tokens →
      (∃ body stop, tokens = body ++ [stop] ∧ (∀ t ∈ body, TokenIn source.toList t) ∧
        stop.kind = .eof ∧ stop.pos.IsBehind source.toList) ∧
      tokens.Pairwise (·.pos.order < ·.pos.order)) ∧
    (∀ e, (Scanner.resumed source taken).scan.1 = .error e → FailureIn source.toList e) ∧
    (∀ d ∈ (Scanner.resumed source taken).scan.2.diagnostics, ProblemIn source.toList d) ∧
    (Scanner.resumed source taken).scan.2.diagnostics.Pairwise (·.pos.order < ·.pos.order) := by
  have hs := Scanner.located_resumed source taken
  generalize Scanner.resumed source taken = s at hs
  have hreports := hs.scan.diagnostics
  obtain ⟨hfound, htokens, -⟩ := hs.lexed
  cases hfailure : (lex s.rest s.pos).failure with
  | some e =>
      rw [Scanner.scan_of_some hfailure]
      refine ⟨nofun, fun e' he => ?_, hreports.all, hreports.increasing⟩
      exact Except.error.inj he ▸ hfound.failure e hfailure
  | none =>
      rw [(Scanner.scan_of_none hfailure).1]
      refine ⟨fun tokens heq => ?_, nofun, hreports.all, hreports.increasing⟩
      obtain rfl := Except.ok.inj heq
      refine ⟨⟨_, _, rfl, htokens.all, rfl, ?_⟩, ?_⟩
      · obtain ⟨done, htiles, hpos⟩ := hfound.stands
        rw [hfound.finished hfailure, List.append_nil] at htiles
        rw [hpos, ← htiles.text_eq]
        exact Pos.isBehind_past _
      · refine List.pairwise_append.2 ⟨htokens.increasing, List.pairwise_singleton _ _,
          fun t ht u hu => ?_⟩
        exact List.mem_singleton.1 hu ▸ htokens.before t ht

end StructuredSsa
