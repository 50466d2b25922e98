import Mathlib.Algebra.Group.Nat.Defs
import Mathlib.Data.List.Forall2
import StructuredSsa.Token.Scanner

/-!
# How a source text is cut

What the segments of a text are, said class by class and without cutting: a
segment `Fits` where it stands if it is of its class and what follows does not
go on with it. A text has exactly one cut into segments that fit (`tiles_iff`),
and that is the one that is read.

Scanning is then described on the cut: its tokens are the segments that are
tokens, and its diagnostics are about the segments that are flawed
(`scan_tiles`).
-/

namespace StructuredSsa

namespace Segment

variable {c : Char} {cs rest : List Char}

/-! ## Lexemes -/

/-- A letter, followed by letters and digits. -/
def IsWord : List Char → Prop
  | [] => False
  | c :: cs => c.isAlpha = true ∧ ∀ d ∈ cs, d.isAlphanum = true

/-- One digit or more. -/
def IsNumeral (cs : List Char) : Prop := cs ≠ [] ∧ ∀ c ∈ cs, c.isDigit = true

/-- The texts of tokens. -/
inductive Lexeme : List Char → Prop where
  | word {cs : List Char} (h : IsWord cs) : Lexeme cs
  | numeral {cs : List Char} (h : IsNumeral cs) : Lexeme cs
  | punct (p : Punct) : Lexeme p.text.toList

/-- How comments start. -/
inductive Opening : List Char → Prop where
  | hash : Opening ['#']
  | slashes : Opening ['/', '/']
  | block : Opening ['/', '*']

/-- What follows a text does not go on with it: there is no character that
makes it a longer lexeme or the start of a comment. -/
def Complete (text rest : List Char) : Prop :=
  ∀ c, rest.head? = some c → ¬ Lexeme (text ++ [c]) ∧ ¬ Opening (text ++ [c])

/-- What a segment of each class is, where `rest` follows it. -/
inductive Fits : Segment → List Char → Prop where
  | blank {c : Char} {rest : List Char} (h : c ∈ [' ', '\t', '\r', '\n']) : Fits (.blank c) rest
  | lineComment {opening content rest : List Char} (h : opening = ['#'] ∨ opening = ['/', '/'])
      (line : '\n' ∉ content) (hrest : ∀ c, rest.head? = some c → c = '\n') :
      Fits (.lineComment (opening ++ content)) rest
  /-- The first `*/` behind the opening ends a comment. -/
  | closed {content rest : List Char} (h : ¬ ['*', '/'] <:+: content ++ ['*']) :
      Fits (.blockComment ('/' :: '*' :: (content ++ ['*', '/'])) true) rest
  /-- A comment without an end has all there is left. -/
  | unclosed {content : List Char} (h : ¬ ['*', '/'] <:+: content) :
      Fits (.blockComment ('/' :: '*' :: content) false) []
  | number {digits rest : List Char} (h : IsNumeral digits) (hrest : Complete digits rest) :
      Fits (.number digits) rest
  | word {letters rest : List Char} (h : IsWord letters) (hrest : Complete letters rest) :
      Fits (.word letters) rest
  | punct {p : Punct} {rest : List Char} (hrest : Complete p.text.toList rest) :
      Fits (.punct p) rest
  | lone {c : Char} {rest : List Char} (h : c = '=' ∨ c = '!') (hrest : rest.head? ≠ some '=') :
      Fits (.unscannable c) rest
  /-- A character that nothing starts with. -/
  | stray {c : Char} {rest : List Char} (hblank : c ∉ [' ', '\t', '\r', '\n']) (hhash : c ≠ '#')
      (h : ∀ cs, ¬ Lexeme (c :: cs)) : Fits (.unscannable c) rest

/-- A text cut into segments. -/
inductive Tiles : List Segment → List Char → Prop where
  | nil : Tiles [] []
  | cons {s : Segment} {more : List Segment} {rest : List Char} (h : s.Fits rest)
      (hmore : Tiles more rest) : Tiles (s :: more) (s.text ++ rest)

/-! ## Every text is cut -/

theorem isBlank_iff : isBlank c = true ↔ c ∈ [' ', '\t', '\r', '\n'] := by
  simp [isBlank, or_assoc, or_left_comm]

/-- Behind a sign, only an operator or a delimiter is a lexeme. -/
theorem lexeme_sign (hc : c.isAlphanum = false) :
    Lexeme (c :: cs) ↔ ∃ p : Punct, p.text.toList = c :: cs := by
  obtain ⟨halpha, hdigit⟩ : c.isAlpha = false ∧ c.isDigit = false := by
    simpa [Char.isAlphanum] using hc
  constructor
  · intro h
    generalize htext : c :: cs = text at h
    cases h with
    | word h =>
        subst htext
        simp [IsWord, halpha] at h
    | numeral h =>
        subst htext
        simp [IsNumeral, hdigit] at h
    | punct p => exact ⟨p, rfl⟩
  · rintro ⟨p, hp⟩
    exact hp ▸ .punct p

/-- The operators of two characters. -/
theorem lexeme_pair {d : Char} (hc : c.isAlphanum = false) (h : Lexeme [c, d]) :
    c ∈ ['=', '!', '<', '>'] ∧ d = '=' ∨ c = '<' ∧ d = '-' := by
  obtain ⟨p, hp⟩ := (lexeme_sign hc).1 h
  cases p <;> simp [Punct.text] at hp
  all_goals
    obtain ⟨rfl, rfl⟩ := hp
    simp

/-- No operator has three characters. -/
theorem not_lexeme_triple {d e : Char} (hc : c.isAlphanum = false) :
    ¬ Lexeme (c :: d :: e :: cs) := by
  intro h
  obtain ⟨p, hp⟩ := (lexeme_sign hc).1 h
  cases p <;> simp [Punct.text] at hp

/-- A sign that no longer one starts with is complete, whatever follows. -/
theorem complete_single {p : Punct} (h : single? c = some p) (rest : List Char) :
    Complete p.text.toList rest := by
  have hc : c.isAlphanum = false ∧ c ≠ '/' ∧ c ∉ ['=', '!', '<', '>'] := by
    unfold single? at h
    split at h <;> first | decide | cases h
  obtain ⟨hc, hslash, hlong⟩ := hc
  rw [text_single? h]
  intro d _
  refine ⟨fun hlex => ?_, fun hopen => ?_⟩
  · rcases lexeme_pair hc hlex with ⟨hmem, -⟩ | ⟨rfl, -⟩
    · exact hlong hmem
    · exact hlong (by simp)
  · generalize htext : [c] ++ [d] = text at hopen
    cases hopen <;> simp_all

theorem fits_takeLine {opening : List Char} (h : opening = ['#'] ∨ opening = ['/', '/'])
    (cs : List Char) : (takeLine opening cs).1.Fits (takeLine opening cs).2 := by
  refine .lineComment h (fun hmem => ?_) fun c hc => ?_
  · have := List.all_takeWhile (l := cs) (p := (· != '\n'))
    exact absurd (List.all_eq_true.1 this _ hmem) (by simp)
  · have := List.head?_dropWhile_not (· != '\n') cs
    change (cs.dropWhile (· != '\n')).head? = some c at hc
    rw [hc] at this
    simpa using this

/-! The content of a block comment is cut where its end comes first. -/

theorem infix_ending_cons :
    ['*', '/'] <:+: c :: cs ↔ c = '*' ∧ cs.head? = some '/' ∨ ['*', '/'] <:+: cs := by
  rw [List.infix_cons_iff, List.cons_prefix_cons, eq_comm]
  cases cs with
  | nil => simp
  | cons d cs => simp [List.cons_prefix_cons, eq_comm]

theorem splitComment_closed {content : List Char} (h : ¬ ['*', '/'] <:+: content ++ ['*']) :
    splitComment (content ++ '*' :: '/' :: rest) = (content ++ ['*', '/'], true, rest) := by
  induction content with
  | nil => rfl
  | cons c content ih =>
      rw [List.cons_append, infix_ending_cons, not_or] at h
      have hnext : ∀ cs, c = '*' → content ++ '*' :: '/' :: rest = '/' :: cs → False := by
        intro cs hc hcs
        refine h.1 ⟨hc, ?_⟩
        cases content with
        | nil => simp at hcs
        | cons d content => simp_all
      rw [List.cons_append, splitComment.eq_3 _ _ hnext, ih h.2]
      rfl

theorem splitComment_unclosed {content : List Char} (h : ¬ ['*', '/'] <:+: content) :
    splitComment content = (content, false, []) := by
  induction content with
  | nil => rfl
  | cons c content ih =>
      rw [infix_ending_cons, not_or] at h
      have hnext : ∀ cs, c = '*' → content = '/' :: cs → False := by
        rintro cs hc rfl
        exact h.1 ⟨hc, rfl⟩
      rw [splitComment.eq_3 _ _ hnext, ih h.2]

theorem exists_first_ending (h : ['*', '/'] <:+: cs) :
    ∃ content rest, cs = content ++ '*' :: '/' :: rest ∧ ¬ ['*', '/'] <:+: content ++ ['*'] := by
  induction cs with
  | nil => simp at h
  | cons c cs ih =>
      by_cases hfirst : c = '*' ∧ cs.head? = some '/'
      · obtain ⟨rfl, hhead⟩ := hfirst
        obtain ⟨rest, rfl⟩ := List.head?_eq_some_iff.1 hhead
        exact ⟨[], rest, rfl, by simp [infix_ending_cons]⟩
      · obtain ⟨content, rest, rfl, hno⟩ := ih ((infix_ending_cons.1 h).resolve_left hfirst)
        refine ⟨c :: content, rest, rfl, ?_⟩
        rw [List.cons_append, infix_ending_cons, not_or]
        refine ⟨fun hhead => hfirst ?_, hno⟩
        cases content <;> simp_all

theorem fits_afterSlash (cs : List Char) : (afterSlash cs).1.Fits (afterSlash cs).2 := by
  unfold afterSlash
  split
  · exact fits_takeLine (Or.inr rfl) _
  · next cs =>
      by_cases h : ['*', '/'] <:+: cs
      · obtain ⟨content, rest, rfl, hno⟩ := exists_first_ending h
        rw [splitComment_closed hno]
        exact .closed hno
      · rw [splitComment_unclosed h]
        exact .unclosed h
  · next hline hblock =>
      refine .punct fun c hc => ⟨fun hlex => ?_, fun hopen => ?_⟩
      · rcases lexeme_pair (c := '/') (by decide) hlex with ⟨hmem, -⟩ | ⟨hmem, -⟩
        · exact absurd hmem (by decide)
        · exact absurd hmem (by decide)
      · obtain ⟨rest, rfl⟩ := List.head?_eq_some_iff.1 hc
        generalize htext : Punct.slash.text.toList ++ [c] = text at hopen
        cases hopen with
        | hash => simp [Punct.text] at htext
        | slashes => exact hline rest (by simp_all [Punct.text])
        | block => exact hblock rest (by simp_all [Punct.text])

theorem complete_pair {d : Char} (hc : c.isAlphanum = false) (rest : List Char) :
    Complete [c, d] rest :=
  fun _ _ => ⟨not_lexeme_triple hc, nofun⟩

theorem fits_afterLess (cs : List Char) : (afterLess cs).1.Fits (afterLess cs).2 := by
  unfold afterLess
  split
  · exact .punct (complete_pair (by decide) _)
  · exact .punct (complete_pair (by decide) _)
  · next heq harrow =>
      refine .punct fun c hc => ⟨fun hlex => ?_, nofun⟩
      obtain ⟨rest, rfl⟩ := List.head?_eq_some_iff.1 hc
      rcases lexeme_pair (by decide) hlex with ⟨-, rfl⟩ | ⟨-, rfl⟩
      · exact heq rest rfl
      · exact harrow rest rfl

theorem fits_afterGreater (cs : List Char) : (afterGreater cs).1.Fits (afterGreater cs).2 := by
  unfold afterGreater
  split
  · exact .punct (complete_pair (by decide) _)
  · next heq =>
      refine .punct fun c hc => ⟨fun hlex => ?_, nofun⟩
      obtain ⟨rest, rfl⟩ := List.head?_eq_some_iff.1 hc
      rcases lexeme_pair (by decide) hlex with ⟨-, rfl⟩ | ⟨hless, -⟩
      · exact heq rest rfl
      · cases hless

theorem fits_beforeEquals {p : Punct} (hp : p.text.toList = [c, '=']) (hc : c = '=' ∨ c = '!')
    (cs : List Char) : (beforeEquals c p cs).1.Fits (beforeEquals c p cs).2 := by
  unfold beforeEquals
  split
  · refine .punct ?_
    rw [hp]
    exact complete_pair (by rcases hc with rfl | rfl <;> decide) _
  · next heq =>
      refine .lone hc fun hhead => ?_
      obtain ⟨rest, rfl⟩ := List.head?_eq_some_iff.1 hhead
      exact heq rest rfl

theorem punct_sign {p : Punct} (h : p.text.toList = c :: cs) : c.isAlphanum = false := by
  cases p <;> simp [Punct.text] at h <;> rw [← h.1] <;> decide

theorem opening_sign (h : Opening (c :: cs)) : c.isAlphanum = false := by
  cases h <;> decide

theorem not_digit_of_alpha (h : c.isAlpha = true) : c.isDigit = false := by
  have hletter : 'A'.val ≤ c.val := by
    rcases (Bool.or_eq_true ..).mp h with h | h
    · exact (of_decide_eq_true h).1
    · exact UInt32.le_trans (by decide) (of_decide_eq_true ((Bool.and_eq_true ..).mp h).1)
  rw [← Bool.not_eq_true, Char.isDigit_iff_toNat]
  exact fun hdigit => absurd (Nat.le_trans hletter hdigit.2) (by decide)

/-- Behind a digit, a lexeme goes on with digits. -/
theorem lexeme_digit (hc : c.isDigit = true) (h : Lexeme (c :: cs)) :
    ∀ d ∈ cs, d.isDigit = true := by
  generalize htext : c :: cs = text at h
  cases h with
  | word h =>
      subst htext
      simp [not_digit_of_alpha h.1] at hc
  | numeral h =>
      subst htext
      exact fun d hd => h.2 d (List.mem_cons_of_mem _ hd)
  | punct p => simpa [Char.isAlphanum, hc] using punct_sign htext.symm

/-- Behind a letter, a lexeme goes on with letters and digits. -/
theorem lexeme_letter (hc : c.isAlpha = true) (h : Lexeme (c :: cs)) :
    ∀ d ∈ cs, d.isAlphanum = true := by
  generalize htext : c :: cs = text at h
  cases h with
  | word h =>
      subst htext
      exact h.2
  | numeral h =>
      subst htext
      simpa [not_digit_of_alpha hc] using h.2 c
  | punct p => simpa [Char.isAlphanum, hc] using punct_sign htext.symm

theorem head?_dropWhile {p : Char → Bool} (h : (cs.dropWhile p).head? = some c) : p c = false := by
  have := List.head?_dropWhile_not p cs
  rwa [h] at this

theorem complete_digits (hc : c.isDigit = true) (h : ∀ d, rest.head? = some d → d.isDigit = false) :
    Complete (c :: cs) rest := by
  refine fun d hd => ⟨fun hlex => ?_, fun hopen => ?_⟩
  · simpa [h d hd] using lexeme_digit hc hlex d
  · simpa [Char.isAlphanum, hc] using opening_sign hopen

theorem complete_letters (hc : c.isAlpha = true)
    (h : ∀ d, rest.head? = some d → d.isAlphanum = false) : Complete (c :: cs) rest := by
  refine fun d hd => ⟨fun hlex => ?_, fun hopen => ?_⟩
  · simpa [h d hd] using lexeme_letter hc hlex d
  · simpa [Char.isAlphanum, hc] using opening_sign hopen

/-- The first segment of a text is of its class. -/
theorem fits_split (c : Char) (cs : List Char) : (split c cs).1.Fits (split c cs).2 := by
  unfold split
  split
  · next h => exact .blank (isBlank_iff.1 h)
  split
  · exact fits_takeLine (Or.inl rfl) cs
  split
  · exact fits_afterSlash cs
  split
  · exact fits_afterLess cs
  split
  · exact fits_afterGreater cs
  split
  · exact fits_beforeEquals rfl (Or.inl rfl) cs
  split
  · exact fits_beforeEquals rfl (Or.inr rfl) cs
  split
  · next h =>
      refine .number ⟨by simp, ?_⟩ (complete_digits h fun d => head?_dropWhile)
      simpa [h] using fun d => List.all_eq_true.1 List.all_takeWhile d
  split
  · next h =>
      exact .word ⟨h, List.all_eq_true.1 List.all_takeWhile⟩ (complete_letters h fun d => head?_dropWhile)
  split
  · next h => exact .punct (complete_single h cs)
  · next hblank hhash hslash hless hgreater heq hne hdigit halpha _ hsingle =>
      refine .stray (fun h => hblank (isBlank_iff.2 h)) hhash fun more hlex => ?_
      obtain ⟨p, hp⟩ := (lexeme_sign (by simp [Char.isAlphanum, hdigit, halpha])).1 hlex
      cases p <;> simp [Punct.text] at hp <;> simp [← hp.1, single?] at *

/-! ## There is only one way -/

theorem takeWhile_append_rest {p : Char → Bool} (hcs : ∀ c ∈ cs, p c = true)
    (hrest : ∀ c, rest.head? = some c → p c = false) :
    (cs ++ rest).takeWhile p = cs ∧ (cs ++ rest).dropWhile p = rest := by
  rw [List.takeWhile_append_of_pos hcs, List.dropWhile_append_of_pos hcs]
  cases rest with
  | nil => simp
  | cons d rest => simp [hrest d rfl]

theorem takeLine_of_fits (opening : List Char) {content : List Char} (line : '\n' ∉ content)
    (hrest : ∀ c, rest.head? = some c → c = '\n') :
    takeLine opening (content ++ rest) = (.lineComment (opening ++ content), rest) := by
  have hcontent (c : Char) (hc : c ∈ content) : (c != '\n') = true := by
    simpa using ne_of_mem_of_not_mem hc line
  have hnext (c : Char) (hc : rest.head? = some c) : (c != '\n') = false := by
    simp [hrest c hc]
  obtain ⟨htake, hdrop⟩ := takeWhile_append_rest hcontent hnext
  rw [takeLine, htake, hdrop]

/-- The characters that more than one class of segments starts with, or that are
blank. -/
def special : List Char := [' ', '\r', '\t', '\n', '#', '/', '<', '>', '=', '!']

theorem not_special (h : c.isAlphanum = true) : c ∉ special := by
  have hspecial : ∀ d ∈ special, d.isAlphanum = false := by simp [special]
  intro hmem
  simp [hspecial c hmem] at h

theorem split_of_not_special (h : c ∉ special) (cs : List Char) :
    split c cs =
      if c.isDigit then (.number (c :: cs.takeWhile Char.isDigit), cs.dropWhile Char.isDigit)
      else if c.isAlpha then
        (.word (c :: cs.takeWhile Char.isAlphanum), cs.dropWhile Char.isAlphanum)
      else
        match single? c with
        | some p => (.punct p, cs)
        | none => (.unscannable c, cs) := by
  simp only [special, List.mem_cons, List.not_mem_nil, or_false, not_or] at h
  have hblank : ¬ isBlank c = true := by simp [isBlank, h]
  obtain ⟨-, -, -, -, hhash, hslash, hless, hgreater, heq, hne⟩ := h
  exact (if_neg hblank).trans <| (if_neg hhash).trans <| (if_neg hslash).trans <|
    (if_neg hless).trans <| (if_neg hgreater).trans <| (if_neg heq).trans (if_neg hne)

theorem split_punct {p : Punct} (hp : p.text.toList = c :: cs) (hrest : Complete p.text.toList rest) :
    split c (cs ++ rest) = (.punct p, rest) := by
  have hnext {d : Char} (hd : Lexeme (p.text.toList ++ [d]) ∨ Opening (p.text.toList ++ [d])) :
      ∀ more, rest = d :: more → False := by
    rintro more rfl
    exact hd.elim (hrest d rfl).1 (hrest d rfl).2
  cases p
  case slash =>
    cases hp
    exact afterSlash.eq_3 rest (hnext (Or.inr .slashes)) (hnext (Or.inr .block))
  case lt =>
    cases hp
    exact afterLess.eq_3 rest (hnext (Or.inl (.punct .le))) (hnext (Or.inl (.punct .arrow)))
  case gt =>
    cases hp
    exact afterGreater.eq_2 rest (hnext (Or.inl (.punct .ge)))
  all_goals
    cases hp
    rfl

/-- A segment that fits is the one that is cut off. -/
theorem split_of_fits {s : Segment} (h : s.Fits rest) :
    ∃ c cs, s.text ++ rest = c :: cs ∧ split c cs = (s, rest) := by
  cases h with
  | @blank c _ h => exact ⟨c, rest, rfl, by simp [split, isBlank_iff.2 h]⟩
  | @lineComment opening content _ h line hrest =>
      rcases h with rfl | rfl
      · exact ⟨'#', content ++ rest, rfl, takeLine_of_fits ['#'] line hrest⟩
      · exact ⟨'/', '/' :: (content ++ rest), rfl, takeLine_of_fits ['/', '/'] line hrest⟩
  | @closed content _ h =>
      refine ⟨'/', '*' :: (content ++ '*' :: '/' :: rest), by simp [text], ?_⟩
      show afterSlash ('*' :: (content ++ '*' :: '/' :: rest)) = _
      rw [afterSlash, splitComment_closed h]
  | @unclosed content h =>
      refine ⟨'/', '*' :: content, by simp [text], ?_⟩
      show afterSlash ('*' :: content) = _
      rw [afterSlash, splitComment_unclosed h]
  | @number digits _ h hrest =>
      obtain ⟨hne, hdigits⟩ := h
      obtain ⟨c, cs, rfl⟩ := List.exists_cons_of_ne_nil hne
      rw [List.forall_mem_cons] at hdigits
      have hnext (d : Char) (hd : rest.head? = some d) : d.isDigit = false := by
        rw [← Bool.not_eq_true]
        intro hdigit
        refine (hrest d hd).1 (.numeral ⟨by simp, ?_⟩)
        simpa [or_imp, forall_and, hdigits, hdigit] using hdigits.2
      obtain ⟨htake, hdrop⟩ := takeWhile_append_rest hdigits.2 hnext
      refine ⟨c, cs ++ rest, rfl, ?_⟩
      rw [split_of_not_special (not_special (by simp [Char.isAlphanum, hdigits])), if_pos hdigits.1,
        htake, hdrop]
  | @word letters _ h hrest =>
      obtain _ | ⟨c, cs⟩ := letters
      · exact h.elim
      obtain ⟨hc, hcs⟩ := h
      have hnext (d : Char) (hd : rest.head? = some d) : d.isAlphanum = false := by
        rw [← Bool.not_eq_true]
        intro hletter
        refine (hrest d hd).1 (.word ⟨hc, ?_⟩)
        simpa [or_imp, forall_and, hletter] using hcs
      obtain ⟨htake, hdrop⟩ := takeWhile_append_rest hcs hnext
      refine ⟨c, cs ++ rest, rfl, ?_⟩
      rw [split_of_not_special (not_special (by simp [Char.isAlphanum, hc])),
        if_neg (by simp [not_digit_of_alpha hc]), if_pos hc, htake, hdrop]
  | @punct p _ hrest =>
      obtain ⟨c, cs, hp⟩ : ∃ c cs, p.text.toList = c :: cs := by cases p <;> exact ⟨_, _, rfl⟩
      exact ⟨c, cs ++ rest, by simp [text, hp], split_punct hp hrest⟩
  | @lone c _ h hrest =>
      have hnext : ∀ more, rest = '=' :: more → False := by
        rintro more rfl
        exact hrest rfl
      refine ⟨c, rest, rfl, ?_⟩
      rcases h with rfl | rfl
      · exact beforeEquals.eq_2 _ _ rest hnext
      · exact beforeEquals.eq_2 _ _ rest hnext
  | @stray c _ hblank hhash h =>
      refine ⟨c, rest, rfl, ?_⟩
      have hspecial : c ∉ special := by
        simp only [special, List.mem_cons, List.not_mem_nil, or_false, not_or]
        simp only [List.mem_cons, List.not_mem_nil, or_false, not_or] at hblank
        refine ⟨hblank.1, hblank.2.2.1, hblank.2.1, hblank.2.2.2, hhash, ?_, ?_, ?_, ?_, ?_⟩
        all_goals rintro rfl
        · exact h [] (.punct .slash)
        · exact h [] (.punct .lt)
        · exact h [] (.punct .gt)
        · exact h ['='] (.punct .eq)
        · exact h ['='] (.punct .ne)
      have hdigit : c.isDigit = false := by
        rw [← Bool.not_eq_true]
        exact fun hc => h [] (.numeral ⟨by simp, by simpa using hc⟩)
      have halpha : c.isAlpha = false := by
        rw [← Bool.not_eq_true]
        exact fun hc => h [] (.word ⟨hc, by simp⟩)
      have hsingle : single? c = none := by
        cases hc : single? c with
        | none => rfl
        | some p => exact absurd (text_single? hc ▸ .punct p) (h [])
      simp [split_of_not_special hspecial, hdigit, halpha, hsingle]

theorem length_split (c : Char) (cs : List Char) : (split c cs).2.length ≤ cs.length := by
  have total := congrArg List.length (split_append c cs)
  have := List.length_pos_iff.2 (text_ne_nil c cs)
  simp only [List.length_append, List.length_cons] at total
  omega

theorem tiles_take (n : Nat) (h : cs.length ≤ n) : Tiles (take n cs) cs := by
  induction n generalizing cs with
  | zero =>
      obtain rfl := List.length_eq_zero_iff.1 (Nat.le_zero.1 h)
      exact .nil
  | succ n ih =>
      cases cs with
      | nil => exact .nil
      | cons c cs =>
          have htiles := Tiles.cons (fits_split c cs)
            (ih (Nat.le_trans (length_split c cs) (Nat.le_of_succ_le_succ h)))
          rwa [split_append] at htiles

theorem Tiles.eq_take {segments : List Segment} (h : Tiles segments cs) {n : Nat}
    (hn : cs.length ≤ n) : segments = take n cs := by
  induction h generalizing n with
  | nil => cases n <;> rfl
  | @cons s more rest h _ ih =>
      obtain ⟨c, cs, htext, hsplit⟩ := split_of_fits h
      rw [htext] at hn ⊢
      have hrest : rest.length ≤ cs.length := by simpa [hsplit] using length_split c cs
      cases n with
      | zero => simp at hn
      | succ n =>
          simp only [take, hsplit]
          rw [← ih (Nat.le_trans hrest (Nat.le_of_succ_le_succ hn))]

/-- A text is cut in one way only, and that is how it is read. -/
theorem tiles_iff {segments : List Segment} : Tiles segments cs ↔ segments = ofText cs := by
  constructor
  · exact fun h => h.eq_take (Nat.le_refl _)
  · rintro rfl
    exact tiles_take cs.length (Nat.le_refl _)

/-! ## What is read -/

/-- The number that some digits denote. -/
def decimal (digits : List Char) : Nat := Nat.ofDigitChars 10 digits 0

/-- A number that signed words of 64 bits do not have. -/
def Oversized : Segment → Prop
  | number digits => 2 ^ 63 - 1 < decimal digits
  | _ => False

/-- Whether a segment is a token. -/
def isToken : Segment → Bool
  | number _ | word _ | punct _ => true
  | _ => false

/-- Whether there is something wrong with a segment. -/
def isFlawed : Segment → Bool
  | unscannable _ | blockComment _ false => true
  | _ => false

/-- The kinds of tokens by their texts. -/
inductive Spells : List Char → TokenKind → Prop where
  | keyword (k : Keyword) : Spells k.text.toList (.keyword k)
  | ident {x : String} (h : IsWord x.toList) (hk : ∀ k : Keyword, k.text ≠ x) :
      Spells x.toList (.ident x)
  | number {digits : List Char} {n : Int64} (h : IsNumeral digits) (hn : n.toInt = decimal digits) :
      Spells digits (.number n)
  | punct (p : Punct) : Spells p.text.toList (.punct p)

/-- A token with the text of a segment, and of the kind that has that text. -/
structure Reads (s : Segment) (t : Token) : Prop where
  lexeme : t.lexeme.toList = s.text
  kind : Spells s.text t.kind

/-- An error about what is wrong with a segment. -/
inductive Blames : Segment → Diagnostic → Prop where
  | unscannable {c : Char} {pos : Pos} : Blames (.unscannable c) ⟨.error, pos, .unscannable c⟩
  | unclosed {content : List Char} {pos : Pos} :
      Blames (.blockComment content false) ⟨.error, pos, .unterminatedComment⟩

theorem digitsValue_eq (digits : List Char) : digitsValue digits = decimal digits :=
  Nat.ofDigitChars_eq_foldl.symm

theorem spells_ofWord (h : IsWord cs) : Spells cs (.ofWord (String.ofList cs)) := by
  unfold TokenKind.ofWord
  split
  · next k hk =>
      rw [← String.toList_ofList (l := cs), ← Keyword.ofText?_eq_some_iff.1 hk]
      exact .keyword k
  · next hk =>
      have hident : Spells (String.ofList cs).toList (.ident (String.ofList cs)) := by
        refine .ident (String.toList_ofList ▸ h) fun k htext => ?_
        cases hk.symm.trans (Keyword.ofText?_eq_some_iff.2 htext)
      rwa [String.toList_ofList] at hident

/-- A token is read off a segment that has a place in a text. -/
theorem kind_of_fits {s : Segment} (h : s.Fits rest) (hs : ¬ s.Oversized) :
    ∃ kind?, s.kind? = .ok kind? ∧ (s.isToken = false → kind? = none) ∧
      (s.isToken = true → ∃ kind, kind? = some kind ∧ Spells s.text kind) := by
  cases h with
  | @number digits _ h =>
      have hlt : digitsValue digits < 0x8000000000000000 := by
        simp only [Oversized, ← digitsValue_eq] at hs
        omega
      refine ⟨some (.number (Int64.ofNat (digitsValue digits))), by simp [kind?, literal?, hlt],
        nofun, fun _ => ⟨_, rfl, .number h ?_⟩⟩
      rw [Int64.toInt_ofNat_of_lt hlt, digitsValue_eq]
      rfl
  | @word letters _ h => exact ⟨_, rfl, nofun, fun _ => ⟨_, rfl, spells_ofWord h⟩⟩
  | @punct p => exact ⟨_, rfl, nofun, fun _ => ⟨_, rfl, .punct p⟩⟩
  | blank | lineComment | closed | unclosed | lone | stray => exact ⟨_, rfl, fun _ => rfl, nofun⟩

theorem kind_of_oversized {s : Segment} (h : s.Oversized) : ∃ digits, s.kind? = .error digits := by
  cases s with
  | number digits =>
      have hge : ¬ digitsValue digits < 0x8000000000000000 := by
        simp only [Oversized, ← digitsValue_eq] at h
        omega
      exact ⟨digits, by simp [kind?, literal?, hge]⟩
  | _ => exact h.elim

end Segment

open Segment

theorem lex_oversized {segments : List Segment} (h : ∃ s ∈ segments, s.Oversized) (pos : Pos) :
    ∃ pos' message, (lex segments pos).failure = some (.malformed pos' message) := by
  induction segments generalizing pos with
  | nil => simp at h
  | cons s more ih =>
      cases hkind : s.kind? with
      | error digits =>
          exact ⟨pos, _, by simp only [lex, hkind]; rfl⟩
      | ok kind? =>
          obtain ⟨t, ht, hover⟩ := h
          rcases List.mem_cons.1 ht with rfl | ht
          · obtain ⟨digits, herror⟩ := kind_of_oversized hover
            cases hkind.symm.trans herror
          · obtain ⟨pos', message, hfail⟩ := ih ⟨t, ht, hover⟩ (pos.past s.text)
            exact ⟨pos', message, by simp only [lex, hkind]; exact hfail⟩

/-- All tokens are read, and all that is wrong is reported. -/
structure Lexed.Complete (found : Lexed) (segments : List Segment) : Prop where
  failure : found.failure = none
  tokens : List.Forall₂ Reads (segments.filter isToken) found.tokens
  diagnostics : List.Forall₂ Blames (segments.filter isFlawed) found.diagnostics

theorem lex_complete {segments : List Segment} {cs : List Char} (h : Tiles segments cs)
    (hs : ∀ s ∈ segments, ¬ s.Oversized) (pos : Pos) : (lex segments pos).Complete segments := by
  induction h generalizing pos with
  | nil => exact ⟨rfl, .nil, .nil⟩
  | @cons s more rest hfits _ ih =>
      rw [List.forall_mem_cons] at hs
      obtain ⟨hfailure, htokens, hdiagnostics⟩ := ih hs.2 (pos.past s.text)
      obtain ⟨kind?, hkind, hno, hyes⟩ := kind_of_fits hfits hs.1
      simp only [lex, hkind]
      refine ⟨hfailure, ?_, ?_⟩
      · cases htoken : s.isToken with
        | false =>
            rw [hno htoken, List.filter_cons_of_neg (by simp [htoken])]
            exact htokens
        | true =>
            obtain ⟨kind, rfl, hspells⟩ := hyes htoken
            rw [List.filter_cons_of_pos htoken]
            exact .cons ⟨String.toList_ofList, hspells⟩ htokens
      · cases hfits with
        | lone | stray => exact .cons .unscannable hdiagnostics
        | unclosed => exact .cons .unclosed hdiagnostics
        | blank | lineComment | closed | number | word | punct => exact hdiagnostics

theorem Scanner.scan_of_some {s : Scanner} {e : Error} (h : (lex s.rest s.pos).failure = some e) :
    s.scan.1 = .error e := by
  simp only [Scanner.scan, h]

theorem Scanner.scan_of_none {s : Scanner} (h : (lex s.rest s.pos).failure = none) :
    s.scan.1 = .ok (s.pending ++ (lex s.rest s.pos).tokens ++ [⟨.eof, "", (lex s.rest s.pos).pos⟩]) ∧
      s.scan.2.diagnostics = s.diagnostics ++ (lex s.rest s.pos).diagnostics := by
  simp only [Scanner.scan, h, and_self]

/-- A source text is cut in one way, each token as long as it can be. Scanning
fails where a number of that cut is too large, and gives its tokens and one
error for each flaw of it otherwise. -/
theorem scan_tiles (source : String) : ∃ segments, Tiles segments source.toList ∧
    (∀ others, Tiles others source.toList → others = segments) ∧
    ((∃ pos message, (Scanner.ofText source).scan.1 = .error (.malformed pos message)) ↔
      ∃ s ∈ segments, s.Oversized) ∧
    ((∀ s ∈ segments, ¬ s.Oversized) → ∃ tokens stop,
      (Scanner.ofText source).scan.1 = .ok (tokens ++ [stop]) ∧ stop.kind = .eof ∧
      List.Forall₂ Reads (segments.filter isToken) tokens ∧
      List.Forall₂ Blames (segments.filter isFlawed) (Scanner.ofText source).scan.2.diagnostics) := by
  have htiles : Tiles (ofText source.toList) source.toList := tiles_iff.2 rfl
  refine ⟨ofText source.toList, htiles, fun _ => tiles_iff.1, ⟨?_, fun h => ?_⟩, fun h => ?_⟩
  · rintro ⟨pos, message, herror⟩
    by_contra hno
    have hlexed := lex_complete htiles (fun s hs hover => hno ⟨s, hs, hover⟩) .start
    cases herror.symm.trans (Scanner.scan_of_none (s := .ofText source) hlexed.failure).1
  · obtain ⟨pos, message, hfail⟩ := lex_oversized h .start
    exact ⟨pos, message, Scanner.scan_of_some (s := .ofText source) hfail⟩
  · have hlexed := lex_complete htiles h .start
    obtain ⟨htokens, hdiagnostics⟩ := Scanner.scan_of_none (s := .ofText source) hlexed.failure
    exact ⟨_, _, htokens, rfl, hlexed.tokens, hdiagnostics ▸ hlexed.diagnostics⟩

end StructuredSsa
