import StructuredSsa.Proofs.Tiling

/-!
# Scanning what was printed

Tokens printed with a blank between them are read back. Every token has a
segment of its own (`TokenKind.segment`), no blank goes on with any of them, so
these segments with blanks between them are the one cut of the printed text.
-/

namespace StructuredSsa

open Segment

namespace TokenKind

/-- A token that a text can have: no number has a sign, names are words that are
not reserved, and the end marker stands for no text. -/
def Printable : TokenKind → Prop
  | number n => 0 ≤ n
  | ident x => IsWord x.toList ∧ ∀ k : Keyword, k.text ≠ x
  | keyword _ | punct _ => True
  | eof => False

/-- The segment that a token is read from. -/
def segment : TokenKind → Segment
  | punct p => .punct p
  | number n => .number (toString n.toInt).toList
  | kind => .word kind.text.toList

theorem text_segment (kind : TokenKind) : kind.segment.text = kind.text.toList := by
  cases kind <;> rfl

theorem isWord_keyword (k : Keyword) : IsWord k.text.toList := by
  cases k <;> exact ⟨by decide, List.all_eq_true.1 (by decide)⟩

/-- Printing and the spelling of tokens agree. -/
theorem spells_text {kind : TokenKind} (h : kind.Printable) : Spells kind.text.toList kind := by
  cases kind with
  | number n =>
      obtain ⟨m, hm⟩ := Int.eq_ofNat_of_zero_le (Int64.le_iff_toInt_le.1 h)
      have htext : (toString n.toInt).toList = Nat.toDigits 10 m := by
        rw [hm]
        show (toString m).toList = _
        rw [Nat.toString_eq_ofList_toDigits, String.toList_ofList]
      show Spells (toString n.toInt).toList _
      rw [htext]
      refine .number ⟨Nat.toDigits_ne_nil, fun c => Nat.isDigit_of_mem_toDigits (by decide) (by decide)⟩ ?_
      rw [decimal, Nat.ofDigitChars_ten_toDigits, hm]
  | ident x => exact .ident h.1 h.2
  | keyword k => exact .keyword k
  | punct p => exact .punct p
  | eof => exact h.elim

end TokenKind

namespace Segment

/-! ## A text has one kind -/

theorem keyword_text_injective {k l : Keyword} (h : k.text = l.text) : k = l := by
  have hl := Keyword.ofText?_text l
  rw [← h, Keyword.ofText?_text] at hl
  exact Option.some.inj hl

theorem punct_text_injective {p q : Punct} (h : p.text.toList = q.text.toList) : p = q := by
  -- Nothing follows, so both are the one segment that the text is cut into.
  have htiles (r : Punct) : Tiles [.punct r] r.text.toList := by
    have hfits : (punct r).Fits [] := .punct nofun
    simpa [text] using Tiles.cons hfits .nil
  have heq := (tiles_iff.1 (htiles p)).trans (tiles_iff.1 (h ▸ htiles q)).symm
  simpa using heq

theorem not_numeral_of_word {cs : List Char} (h : IsWord cs) : ¬ IsNumeral cs := by
  cases cs with
  | nil => exact h.elim
  | cons c cs =>
      intro hdigits
      simpa [not_digit_of_alpha h.1] using hdigits.2 c

theorem not_alphanum_punct (p : Punct) : ¬ IsWord p.text.toList ∧ ¬ IsNumeral p.text.toList := by
  obtain ⟨c, cs, hp⟩ : ∃ c cs, p.text.toList = c :: cs := by cases p <;> exact ⟨_, _, rfl⟩
  have hsign : c.isAlpha = false ∧ c.isDigit = false := by
    simpa [Char.isAlphanum] using punct_sign hp
  rw [hp]
  exact ⟨fun h => by simp [IsWord, hsign] at h, fun h => by simp [IsNumeral, hsign] at h⟩

theorem Spells.unique {cs : List Char} {k l : TokenKind} (hk : Spells cs k) (hl : Spells cs l) :
    k = l := by
  generalize htext : cs = ds at hl
  cases hk with
  | keyword k =>
      cases hl with
      | keyword l => rw [keyword_text_injective (String.toList_inj.1 htext)]
      | ident _ hl => exact absurd (String.toList_inj.1 htext) (hl k)
      | number h => exact absurd (htext ▸ h) (not_numeral_of_word (TokenKind.isWord_keyword k))
      | punct p => exact absurd (htext ▸ TokenKind.isWord_keyword k) (not_alphanum_punct p).1
  | ident h hk =>
      cases hl with
      | keyword l => exact absurd (String.toList_inj.1 htext.symm) (hk l)
      | ident => rw [String.toList_inj.1 htext]
      | number h' => exact absurd (htext ▸ h') (not_numeral_of_word h)
      | punct p => exact absurd (htext ▸ h) (not_alphanum_punct p).1
  | number h hn =>
      cases hl with
      | keyword l => exact absurd (htext ▸ h) (not_numeral_of_word (TokenKind.isWord_keyword l))
      | ident h' => exact absurd (htext ▸ h) (not_numeral_of_word h')
      | number _ hm => rw [Int64.toInt_inj.1 (hn.trans (htext ▸ hm).symm)]
      | punct p => exact absurd (htext ▸ h) (not_alphanum_punct p).2
  | punct p =>
      cases hl with
      | keyword l => exact absurd (htext ▸ TokenKind.isWord_keyword l) (not_alphanum_punct p).1
      | ident h => exact absurd (htext ▸ h) (not_alphanum_punct p).1
      | number h => exact absurd (htext ▸ h) (not_alphanum_punct p).2
      | punct q => rw [punct_text_injective htext]

/-! ## The cut of a printed text -/

/-- No token has a blank in it. -/
theorem not_lexeme_blank (cs : List Char) : ¬ Lexeme (cs ++ [' ']) := by
  intro h
  generalize htext : cs ++ [' '] = text at h
  cases h with
  | word h =>
      subst htext
      cases cs with
      | nil => exact absurd h.1 (by decide)
      | cons c cs => exact absurd (h.2 ' ' (by simp)) (by decide)
  | numeral h =>
      subst htext
      exact absurd (h.2 ' ' (by simp)) (by decide)
  | punct p =>
      have hmem : ' ' ∈ p.text.toList := by simp [← htext]
      revert hmem
      cases p <;> decide

theorem complete_blank {cs rest : List Char} (h : ∀ c, rest.head? = some c → c = ' ') :
    Complete cs rest := by
  intro c hc
  obtain rfl := h c hc
  refine ⟨not_lexeme_blank cs, fun hopen => ?_⟩
  generalize htext : cs ++ [' '] = text at hopen
  cases hopen <;> simpa using congrArg List.getLast? htext

theorem fits_segment {kind : TokenKind} (h : kind.Printable) {rest : List Char}
    (hrest : ∀ c, rest.head? = some c → c = ' ') : kind.segment.Fits rest := by
  cases kind with
  | number n =>
      have hspells := TokenKind.spells_text h
      generalize htext : (TokenKind.number n).text.toList = cs at hspells
      refine .number ?_ (complete_blank hrest)
      cases hspells with
      | number hdigits => exact htext ▸ hdigits
  | ident x => exact .word h.1 (complete_blank hrest)
  | keyword k => exact .word (TokenKind.isWord_keyword k) (complete_blank hrest)
  | punct p => exact .punct (complete_blank hrest)
  | eof => exact h.elim

/-- The segments of tokens with blanks between them. -/
def ofKinds (kinds : List TokenKind) : List Segment :=
  (kinds.map TokenKind.segment).intersperse (.blank ' ')

theorem tiles_ofKinds : ∀ {kinds : List TokenKind}, (∀ k ∈ kinds, k.Printable) →
    Tiles (ofKinds kinds) (" ".intercalate (kinds.map (·.text))).toList
  | [], _ => .nil
  | [kind], h => by
      have hfits : kind.segment.Fits [] := fits_segment (h kind (by simp)) nofun
      have htiles := Tiles.cons hfits .nil
      simpa [ofKinds, TokenKind.text_segment] using htiles
  | kind :: next :: rest, h => by
      rw [List.forall_mem_cons] at h
      have hblank := Tiles.cons (.blank (c := ' ') (by simp)) (tiles_ofKinds h.2)
      have htiles := Tiles.cons (fits_segment h.1 (by simp [text])) hblank
      rw [TokenKind.text_segment] at htiles
      simpa [ofKinds, text, String.intercalate_cons_cons] using htiles

theorem filter_ofKinds {p : Segment → Bool} (hblank : p (.blank ' ') = false) :
    ∀ kinds : List TokenKind, (ofKinds kinds).filter p = (kinds.map TokenKind.segment).filter p
  | [] => rfl
  | [kind] => rfl
  | kind :: next :: rest => by
      have ih := filter_ofKinds hblank (next :: rest)
      simp only [ofKinds, List.map_cons, List.intersperse_cons_cons, List.filter_cons, hblank,
        Bool.false_eq_true, if_false] at ih ⊢
      rw [ih]

theorem segment_plain (kind : TokenKind) :
    kind.segment.isToken = true ∧ kind.segment.isFlawed = false := by
  cases kind <;> exact ⟨rfl, rfl⟩

theorem not_oversized_segment {kind : TokenKind} (h : kind.Printable) :
    ¬ kind.segment.Oversized := by
  cases kind with
  | number n =>
      have hspells := TokenKind.spells_text h
      generalize htext : (TokenKind.number n).text.toList = cs at hspells
      cases hspells with
      | number _ hn =>
          have := n.toInt_lt
          show ¬ 2 ^ 63 - 1 < decimal (TokenKind.number n).text.toList
          rw [htext]
          omega
  | _ => exact id

theorem not_oversized_ofKinds {kinds : List TokenKind} (h : ∀ k ∈ kinds, k.Printable) :
    ∀ s ∈ ofKinds kinds, ¬ s.Oversized := by
  intro s hs hover
  have hfilter := filter_ofKinds (p := isToken) rfl kinds
  have htoken : s.isToken = true := by
    cases s with
    | number => rfl
    | _ => exact hover.elim
  have hmem : s ∈ (kinds.map TokenKind.segment).filter isToken :=
    hfilter ▸ List.mem_filter.2 ⟨hs, htoken⟩
  obtain ⟨kind, hkind, rfl⟩ := List.mem_map.1 (List.mem_filter.1 hmem).1
  exact not_oversized_segment (h kind hkind) hover

/-- Tokens that are read off the segments of printable ones are these. -/
theorem eq_of_reads {kinds : List TokenKind} {tokens : List Token} (h : ∀ k ∈ kinds, k.Printable)
    (hreads : List.Forall₂ Reads (kinds.map TokenKind.segment) tokens) :
    tokens.map (·.kind) = kinds ∧ tokens.map (·.lexeme) = kinds.map (·.text) := by
  induction kinds generalizing tokens with
  | nil =>
      cases hreads
      exact ⟨rfl, rfl⟩
  | cons kind kinds ih =>
      rw [List.forall_mem_cons] at h
      cases hreads with
      | @cons _ t _ tokens ht hrest =>
          obtain ⟨hkinds, hlexemes⟩ := ih h.2 hrest
          have hlexeme : t.lexeme = kind.text :=
            String.toList_inj.1 (ht.lexeme.trans kind.text_segment)
          have hkind : t.kind = kind := (kind.text_segment ▸ ht.kind).unique (TokenKind.spells_text h.1)
          simp [hkinds, hlexemes, hlexeme, hkind]

end Segment

/-- Tokens that are printed with a blank between each two are read back as they
were, and nothing is reported. -/
theorem scan_printed (kinds : List TokenKind) (h : ∀ k ∈ kinds, k.Printable) :
    let scanned := (Scanner.ofText (" ".intercalate (kinds.map (·.text)))).scan
    ∃ tokens stop, scanned.1 = .ok (tokens ++ [stop]) ∧ tokens.map (·.kind) = kinds ∧
      stop.kind = .eof ∧ tokens.map (·.lexeme) = kinds.map (·.text) ∧ scanned.2.diagnostics = [] := by
  have htiles := tiles_ofKinds h
  obtain ⟨hfailure, htokens, hdiagnostics⟩ := lex_complete htiles (not_oversized_ofKinds h) .start
  rw [filter_ofKinds rfl, List.filter_eq_self.2 (by simp [segment_plain])] at htokens
  rw [filter_ofKinds rfl, List.filter_eq_nil_iff.2 (by simp [segment_plain])] at hdiagnostics
  generalize " ".intercalate (kinds.map (·.text)) = source at htiles ⊢
  rw [tiles_iff.1 htiles] at hfailure htokens hdiagnostics
  obtain ⟨hscan, hreported⟩ := Scanner.scan_of_none (s := .ofText source) hfailure
  obtain ⟨hkinds, hlexemes⟩ := eq_of_reads h htokens
  refine ⟨_, _, hscan, hkinds, rfl, hlexemes, ?_⟩
  rw [hreported]
  exact List.forall₂_nil_left_iff.1 hdiagnostics

/-- Signs that would be one if they touched, a name with a reserved word in it,
and the largest number. -/
theorem touching_scan_printed :
    let kinds : List TokenKind := [.punct .lt, .punct .minus, .punct .slash, .punct .star,
      .ident "ifx", .keyword .if_, .number 9223372036854775807]
    (∀ k ∈ kinds, k.Printable) ∧
    let scanned := (Scanner.ofText (" ".intercalate (kinds.map (·.text)))).scan
    ∃ tokens stop, scanned.1 = .ok (tokens ++ [stop]) ∧ tokens.map (·.kind) = kinds ∧
      stop.kind = .eof ∧ tokens.map (·.lexeme) = kinds.map (·.text) ∧ scanned.2.diagnostics = [] := by
  intro kinds
  have hname : (TokenKind.ident "ifx").Printable :=
    ⟨⟨by decide, List.all_eq_true.1 (by decide)⟩, fun k => by cases k <;> decide⟩
  have hnumber : (0 : Int64) ≤ 9223372036854775807 := by decide
  have hkinds : ∀ k ∈ kinds, k.Printable := by
    simp only [kinds, List.forall_mem_cons]
    exact ⟨trivial, trivial, trivial, trivial, hname, trivial, hnumber, nofun⟩
  exact ⟨hkinds, scan_printed kinds hkinds⟩

end StructuredSsa
