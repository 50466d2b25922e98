import StructuredSsa.Token

/-!
# Segments of the source text

A source text is cut from left to right into segments: blanks, comments,
words, literals, operators, and single characters that fit nowhere. Each
segment is the longest of its class, and the segments of a text put together
give the text back. Segments know nothing of positions, so cutting a text
does not depend on where it stands.
-/

namespace StructuredSsa

/-- A stretch of source text with its class. -/
inductive Segment where
  | blank (c : Char)
  /-- From `#` or `//` up to the end of the line. -/
  | lineComment (content : List Char)
  /-- From `/*` through the next `*/`, or to the end of the input. -/
  | blockComment (content : List Char) (closed : Bool)
  | number (digits : List Char)
  | word (letters : List Char)
  | punct (p : Punct)
  | unscannable (c : Char)
deriving Repr, DecidableEq

namespace Segment

/-- The characters of a segment. -/
def text : Segment → List Char
  | blank c => [c]
  | lineComment content => content
  | blockComment content _ => content
  | number digits => digits
  | word letters => letters
  | punct p => p.text.toList
  | unscannable c => [c]

/-- The characters the language treats as blank. -/
def isBlank (c : Char) : Bool := c == ' ' || c == '\r' || c == '\t' || c == '\n'

/-- The operators and delimiters of one character that start no longer one. -/
def single? (c : Char) : Option Punct :=
  match c with
  | '(' => some .lparen
  | ')' => some .rparen
  | '[' => some .lbracket
  | ']' => some .rbracket
  | '\x7b' => some .lbrace
  | '\x7d' => some .rbrace
  | ',' => some .comma
  | ';' => some .semicolon
  | '.' => some .period
  | '+' => some .plus
  | '-' => some .minus
  | '*' => some .star
  | _ => none

/-- What follows the opening of a block comment: its content through the first
`*/`, whether that was found, and the rest. -/
def splitComment : List Char → List Char × Bool × List Char
  | [] => ([], false, [])
  | '*' :: '/' :: rest => (['*', '/'], true, rest)
  | c :: rest =>
      let (content, closed, rest) := splitComment rest
      (c :: content, closed, rest)

/-- A comment that runs to the end of the line; the line feed stays behind. -/
def takeLine (opening cs : List Char) : Segment × List Char :=
  (.lineComment (opening ++ cs.takeWhile (· != '\n')), cs.dropWhile (· != '\n'))

/-- What a slash starts. -/
def afterSlash : List Char → Segment × List Char
  | '/' :: cs => takeLine ['/', '/'] cs
  | '*' :: cs =>
      let (content, closed, rest) := splitComment cs
      (.blockComment ('/' :: '*' :: content) closed, rest)
  | cs => (.punct .slash, cs)

/-- What a less-than sign starts. -/
def afterLess : List Char → Segment × List Char
  | '=' :: cs => (.punct .le, cs)
  | '-' :: cs => (.punct .arrow, cs)
  | cs => (.punct .lt, cs)

/-- What a greater-than sign starts. -/
def afterGreater : List Char → Segment × List Char
  | '=' :: cs => (.punct .ge, cs)
  | cs => (.punct .gt, cs)

/-- What `=` or `!` starts: `p` if an equals sign follows, and nothing known
otherwise. -/
def beforeEquals (c : Char) (p : Punct) : List Char → Segment × List Char
  | '=' :: cs => (.punct p, cs)
  | cs => (.unscannable c, cs)

/-- The first segment of the text `c :: cs`, and what is left. -/
def split (c : Char) (cs : List Char) : Segment × List Char :=
  if isBlank c then (.blank c, cs)
  else if c = '#' then takeLine ['#'] cs
  else if c = '/' then afterSlash cs
  else if c = '<' then afterLess cs
  else if c = '>' then afterGreater cs
  else if c = '=' then beforeEquals '=' .eq cs
  else if c = '!' then beforeEquals '!' .ne cs
  else if c.isDigit then (.number (c :: cs.takeWhile Char.isDigit), cs.dropWhile Char.isDigit)
  else if c.isAlpha then
    (.word (c :: cs.takeWhile Char.isAlphanum), cs.dropWhile Char.isAlphanum)
  else
    match single? c with
    | some p => (.punct p, cs)
    | none => (.unscannable c, cs)

/-- The first `n` segments of a text. -/
def take : Nat → List Char → List Segment
  | 0, _ => []
  | _ + 1, [] => []
  | n + 1, c :: cs =>
      let (s, rest) := split c cs
      s :: take n rest

/-- All segments of a text: each has a character at least, so there are no
more of them than characters. -/
def ofText (cs : List Char) : List Segment := take cs.length cs

/-! ## Nothing is lost -/

theorem splitComment_append (cs : List Char) :
    (splitComment cs).1 ++ (splitComment cs).2.2 = cs := by
  fun_induction splitComment cs <;> simp_all

theorem takeLine_append (opening cs : List Char) :
    (takeLine opening cs).1.text ++ (takeLine opening cs).2 = opening ++ cs := by
  simp [takeLine, text]

theorem afterSlash_append (cs : List Char) :
    (afterSlash cs).1.text ++ (afterSlash cs).2 = '/' :: cs := by
  unfold afterSlash
  split
  · simp [takeLine_append]
  · rename_i cs
    simp [text, splitComment_append]
  · simp [text, Punct.text]

theorem afterLess_append (cs : List Char) :
    (afterLess cs).1.text ++ (afterLess cs).2 = '<' :: cs := by
  unfold afterLess
  split <;> simp [text, Punct.text]

theorem afterGreater_append (cs : List Char) :
    (afterGreater cs).1.text ++ (afterGreater cs).2 = '>' :: cs := by
  unfold afterGreater
  split <;> simp [text, Punct.text]

theorem beforeEquals_append {c : Char} {p : Punct} (h : p.text.toList = [c, '='])
    (cs : List Char) :
    (beforeEquals c p cs).1.text ++ (beforeEquals c p cs).2 = c :: cs := by
  unfold beforeEquals
  split <;> simp [text, h]

theorem text_single? {c : Char} {p : Punct} (h : single? c = some p) : p.text.toList = [c] := by
  unfold single? at h
  split at h <;> simp_all <;> subst h <;> rfl

/-- A segment and what is left of the text are the text. -/
theorem split_append (c : Char) (cs : List Char) :
    (split c cs).1.text ++ (split c cs).2 = c :: cs := by
  unfold split
  split
  · simp [text]
  split
  · simp_all [takeLine_append]
  split
  · simp_all [afterSlash_append]
  split
  · simp_all [afterLess_append]
  split
  · simp_all [afterGreater_append]
  split
  · simp_all [beforeEquals_append (c := '=') (p := .eq) rfl]
  split
  · simp_all [beforeEquals_append (c := '!') (p := .ne) rfl]
  split
  · simp [text]
  split
  · simp [text]
  split
  · rename_i h
    simp [text, text_single? h]
  · simp [text]

/-- A segment has a character at least. -/
theorem text_ne_nil (c : Char) (cs : List Char) : (split c cs).1.text ≠ [] := by
  have punct_ne_nil (p : Punct) : (punct p).text ≠ [] := by
    cases p <;> simp [text, Punct.text]
  unfold split
  split
  · simp [text]
  split
  · simp [takeLine, text]
  split
  · unfold afterSlash
    split <;> simp [takeLine, text, Punct.text]
  split
  · unfold afterLess
    split <;> exact punct_ne_nil _
  split
  · unfold afterGreater
    split <;> exact punct_ne_nil _
  split
  · unfold beforeEquals
    split <;> simp [text, Punct.text]
  split
  · unfold beforeEquals
    split <;> simp [text, Punct.text]
  split
  · simp [text]
  split
  · simp [text]
  split
  · exact punct_ne_nil _
  · simp [text]

theorem flatMap_text_take (n : Nat) (cs : List Char) (h : cs.length ≤ n) :
    (take n cs).flatMap text = cs := by
  induction n generalizing cs with
  | zero => simp_all [take]
  | succ n ih =>
    cases cs with
    | nil => rfl
    | cons c cs =>
      have shorter : (split c cs).2.length ≤ n := by
        have total := congrArg List.length (split_append c cs)
        have := List.length_pos_iff.2 (text_ne_nil c cs)
        simp at total h
        omega
      simp [take, ih _ shorter, split_append]

/-- The segments of a text put together are the text. -/
theorem flatMap_text_ofText (cs : List Char) : (ofText cs).flatMap text = cs :=
  flatMap_text_take cs.length cs (Nat.le_refl _)

end Segment

end StructuredSsa
