import StructuredSsa.Token.Segment
import StructuredSsa.Error

/-!
# Scanning

A scanner walks over the segments of a text and keeps the tokens, each at the
place of its first character. Unscannable characters and a cut-off comment are
reported and passed over. Only a literal that does not fit in 64 bits stops a
scan; the scanner then stands behind it, keeps the tokens read so far, and a
later scan goes on from there.
-/

namespace StructuredSsa

/-- The number a run of digits denotes. -/
def digitsValue (digits : List Char) : Nat :=
  digits.foldl (fun n c => 10 * n + (c.toNat - '0'.toNat)) 0

/-- The value of a literal, if 64 bits with a sign can hold it. -/
def literal? (digits : List Char) : Option Int64 :=
  let n := digitsValue digits
  if n < 0x8000000000000000 then some (Int64.ofNat n) else none

namespace Segment

/-- The kind of token a segment is, with a failure for a literal that is too
large; blanks, comments and unscannable characters are none. -/
def kind? : Segment → Except (List Char) (Option TokenKind)
  | number digits =>
      match literal? digits with
      | some n => .ok (some (.number n))
      | none => .error digits
  | word letters => .ok (some (.ofWord (String.ofList letters)))
  | punct p => .ok (some (.punct p))
  | _ => .ok none

/-- What a segment is reported for, if anything. -/
def problem? : Segment → Option Problem
  | unscannable c => some (.unscannable c)
  | blockComment _ false => some .unterminatedComment
  | _ => none

end Segment

/-- A scanner: the segments still to read, the place where they start, the
tokens not handed out yet, and the diagnostics so far. -/
structure Scanner where
  rest : List Segment
  pos : Pos
  pending : List Token
  diagnostics : List Diagnostic
deriving Repr, DecidableEq

/-- What one pass over segments found, up to their end or to the first literal
that is too large. -/
structure Lexed where
  tokens : List Token
  diagnostics : List Diagnostic
  rest : List Segment
  pos : Pos
  failure : Option Error

/-- The error for a literal over 64 bits. -/
def oversized (pos : Pos) (digits : List Char) : Error :=
  .malformed pos ("integer literal " ++ String.ofList digits ++ " does not fit in 64 bits")

/-- Read segments that start at `pos`. -/
def lex : List Segment → Pos → Lexed
  | [], pos => ⟨[], [], [], pos, none⟩
  | s :: rest, pos =>
      let after := pos.past s.text
      match s.kind? with
      | .error digits => ⟨[], [], rest, after, some (oversized pos digits)⟩
      | .ok kind? =>
          let found := lex rest after
          { found with
            tokens := match kind? with
              | some kind => ⟨kind, String.ofList s.text, pos⟩ :: found.tokens
              | none => found.tokens
            diagnostics := match s.problem? with
              | some problem => .of pos problem :: found.diagnostics
              | none => found.diagnostics }

namespace Scanner

/-- A scanner at the start of a text. -/
def ofText (source : String) : Scanner := ⟨Segment.ofText source.toList, .start, [], []⟩

/-- Read on. The result is every token not handed out yet, closed by an end
marker, or the error that stopped the scan. -/
def scan (s : Scanner) : Except Error (List Token) × Scanner :=
  let found := lex s.rest s.pos
  let tokens := s.pending ++ found.tokens
  let diagnostics := s.diagnostics ++ found.diagnostics
  match found.failure with
  | some e => (.error e, ⟨found.rest, found.pos, tokens, diagnostics⟩)
  | none =>
      (.ok (tokens ++ [⟨.eof, "", found.pos⟩]), ⟨found.rest, found.pos, [], diagnostics⟩)

/-- Forget the diagnostics reported so far. -/
def clearDiagnostics (s : Scanner) : Scanner := { s with diagnostics := [] }

end Scanner

end StructuredSsa
