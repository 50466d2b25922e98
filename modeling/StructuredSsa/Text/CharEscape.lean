/-!
# Escaped characters

How a message shows a character that may not be printable: the common control
characters, quotes and the backslash behind a backslash, the rest of printable
ASCII as itself, and everything else by its code point.
-/

namespace StructuredSsa.Text

/-- A code point in lower-case hexadecimal, without padding. -/
def hex (n : Nat) : String := String.ofList (Nat.toDigits 16 n)

/-- One character as a message shows it. -/
def escapeChar (c : Char) : String :=
  if c = '\t' then "\\t"
  else if c = '\r' then "\\r"
  else if c = '\n' then "\\n"
  else if c.toNat = 34 ∨ c.toNat = 39 ∨ c.toNat = 92 then "\\" ++ c.toString
  else if 32 ≤ c.toNat ∧ c.toNat ≤ 126 then c.toString
  else "\\u\x7b" ++ hex c.toNat ++ "\x7d"

end StructuredSsa.Text
