import StructuredSsa.Token
import StructuredSsa.Text.CharEscape

/-!
# Diagnostics

Problems that do not stop the construction of a program. A `Problem` is the
cause, with what the message needs; its wording is in `Problem.message` alone,
and whether it is an error or a warning in `Problem.severity`.
-/

namespace StructuredSsa

/-- How serious a problem is. An `error` was recovered from, but the program
is still to be rejected. -/
inductive Severity where
  | fatal
  | error
  | warning
deriving Repr, DecidableEq

/-- The word that names a severity in messages. -/
def Severity.text : Severity → String
  | fatal => "fatal"
  | error => "error"
  | warning => "warning"

/-- What is wrong at some place of the source. -/
inductive Problem where
  /-- A character that starts no token. -/
  | unscannable (c : Char)
  /-- A block comment that the end of the input cut off. -/
  | unterminatedComment
  /-- A fixed token of the grammar is missing; `found` stands in its place. -/
  | expected (want found : TokenKind)
  /-- No statement starts with `found`. -/
  | expectedStatement (found : TokenKind)
  /-- Two statements without a separator; the second starts with `found`. -/
  | expectedSemicolon (found : TokenKind)
  | dimensionNotPositive (size : Int64)
  | alreadyDeclared (name : String)
  | duplicateParameter (name : String)
  | builtinName (name : String)
  | methodDeclared (name : String)
  | unreachableStatement
  | notAnArray (name : String)
  | indexCount (name : String) (declared given : Nat)
  | argumentCount (callee : String) (declared given : Nat)
  | undeclaredMethod (callee : String)
  | returnValueIgnored
  | trailingInput
  /-- A problem reported from outside, in its own words. -/
  | note (text : String)
deriving Repr, DecidableEq

namespace Problem

/-- The severity of a problem: a warning where the program keeps a definite
meaning, an error otherwise. -/
def severity : Problem → Severity
  | alreadyDeclared _ | duplicateParameter _ | unreachableStatement | undeclaredMethod _
  | returnValueIgnored | trailingInput => .warning
  | _ => .error

/-- The wording of a problem. -/
def message : Problem → String
  | unscannable c => "unexpected character '" ++ Text.escapeChar c ++ "'"
  | unterminatedComment => "unterminated block comment"
  | expected want found => "expected `" ++ want.text ++ "`, found `" ++ found.text ++ "`"
  | expectedStatement found => "expected a statement, found `" ++ found.text ++ "`"
  | expectedSemicolon found => "expected `;` before `" ++ found.text ++ "`"
  | dimensionNotPositive size =>
      "array dimension must be positive, found " ++ toString size.toInt
  | alreadyDeclared name => "`" ++ name ++ "` is already declared"
  | duplicateParameter name => "duplicate parameter `" ++ name ++ "`"
  | builtinName name => "`" ++ name ++ "` is a built-in"
  | methodDeclared name => "method `" ++ name ++ "` is already declared"
  | unreachableStatement => "unreachable statement after `return`"
  | notAnArray name => "`" ++ name ++ "` is not an array"
  | indexCount name declared given =>
      "`" ++ name ++ "` has " ++ toString declared ++ " dimension(s), " ++ toString given
        ++ " index(es) given"
  | argumentCount callee declared given =>
      "`" ++ callee ++ "` expects " ++ toString declared ++ " argument(s), " ++ toString given
        ++ " given"
  | undeclaredMethod callee => "call to undeclared method `" ++ callee ++ "`"
  | returnValueIgnored => "return value ignored outside a function"
  | trailingInput => "ignoring input after the final `.`"
  | note text => text

end Problem

/-- A problem with its place and severity. -/
structure Diagnostic where
  severity : Severity
  pos : Pos
  problem : Problem
deriving Repr, DecidableEq

namespace Diagnostic

/-- A problem at its usual severity. -/
def of (pos : Pos) (problem : Problem) : Diagnostic := ⟨problem.severity, pos, problem⟩

/-- Whether the program is to be rejected for this. -/
def isError (d : Diagnostic) : Bool := d.severity != .warning

/-- The line printed for a diagnostic. -/
def text (d : Diagnostic) : String :=
  d.severity.text ++ " at line " ++ toString d.pos.line ++ ", column " ++ toString d.pos.column
    ++ ": " ++ d.problem.message

/-- Put a diagnostic before the first one that stands no earlier. -/
def insert (d : Diagnostic) : List Diagnostic → List Diagnostic
  | [] => [d]
  | e :: rest => if d.pos.le e.pos then d :: e :: rest else e :: insert d rest

/-- Diagnostics by position; those at one place keep their order. -/
def sort (ds : List Diagnostic) : List Diagnostic := ds.foldr insert []

end Diagnostic

end StructuredSsa
