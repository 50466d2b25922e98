import StructuredSsa.Pos

/-!
# Tokens

The words of the language: fifteen reserved words, twenty operators and
delimiters, integer literals and identifiers. Each kind has one spelling
(`TokenKind.text`), which the scanner reads and messages quote.
-/

namespace StructuredSsa

/-- A reserved word. -/
inductive Keyword where
  | main
  | function
  | procedure
  | array
  | var
  | ret
  | while_
  | if_
  | call
  | let_
  | else_
  | fi
  | do_
  | od
  | then_
deriving Repr, DecidableEq

namespace Keyword

/-- The spelling of a reserved word. -/
def text : Keyword → String
  | main => "main"
  | function => "function"
  | procedure => "procedure"
  | array => "array"
  | var => "var"
  | ret => "return"
  | while_ => "while"
  | if_ => "if"
  | call => "call"
  | let_ => "let"
  | else_ => "else"
  | fi => "fi"
  | do_ => "do"
  | od => "od"
  | then_ => "then"

/-- The reserved word spelled `s`, if there is one. Case matters. -/
def ofText? (s : String) : Option Keyword :=
  match s with
  | "main" => some main
  | "function" => some function
  | "procedure" => some procedure
  | "array" => some array
  | "var" => some var
  | "return" => some ret
  | "while" => some while_
  | "if" => some if_
  | "call" => some call
  | "let" => some let_
  | "else" => some else_
  | "fi" => some fi
  | "do" => some do_
  | "od" => some od
  | "then" => some then_
  | _ => none

/-- Every reserved word is read back from its spelling. -/
@[simp] theorem ofText?_text (k : Keyword) : ofText? k.text = some k := by
  cases k <;> rfl

/-- The two tables agree: what is read as a reserved word is its spelling. -/
theorem ofText?_eq_some_iff {s : String} {k : Keyword} : ofText? s = some k ↔ k.text = s := by
  refine ⟨fun h => ?_, fun h => h ▸ ofText?_text k⟩
  unfold ofText? at h
  split at h <;> cases h <;> rfl

end Keyword

/-- An operator or delimiter. -/
inductive Punct where
  | plus
  | minus
  | star
  | slash
  | eq
  | ne
  | lt
  | le
  | gt
  | ge
  | arrow
  | lparen
  | rparen
  | lbracket
  | rbracket
  | lbrace
  | rbrace
  | comma
  | semicolon
  | period
deriving Repr, DecidableEq

namespace Punct

/-- The spelling of an operator or delimiter. -/
def text : Punct → String
  | plus => "+"
  | minus => "-"
  | star => "*"
  | slash => "/"
  | eq => "=="
  | ne => "!="
  | lt => "<"
  | le => "<="
  | gt => ">"
  | ge => ">="
  | arrow => "<-"
  | lparen => "("
  | rparen => ")"
  | lbracket => "["
  | rbracket => "]"
  | lbrace => "\x7b"
  | rbrace => "\x7d"
  | comma => ","
  | semicolon => ";"
  | period => "."

/-- Whether this compares two values. -/
def isRelational : Punct → Bool
  | eq | ne | lt | le | gt | ge => true
  | _ => false

end Punct

/-- What a token is, apart from where it stands. -/
inductive TokenKind where
  | number (n : Int64)
  | ident (name : String)
  | keyword (k : Keyword)
  | punct (p : Punct)
  | eof
deriving Repr, DecidableEq

namespace TokenKind

/-- The spelling of a token; the end of the input is named in words. -/
def text : TokenKind → String
  | number n => toString n.toInt
  | ident name => name
  | keyword k => k.text
  | punct p => p.text
  | eof => "end of file"

/-- Whether this is a reserved word. An identifier never is, however spelled. -/
def isKeyword : TokenKind → Bool
  | keyword _ => true
  | _ => false

/-- Whether this is one of the six relational operators. -/
def isRelational : TokenKind → Bool
  | punct p => p.isRelational
  | _ => false

/-- The kind of a word: reserved if the table has it, an identifier otherwise. -/
def ofWord (s : String) : TokenKind :=
  match Keyword.ofText? s with
  | some k => keyword k
  | none => ident s

end TokenKind

/-- A token with the text it was read from and the place of its first
character. -/
structure Token where
  kind : TokenKind
  lexeme : String
  pos : Pos
deriving Repr, DecidableEq

end StructuredSsa
