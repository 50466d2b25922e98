import StructuredSsa.Syntax.Tree

/-!
# Reading syntax trees

Recursive descent over the tokens. A required token that is missing is marked
and nothing is consumed; a statement that cannot start is passed over up to a
semicolon or the end of its sequence. Every token sequence has a tree.

The functions take the number of nested calls they may make. Each token pays
for four, which is more than any chain of calls between two tokens takes.
-/

namespace StructuredSsa

namespace TokenKind

/-- Whether a sequence of statements ends before this token. -/
def endsSequence : TokenKind → Bool
  | keyword .fi | keyword .od | keyword .else_ | punct .rbrace | punct .period | eof => true
  | _ => false

/-- Whether a statement starts with this token. -/
def startsStatement : TokenKind → Bool
  | keyword .let_ | keyword .call | keyword .if_ | keyword .while_ | keyword .ret => true
  | _ => false

/-- Whether an expression starts with this token. -/
def startsExpr : TokenKind → Bool
  | ident _ | number _ | punct .lparen | keyword .call => true
  | _ => false

/-- Whether a declaration of variables starts with this token. -/
def startsVarDecl : TokenKind → Bool
  | keyword .var | keyword .array => true
  | _ => false

/-- Whether a declaration of a method starts with this token. -/
def startsMethodDecl : TokenKind → Bool
  | keyword .function | keyword .procedure => true
  | _ => false

/-- The operators between terms. -/
def sumOp? : TokenKind → Option ArithOp
  | punct .plus => some .add
  | punct .minus => some .sub
  | _ => none

/-- The operators between factors. -/
def productOp? : TokenKind → Option ArithOp
  | punct .star => some .mul
  | punct .slash => some .div
  | _ => none

/-- The operators of a relation. -/
def relOp? : TokenKind → Option RelOp
  | punct .eq => some .eq
  | punct .ne => some .ne
  | punct .lt => some .lt
  | punct .le => some .le
  | punct .gt => some .gt
  | punct .ge => some .ge
  | _ => none

end TokenKind

/-- Tokens to read: those before the end marker, and where it stands. -/
structure TokenStream where
  tokens : List Token
  endPos : Pos
deriving Repr, DecidableEq

namespace TokenStream

/-- Nothing behind the first end marker is read. Without one, the input ends
where its last token stands. -/
def ofTokens (ts : List Token) : TokenStream :=
  { tokens := ts.takeWhile fun t => t.kind != .eof
    endPos :=
      match ts.find? fun t => t.kind == .eof with
      | some t => t.pos
      | none =>
          match ts.getLast? with
          | some t => t.pos
          | none => .start }

/-- The next token; at the end, the end marker. -/
def peek (s : TokenStream) : Token := s.tokens.headD ⟨.eof, "", s.endPos⟩

/-- The tokens behind the next one. -/
def advance (s : TokenStream) : TokenStream := { s with tokens := s.tokens.tail }

end TokenStream

/-- Reading from a token stream. -/
abbrev ReadM := StateM TokenStream

namespace Syntax

/-! ## Tokens -/

def peek : ReadM Token := return (← get).peek

def advance : ReadM Unit := modify TokenStream.advance

/-- Take the next token if it is of the given kind. -/
def accept (kind : TokenKind) : ReadM Bool := do
  if (← peek).kind = kind then
    advance
    return true
  else
    return false

/-- Take a token that the grammar requires, or mark that it is missing. -/
def require (kind : TokenKind) : ReadM Mark := do
  let t ← peek
  if ← accept kind then
    return .present
  else
    return .missing t

/-- Take a required name. -/
def name : ReadM Name := do
  let t ← peek
  match t.kind with
  | .ident text =>
      advance
      return .ident text t.pos
  | _ => return .missing t

/-- Pass over tokens up to a semicolon or the end of the sequence. -/
def passOver : ReadM Unit :=
  modify fun s => { s with
    tokens := s.tokens.dropWhile fun t => !t.kind.endsSequence && t.kind != .punct .semicolon }

/-! ## Expressions -/

mutual

/-- A sum of terms. -/
def expr : Nat → ReadM Expr
  | 0 => return .missing (← peek)
  | n + 1 => do
      let lhs ← term n
      sumTail n lhs

/-- The terms behind `lhs` in a sum. -/
def sumTail : Nat → Expr → ReadM Expr
  | 0, lhs => return lhs
  | n + 1, lhs => do
      let t ← peek
      match t.kind.sumOp? with
      | none => return lhs
      | some op =>
          advance
          let rhs ← term n
          sumTail n (.arith op lhs rhs t.pos.line)

/-- A product of factors. -/
def term : Nat → ReadM Expr
  | 0 => return .missing (← peek)
  | n + 1 => do
      let lhs ← factor n
      productTail n lhs

/-- The factors behind `lhs` in a product. -/
def productTail : Nat → Expr → ReadM Expr
  | 0, lhs => return lhs
  | n + 1, lhs => do
      let t ← peek
      match t.kind.productOp? with
      | none => return lhs
      | some op =>
          advance
          let rhs ← factor n
          productTail n (.arith op lhs rhs t.pos.line)

/-- A designator, a literal, an expression in parentheses or a call. -/
def factor : Nat → ReadM Expr
  | 0 => return .missing (← peek)
  | n + 1 => do
      let t ← peek
      match t.kind with
      | .ident _ =>
          let x ← name
          return .designator x (← indices n)
      | .number k =>
          advance
          return .number k t.pos.line
      | kind =>
          if kind = .punct .lparen then
            advance
            let inner ← expr n
            return .group inner (← require (.punct .rparen))
          else if kind = .keyword .call then
            let (callee, args, close) ← call n
            return .call callee args close
          else
            return .missing t

/-- The indices of a designator. -/
def indices : Nat → ReadM Indices
  | 0 => return .nil
  | n + 1 => do
      if ← accept (.punct .lbracket) then
        let index ← expr n
        let close ← require (.punct .rbracket)
        return .cons index close (← indices n)
      else
        return .nil

/-- A call: the callee, and the arguments if there is a list of them. -/
def call : Nat → ReadM (Name × Arguments × Mark)
  | 0 => return (.missing (← peek), .nil, .present)
  | n + 1 => do
      advance
      let callee ← name
      if ← accept (.punct .lparen) then
        let args ← if (← peek).kind = .punct .rparen then pure .nil else arguments n
        return (callee, args, ← require (.punct .rparen))
      else
        return (callee, .nil, .present)

/-- One argument or more, with commas between them. -/
def arguments : Nat → ReadM Arguments
  | 0 => return .cons (.missing (← peek)) .nil
  | n + 1 => do
      let argument ← expr n
      if ← accept (.punct .comma) then
        return .cons argument (← arguments n)
      else
        return .cons argument .nil

end

/-- A comparison. -/
def relation (n : Nat) : ReadM Relation := do
  let lhs ← expr n
  let t ← peek
  match t.kind.relOp? with
  | none => return .noOperator lhs t
  | some op =>
      advance
      return .compare lhs op t.pos.line (← expr n)

/-! ## Statements -/

mutual

/-- One statement. -/
def stmt : Nat → ReadM Stmt
  | 0 => return .unknown (← peek)
  | n + 1 => do
      let t ← peek
      match t.kind with
      | .keyword .let_ =>
          advance
          let x ← name
          let is ← indices n
          let arrow ← require (.punct .arrow)
          return .assign x is arrow (← expr n)
      | .keyword .call =>
          let (callee, args, close) ← call n
          return .call callee args close
      | .keyword .if_ =>
          advance
          let condition ← relation n
          let thenMark ← require (.keyword .then_)
          let yes ← sequence n true
          let thenLine := (← peek).pos.line
          let no ← if ← accept (.keyword .else_) then sequence n true else pure .nil
          let endLine := (← peek).pos.line
          let fi ← require (.keyword .fi)
          return .ifThen t.pos.line condition thenMark yes thenLine no endLine fi
      | .keyword .while_ =>
          advance
          let condition ← relation n
          let doMark ← require (.keyword .do_)
          let body ← sequence n true
          let endLine := (← peek).pos.line
          let od ← require (.keyword .od)
          return .whileDo t.pos.line condition doMark body endLine od
      | .keyword .ret =>
          advance
          if (← peek).kind.startsExpr then
            return .ret t.pos (some (← expr n))
          else
            return .ret t.pos none
      | _ =>
          passOver
          return .unknown t

/-- Statements up to the end of the sequence, or to a token that can neither
separate nor start statements. -/
def sequence : Nat → Bool → ReadM Sequence
  | 0, _ => return .nil
  | n + 1, separated => do
      let t ← peek
      if t.kind.endsSequence then
        return .nil
      else if t.kind = .punct .semicolon then
        advance
        sequence n true
      else
        let s ← stmt n
        let following := (← peek).kind
        if following = .punct .semicolon || following.startsStatement then
          return .cons separated t s (← sequence n false)
        else
          return .cons separated t s .nil

end

/-! ## Declarations -/

/-- One size or more of an array. -/
def dimensions : Nat → ReadM (List Dimension)
  | 0 => return [.missing .present (← peek)]
  | n + 1 => do
      let opening ← require (.punct .lbracket)
      let t ← peek
      match t.kind with
      | .number k =>
          advance
          let close ← require (.punct .rbracket)
          let more ← if (← peek).kind = .punct .lbracket then dimensions n else pure []
          return .sized opening k t.pos close :: more
      | _ => return [.missing opening t]

/-- One name or more, with commas between them. -/
def names : Nat → ReadM (List Name)
  | 0 => return [.missing (← peek)]
  | n + 1 => do
      match ← name with
      | .missing t => return [.missing t]
      | x =>
          if ← accept (.punct .comma) then
            return x :: (← names n)
          else
            return [x]

/-- A declaration of variables. -/
def varDecl (n : Nat) : ReadM VarDecl := do
  let type ←
    if ← accept (.keyword .var) then pure .scalar
    else do
      advance
      pure (.array (← dimensions n))
  let xs ← names n
  return ⟨type, xs, ← require (.punct .semicolon)⟩

/-- Declarations of variables, as many as there are. -/
def varDecls : Nat → ReadM (List VarDecl)
  | 0 => return []
  | n + 1 => do
      if (← peek).kind.startsVarDecl then
        let d ← varDecl n
        return d :: (← varDecls n)
      else
        return []

/-- A body in braces. -/
def body (n : Nat) : ReadM Body := do
  let openLine := (← peek).pos.line
  let opening ← require (.punct .lbrace)
  let statements ← sequence n true
  let closeLine := (← peek).pos.line
  let closing ← require (.punct .rbrace)
  return ⟨openLine, opening, statements, closeLine, closing⟩

/-- The parameters of a method and the parenthesis behind them. -/
def parameters (n : Nat) : ReadM (List Name × Mark) := do
  if ← accept (.punct .lparen) then
    let xs ← if (← peek).kind = .punct .rparen then pure [] else names n
    return (xs, ← require (.punct .rparen))
  else
    return ([], .present)

/-- A declaration of a method. -/
def methodDecl (n : Nat) : ReadM MethodDecl := do
  let isFunction := (← peek).kind = .keyword .function
  advance
  let x ← name
  let (xs, close) ← parameters n
  let semicolon ← require (.punct .semicolon)
  let vars ← varDecls n
  let b ← body n
  return ⟨isFunction, x, xs, close, semicolon, vars, b, ← require (.punct .semicolon)⟩

/-- Declarations of methods, as many as there are. -/
def methodDecls : Nat → ReadM (List MethodDecl)
  | 0 => return []
  | n + 1 => do
      if (← peek).kind.startsMethodDecl then
        let d ← methodDecl n
        return d :: (← methodDecls n)
      else
        return []

/-- A whole computation. -/
def computation (n : Nat) : ReadM Computation := do
  let main ← require (.keyword .main)
  let vars ← varDecls n
  let methods ← methodDecls n
  let b ← body n
  let period ← require (.punct .period)
  let t ← peek
  return ⟨main, vars, methods, b, period, if t.kind = .eof then none else some t⟩

/-- The tree of a token sequence. -/
def read (ts : List Token) : Computation :=
  let s := TokenStream.ofTokens ts
  (computation (4 * s.tokens.length + 8) s).1

end Syntax

end StructuredSsa
