/-!
# JSON text

Just enough of JSON to read options: blanks, strings, naturals, booleans, and
passing over a value of any kind. Everything works on the characters that are
left and returns those behind what it read; `none` is a refusal.
-/

namespace StructuredSsa.Json

/-- The characters that may stand between tokens. -/
def isBlank (c : Char) : Bool := c == ' ' || c == '\n' || c == '\t' || c == '\r'

def skipBlanks (cs : List Char) : List Char := cs.dropWhile isBlank

/-- Read a fixed piece of text. -/
def literal : List Char → List Char → Option (List Char)
  | [], cs => some cs
  | _ :: _, [] => none
  | l :: ls, c :: cs => if l = c then literal ls cs else none

/-! ## Strings -/

/-- A piece of a string: a character, or a UTF-16 unit given by an escape. -/
inductive Piece where
  | char (c : Char)
  | unit (n : Nat)
deriving Repr, DecidableEq

/-- The value of a hexadecimal digit. -/
def hexDigit? (c : Char) : Option Nat :=
  if c.isDigit then some (c.toNat - '0'.toNat)
  else if 'a' ≤ c ∧ c ≤ 'f' then some (c.toNat - 'a'.toNat + 10)
  else if 'A' ≤ c ∧ c ≤ 'F' then some (c.toNat - 'A'.toNat + 10)
  else none

/-- The unit that four hexadecimal digits denote. -/
def unit? (a b c d : Char) : Option Nat := do
  return ((← hexDigit? a) * 16 + (← hexDigit? b)) * 256 + (← hexDigit? c) * 16 + (← hexDigit? d)

/-- The character a short escape stands for. -/
def escape? (c : Char) : Option Char :=
  match c with
  | '\"' => some c
  | '\\' => some c
  | '/' => some c
  | 'b' => some (Char.ofNat 8)
  | 'f' => some (Char.ofNat 12)
  | 'n' => some '\n'
  | 'r' => some '\r'
  | 't' => some '\t'
  | _ => none

/-- The content of a string, from behind its opening quote. Control characters
must be escaped. -/
def pieces : List Char → Option (List Piece × List Char)
  | [] => none
  | '\"' :: rest => some ([], rest)
  | '\\' :: 'u' :: a :: b :: c :: d :: rest => do
      let n ← unit? a b c d
      let (ps, rest) ← pieces rest
      return (.unit n :: ps, rest)
  | '\\' :: e :: rest => do
      let c ← escape? e
      let (ps, rest) ← pieces rest
      return (.char c :: ps, rest)
  | c :: rest => do
      if c.toNat < 32 then none
      let (ps, rest) ← pieces rest
      return (.char c :: ps, rest)

def isHigh (n : Nat) : Bool := 0xD800 ≤ n && n ≤ 0xDBFF

def isLow (n : Nat) : Bool := 0xDC00 ≤ n && n ≤ 0xDFFF

/-- The text of a string. Units that are one half of a pair must stand in
pairs. -/
def decode : List Piece → Option (List Char)
  | [] => some []
  | .char c :: rest => return c :: (← decode rest)
  | .unit n :: .unit m :: rest =>
      if isHigh n then
        if isLow m then do
          return Char.ofNat (0x10000 + (n - 0xD800) * 1024 + (m - 0xDC00)) :: (← decode rest)
        else none
      else if isLow n then none
      else do return Char.ofNat n :: (← decode (.unit m :: rest))
  | .unit n :: rest =>
      if isHigh n || isLow n then none else do return Char.ofNat n :: (← decode rest)

/-- A string as text. -/
def string (cs : List Char) : Option (String × List Char) := do
  match skipBlanks cs with
  | '\"' :: rest => do
      let (ps, rest) ← pieces rest
      return (String.ofList (← decode ps), rest)
  | _ => none

/-! ## Numbers and booleans -/

/-- One digit or more. -/
def digits (cs : List Char) : Option (List Char × List Char) :=
  match cs.takeWhile Char.isDigit with
  | [] => none
  | ds => some (ds, cs.dropWhile Char.isDigit)

/-- The digits before a fraction: zero, or no zero in front. -/
def whole (cs : List Char) : Option (List Char × List Char) :=
  match cs with
  | '0' :: rest => if (rest.head?.map Char.isDigit).getD false then none else some (['0'], rest)
  | _ => digits cs

/-- Pass over a fraction, if there is one. -/
def skipFraction : List Char → Option (List Char)
  | '.' :: rest => (digits rest).map (·.2)
  | cs => some cs

/-- Pass over an exponent, if there is one. -/
def skipExponent : List Char → Option (List Char)
  | e :: rest =>
      if e = 'e' ∨ e = 'E' then
        match rest with
        | s :: more => if s = '+' ∨ s = '-' then (digits more).map (·.2) else (digits rest).map (·.2)
        | [] => none
      else some (e :: rest)
  | [] => some []

/-- Pass over a number. -/
def skipNumber (cs : List Char) : Option (List Char) := do
  let cs := match cs with
    | '-' :: rest => rest
    | _ => cs
  let (_, cs) ← whole cs
  let cs ← skipFraction cs
  skipExponent cs

/-- A natural number up to `limit`, written without sign, fraction or
exponent. -/
def natural (limit : Nat) (cs : List Char) : Option (Nat × List Char) := do
  let (ds, rest) ← whole (skipBlanks cs)
  let n := ds.foldl (fun n c => 10 * n + (c.toNat - '0'.toNat)) 0
  if n ≤ limit then some (n, rest) else none

def boolean (cs : List Char) : Option (Bool × List Char) :=
  let cs := skipBlanks cs
  match literal "true".toList cs, literal "false".toList cs with
  | some rest, _ => some (true, rest)
  | none, some rest => some (false, rest)
  | none, none => none

/-! ## Values of any kind -/

mutual

/-- Pass over a value. The first argument bounds how deep calls may nest; the
number of characters is enough. Escapes in strings need not form text. -/
def skipValue : Nat → List Char → Option (List Char)
  | 0, _ => none
  | n + 1, cs =>
      match skipBlanks cs with
      | [] => none
      | c :: rest =>
          if c = '\"' then (pieces rest).map (·.2)
          else if c = '[' then
            match skipBlanks rest with
            | ']' :: rest => some rest
            | rest => skipElements n rest
          else if c = '\x7b' then
            match skipBlanks rest with
            | '\x7d' :: rest => some rest
            | rest => skipMembers n rest
          else if c = 'n' then literal "ull".toList rest
          else if c = 't' then literal "rue".toList rest
          else if c = 'f' then literal "alse".toList rest
          else skipNumber (c :: rest)

/-- Pass over the elements of an array and its closing bracket. -/
def skipElements : Nat → List Char → Option (List Char)
  | 0, _ => none
  | n + 1, cs => do
      match skipBlanks (← skipValue n cs) with
      | ',' :: rest => skipElements n rest
      | ']' :: rest => some rest
      | _ => none

/-- Pass over the members of an object and its closing brace. -/
def skipMembers : Nat → List Char → Option (List Char)
  | 0, _ => none
  | n + 1, cs => do
      match skipBlanks cs with
      | '\"' :: rest =>
          let (_, rest) ← pieces rest
          match skipBlanks rest with
          | ':' :: rest =>
              match skipBlanks (← skipValue n rest) with
              | ',' :: rest => skipMembers n rest
              | '\x7d' :: rest => some rest
              | _ => none
          | _ => none
      | _ => none

end

end StructuredSsa.Json
