import StructuredSsa.Options.JsonText

/-!
# Options

What a compilation can be told, and its JSON form: an object that may leave
fields out and have others, or an array of the fields in their order that may
stop early.
-/

namespace StructuredSsa

/-- Options of a compilation. -/
structure Options where
  /-- Zero for no folding, one for one pass, more for passes until one changes
  nothing. -/
  optLevel : Nat
  /-- The most passes to make. -/
  maxFoldPasses : Nat
  /-- Whether to verify the result. -/
  verify : Bool
  /-- Whether to accept programs with errors that were recovered from. -/
  allowRecoveredErrors : Bool
deriving Repr, DecidableEq

namespace Options

/-- One pass, verified, and no errors. -/
def default : Options := ⟨1, 16, true, false⟩

/-- The fields of options, in their order. -/
inductive Field where
  | optLevel
  | maxFoldPasses
  | verify
  | allowRecoveredErrors
deriving Repr, DecidableEq

namespace Field

def all : List Field := [optLevel, maxFoldPasses, verify, allowRecoveredErrors]

/-- The key of a field. -/
def key : Field → String
  | optLevel => "opt_level"
  | maxFoldPasses => "max_fold_passes"
  | verify => "verify"
  | allowRecoveredErrors => "allow_recovered_errors"

def ofKey? (s : String) : Option Field := all.find? fun f => f.key == s

/-- Read the value of a field into some options. -/
def read (f : Field) (o : Options) (cs : List Char) : Option (Options × List Char) :=
  match f with
  | optLevel => do
      let (n, rest) ← Json.natural 255 cs
      return ({ o with optLevel := n }, rest)
  | maxFoldPasses => do
      let (n, rest) ← Json.natural 0xFFFFFFFFFFFFFFFF cs
      return ({ o with maxFoldPasses := n }, rest)
  | verify => do
      let (b, rest) ← Json.boolean cs
      return ({ o with verify := b }, rest)
  | allowRecoveredErrors => do
      let (b, rest) ← Json.boolean cs
      return ({ o with allowRecoveredErrors := b }, rest)

end Field

/-- Read the value of a member. A field can be given once; members that are no
fields are passed over. -/
def readMember (key : String) (given : List Field) (o : Options) (cs : List Char) :
    Option (List Field × Options × List Char) :=
  match Field.ofKey? key with
  | some f =>
      if f ∈ given then none
      else do
        let (o, rest) ← f.read o cs
        return (f :: given, o, rest)
  | none => do
      let rest ← Json.skipValue (cs.length + 1) cs
      return (given, o, rest)

/-- Read members and the closing brace. The first argument bounds their
number. -/
def readMembers : Nat → List Field → Options → List Char → Option (Options × List Char)
  | 0, _, _, _ => none
  | n + 1, given, o, cs => do
      let (key, rest) ← Json.string cs
      match Json.skipBlanks rest with
      | ':' :: rest =>
          let (given, o, rest) ← readMember key given o rest
          match Json.skipBlanks rest with
          | ',' :: rest => readMembers n given o rest
          | '\x7d' :: rest => some (o, rest)
          | _ => none
      | _ => none

/-- Read elements and the closing bracket, one for each field at most. -/
def readElements : List Field → Options → List Char → Option (Options × List Char)
  | [], _, _ => none
  | f :: fields, o, cs => do
      let (o, rest) ← f.read o cs
      match Json.skipBlanks rest with
      | ',' :: rest => readElements fields o rest
      | ']' :: rest => some (o, rest)
      | _ => none

/-- Read options and return what is behind them. -/
def readValue (cs : List Char) : Option (Options × List Char) :=
  match Json.skipBlanks cs with
  | '\x7b' :: rest =>
      match Json.skipBlanks rest with
      | '\x7d' :: rest => some (default, rest)
      | rest => readMembers (rest.length + 1) [] default rest
  | '[' :: rest =>
      match Json.skipBlanks rest with
      | ']' :: rest => some (default, rest)
      | rest => readElements Field.all default rest
  | _ => none

/-- The options that a JSON text gives, with nothing but blanks around them. -/
def ofJson? (json : String) : Option Options := do
  let (o, rest) ← readValue json.toList
  if (Json.skipBlanks rest).isEmpty then some o else none

end Options

end StructuredSsa
