import StructuredSsa.Diagnostic

/-!
# Errors

What ends the construction of a program. An error may carry the diagnostics
gathered before it (`aborted`); `root` looks through that wrapping.
-/

namespace StructuredSsa

/-- The reasons for giving up. -/
inductive Error where
  /-- A token that cannot be read, such as a literal over 64 bits. -/
  | malformed (pos : Pos) (message : String)
  /-- A token that nothing can start with at this place. -/
  | unexpectedToken (expected got : String) (line : Nat)
  /-- A name that no visible scope declares. -/
  | undefinedVariable (name : String) (line : Nat)
  /-- A designator that denotes no value. -/
  | invalidDesignator (name : String) (line : Nat) (reason : String)
  /-- A call used as a value although it has none. -/
  | voidValue (callee : String) (line : Nat)
  /-- A function that can end without a return value. -/
  | missingReturnValue (method : String)
  /-- Blocks of a method that share no dominator. -/
  | noCommonDominator (method reason : String)
  /-- A constant divided by the constant zero. -/
  | divisionByZero (line : Nat)
  /-- A program rejected for the errors that were recovered from. -/
  | invalidProgram (errorCount : Nat) (diagnostics : List Diagnostic)
  /-- Another error, after some diagnostics. -/
  | aborted (cause : Error) (diagnostics : List Diagnostic)
  /-- Options that cannot be read. -/
  | invalidConfig (reason : String)
  /-- A broken expectation of the construction itself. -/
  | internal (reason : String)
deriving Repr

namespace Error

/-- The wording of an error. -/
def message : Error → String
  | malformed pos message =>
      "Syntax error at line " ++ toString pos.line ++ ", column " ++ toString pos.column ++ ": "
        ++ message
  | unexpectedToken expected got line =>
      "Unexpected token at line " ++ toString line ++ ": expected " ++ expected ++ ", got " ++ got
  | undefinedVariable name line =>
      "Undefined variable `" ++ name ++ "` at line " ++ toString line
  | invalidDesignator name line reason =>
      "Invalid use of `" ++ name ++ "` at line " ++ toString line ++ ": " ++ reason
  | voidValue callee line =>
      "Call to `" ++ callee ++ "` at line " ++ toString line ++ " produces no value"
  | missingReturnValue method =>
      "Function `" ++ method ++ "` can reach its exit without a return value"
  | noCommonDominator method reason => "No common dominator in `" ++ method ++ "`: " ++ reason
  | divisionByZero line => "Division by zero at line " ++ toString line
  | invalidProgram errorCount _ => "Program rejected with " ++ toString errorCount ++ " error(s)"
  | aborted cause _ => cause.message
  | invalidConfig reason => "Invalid configuration: " ++ reason
  | internal reason => "Compiler error: " ++ reason

/-- The error itself, without the diagnostics wrapped around it. -/
def root : Error → Error
  | aborted cause _ => cause.root
  | e => e

/-- Only a rejected program was recovered from; everything else is fatal. -/
def severity : Error → Severity
  | invalidProgram .. => .error
  | aborted cause _ => cause.severity
  | _ => .fatal

/-- The line an error points at, when it has one. -/
def line? (e : Error) : Option Nat :=
  match e.root with
  | malformed pos _ => some pos.line
  | unexpectedToken _ _ line | undefinedVariable _ line | invalidDesignator _ line _
  | voidValue _ line | divisionByZero line => some line
  | _ => none

/-- The diagnostics an error carries itself. -/
def diagnostics : Error → List Diagnostic
  | invalidProgram _ ds | aborted _ ds => ds
  | _ => []

/-- Attach the diagnostics gathered so far, if there are any. -/
def after (e : Error) (ds : List Diagnostic) : Error :=
  if ds.isEmpty then e else aborted e ds

@[simp] theorem root_after (e : Error) (ds : List Diagnostic) : (e.after ds).root = e.root := by
  unfold after
  split <;> rfl

end Error

end StructuredSsa
