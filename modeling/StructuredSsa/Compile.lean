import StructuredSsa.Build.Computation
import StructuredSsa.Fold
import StructuredSsa.Options.Basic
import StructuredSsa.Verify

/-!
# Compiling

From source text to a folded and verified program. A program whose errors were
recovered from is rejected unless the options allow it.
-/

namespace StructuredSsa

/-- The version of the compiler. -/
def version : String := "0.1.0"

/-- A compiled program. -/
structure Compiled where
  program : Program
  diagnostics : List Diagnostic
  folding : FoldCount
deriving Repr, DecidableEq

/-- Reject a built program for the errors it was recovered from. -/
def rejectErrors (o : Options) (ds : List Diagnostic) : Except Stop Unit :=
  let errors := (ds.filter (·.isError)).length
  if 0 < errors && !o.allowRecoveredErrors then
    throw (.error (.invalidProgram errors ds))
  else
    return ()

/-- Fold a built program. -/
def foldBuilt (o : Options) (built : Built) : Except Stop (FoldCount × Program) :=
  match Fold.run o.optLevel o.maxFoldPasses built.program with
  | .ok count p => .ok (count, p)
  | .error e _ => .error (e.after built.diagnostics)

/-- Reject a program that does not pass verification. -/
def verifyFolded (o : Options) (p : Program) (ds : List Diagnostic) : Except Stop Unit := do
  if o.verify then
    let report ← Stop.lift (p.verify false)
    if !report.valid then
      let reasons := String.intercalate "; " (report.findings.map Finding.message)
      throw (Stop.after (.error (.internal ("Verification failed: " ++ reasons))) ds)

/-- Compile a source text. -/
def compile (o : Options) (source : String) : Except Stop Compiled := do
  let built ← build source
  rejectErrors o built.diagnostics
  let (count, p) ← foldBuilt o built
  verifyFolded o p built.diagnostics
  return ⟨p, built.diagnostics, count⟩

end StructuredSsa
