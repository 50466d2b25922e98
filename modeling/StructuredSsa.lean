import StructuredSsa.Compile
import StructuredSsa.Print.Graphviz
import StructuredSsa.Proofs.Wired
import StructuredSsa.Proofs.Scoped
import StructuredSsa.Proofs.Meets
import StructuredSsa.Proofs.RowMajor
import StructuredSsa.Proofs.Exprs
import StructuredSsa.Proofs.Flow
import StructuredSsa.Proofs.Joins
import StructuredSsa.Proofs.Body
import StructuredSsa.Proofs.Steps
import StructuredSsa.Proofs.Stmts
import StructuredSsa.Proofs.Chain
import StructuredSsa.Proofs.Tight
import StructuredSsa.Proofs.Close
import StructuredSsa.Proofs.Outside
import StructuredSsa.Proofs.Finish
import StructuredSsa.Proofs.Declare
import StructuredSsa.Proofs.Methods
import StructuredSsa.Proofs.Reading
import StructuredSsa.Proofs.Naming
import StructuredSsa.Proofs.Blame
import StructuredSsa.Proofs.SsaForm
import StructuredSsa.Proofs.Dominators
import StructuredSsa.Proofs.NearestDominator
import StructuredSsa.Proofs.Verified
import StructuredSsa.Proofs.Folding
import StructuredSsa.Proofs.Passes
import StructuredSsa.Proofs.Consistent
import StructuredSsa.Proofs.Edits
import StructuredSsa.Proofs.FoldedForm
import StructuredSsa.Proofs.FoldedPrograms
import StructuredSsa.Proofs.Source
import StructuredSsa.Proofs.Printed
import StructuredSsa.Proofs.Complaints
import StructuredSsa.Proofs.DefiniteReturn
import StructuredSsa.Proofs.Compiled
import StructuredSsa.Proofs.Emitted
import StructuredSsa.Proofs.KeptTrees
import StructuredSsa.Proofs.Upheld
import StructuredSsa.Proofs.Reducible
import StructuredSsa.Proofs.PhiPlacement
import StructuredSsa.Proofs.Realized
import StructuredSsa.Proofs.Meaning
import StructuredSsa.Proofs.FoldSteps
import StructuredSsa.Proofs.FoldRuns
import StructuredSsa.Proofs.Requests
import StructuredSsa.Proofs.FoldCounts
import StructuredSsa.Proofs.FoldFrame
import StructuredSsa.Proofs.Exchange
import StructuredSsa.Proofs.FoldedGraphs
import StructuredSsa.Proofs.SharedGlobals
import StructuredSsa.Proofs.Assembled
import StructuredSsa.Proofs.ConstantExpressions
import StructuredSsa.Proofs.DepthFirst
import StructuredSsa.Proofs.Pruning
import StructuredSsa.Proofs.SingleExit
import StructuredSsa.Proofs.DominatorOrder
import StructuredSsa.Proofs.Positions
import StructuredSsa.Proofs.ListingWords
import StructuredSsa.Proofs.CursorStates
