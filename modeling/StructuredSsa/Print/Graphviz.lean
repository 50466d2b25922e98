import StructuredSsa.Graph.Dominance
import StructuredSsa.Print.Listing

/-!
# Graphviz output

A method as a Graphviz digraph. Each block is a cluster around one box with
its instructions, between two invisible points to which edges attach. The same
clusters are drawn with the edges of the control flow or with those of the
dominator tree.
-/

namespace StructuredSsa

/-- A double quote inside a label is escaped. -/
def escapeQuotes (text : String) : String :=
  String.ofList (text.toList.flatMap fun c => if c.toNat = 34 then ['\\', c] else [c])

/-- The lines of a label, each ended by a mark that aligns it to the left. -/
def labelText (lines : List String) : String := String.intercalate "\\l" lines ++ "\\l"

namespace Program

/-- The line for the parameters of an entry block that has some. -/
def parameterLine : BlockKind → List String
  | .entry [] => []
  | .entry parameters => ["params " ++ commaList (parameters.map ValueId.text)]
  | _ => []

/-- The cluster of one block. -/
def cluster (p : Program) (b : BlockId) (r : Block) : String :=
  let id := toString b.index
  let lines := parameterLine r.kind ++ (p.instrLines r.contents).map escapeQuotes
  "  subgraph cluster" ++ id ++ " \x7b\n"
    ++ "    label=\"" ++ r.label b ++ "\";\n"
    ++ "    \"start" ++ id ++ "\" [shape=point style=invis];\n"
    ++ "    \"body" ++ id ++ "\" [shape=box label=\"" ++ labelText lines ++ "\"];\n"
    ++ "    \"end" ++ id ++ "\" [shape=point style=invis];\n"
    ++ "    \"start" ++ id ++ "\" -> \"body" ++ id ++ "\" -> \"end" ++ id ++ "\" [style=invis];\n"
    ++ "  \x7d\n"

/-- An edge from one cluster to another. -/
def clusterEdge (e : BlockId × BlockId) : String :=
  let source := toString e.1.index
  let target := toString e.2.index
  "  \"end" ++ source ++ "\" -> \"start" ++ target ++ "\" [ltail=cluster" ++ source
    ++ " lhead=cluster" ++ target ++ "];\n"

/-- A digraph with the clusters of a method and the given edges. -/
def digraph (p : Program) (name : String) (m : Method) (edges : List (BlockId × BlockId)) : String :=
  "digraph " ++ name ++ " \x7b\n  compound=true;\n"
    ++ String.join (m.blocks.filterMap fun b => (p.block? b).map fun r => p.cluster b r)
    ++ String.join (edges.map clusterEdge)
    ++ "\x7d\n"

/-- The control flow of a method. -/
def flowGraph (p : Program) (m : MethodId) : Except Fault String := do
  let r ← p.getMethod m
  return p.digraph r.name r (r.blocks.flatMap fun b => (p.succs b).map fun s => (b, s))

/-- The dominator tree of a method. -/
def dominatorGraph (p : Program) (m : MethodId) : Except Fault String := do
  let r ← p.getMethod m
  return p.digraph (r.name ++ "_dominator_tree") r (p.treeOf r).edges

end Program

end StructuredSsa
