/-
Writing a code graph into a store: node rows first, then edge rows, in batches.
A batch that fails for the moment is offered again; one that keeps failing ends
the run, and the batches before it stay written.
-/
import CodeMap.CodeGraph
import CodeMap.NodeId
import CodeMap.Store.Service

namespace CodeMap

/-- How many rows a run wrote. -/
structure PersistSummary where
  nodeCount : Nat
  edgeCount : Nat
  deriving DecidableEq, Repr, Inhabited

namespace Persist

/-- The row of a node. -/
def nodeRow (repo owner : String) (n : CodeNode) : NodeRow where
  nodeId := nodeId owner n.qualified
  repoId := repo
  name := n.name
  qualifiedName := n.qualified
  filePath := n.path.slashed
  startLine := n.span.map (·.first + 1)
  endLine := n.span.map (·.last + 1)
  nodeType := n.kind.name
  sourceText := n.source
  docstring := none

/-- The qualified name of a node of a graph, by its position. -/
def qualifiedAt (g : CodeGraph) (i : Nat) : String := ((g.nodes[i]?).map (·.qualified)).getD ""

/-- The row of an edge. -/
def edgeRow (g : CodeGraph) (repo owner : String) (e : CodeEdge) : EdgeRow where
  repoId := repo
  sourceId := nodeId owner (qualifiedAt g e.source)
  targetId := nodeId owner (qualifiedAt g e.target)
  relationshipType := e.relationship
  ident := e.name
  refStartLine := e.refSpan.map (·.first + 1)
  refEndLine := e.refSpan.map (·.last + 1)
  defStartLine := e.defSpan.first + 1
  defEndLine := e.defSpan.last + 1

/-- Cuts a list into pieces of `n + 1` elements; the last one may be shorter. -/
def pieces {α : Type} (n : Nat) : List α → List (List α)
  | [] => []
  | x :: xs => (x :: xs.take n) :: pieces n (xs.drop n)
  termination_by xs => xs.length
  decreasing_by simp only [List.length_drop, List.length_cons]; omega

/-- Cuts a list into batches; a size of zero counts as one. -/
def batches {α : Type} (size : Nat) (xs : List α) : List (List α) := pieces (size - 1) xs

/-- Makes a call, and makes it again after a passing fault, at most `retries`
times. -/
def offer (call : Session Unit) : Nat → Session Unit
  | 0 => call
  | retries + 1 =>
    tryCatch call fun fault => if fault.isTransient then offer call retries else throw fault

/-- Offers the batches of a stage one after the other, numbered from `index`. -/
def offerAll {α : Type} (stage : Stage) (insert : List α → Session Unit) (retries : Nat) :
    Nat → List (List α) → Session Unit
  | _, [] => pure ()
  | index, batch :: rest => do
    tryCatch (offer (insert batch) retries) fun fault => throw (.batch stage.name index fault)
    offerAll stage insert retries (index + 1) rest

/-- Writes a graph. Rows that are there already are not replaced. -/
def write (g : CodeGraph) (repo owner : String) (batchSize maxRetries : Nat) :
    Session PersistSummary := do
  let nodes := g.nodes.map (nodeRow repo owner)
  let edges := g.edges.map (edgeRow g repo owner)
  offerAll .nodes Session.insertNodes maxRetries 0 (batches batchSize nodes)
  offerAll .edges Session.insertEdges maxRetries 0 (batches batchSize edges)
  return ⟨nodes.length, edges.length⟩

end Persist

end CodeMap
