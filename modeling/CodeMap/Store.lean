/-
The graph store: rows of nodes and edges, each scoped by the repository it
belongs to. A node row is keyed by repository and node id; inserting never
replaces a row, so a batch that repeats a key fails and leaves the store as it
was. Rows keep the order in which they were inserted. They are whole here; the
columns that they are kept in, and the statements that fill and read these, are
in `CodeMap.Store.Statements`.
-/
import CodeMap.Fault
import CodeMap.Limits

namespace CodeMap

/-- A stored node. Lines are counted from one; file nodes have none. -/
structure NodeRow where
  nodeId : String
  repoId : String
  name : String
  qualifiedName : String
  filePath : String
  startLine : Option Nat
  endLine : Option Nat
  nodeType : String
  sourceText : String
  docstring : Option String
  deriving DecidableEq, Repr, Inhabited

/-- A stored edge from a referencing node to a definition. -/
structure EdgeRow where
  repoId : String
  sourceId : String
  targetId : String
  relationshipType : String
  ident : String
  refStartLine : Option Nat
  refEndLine : Option Nat
  defStartLine : Nat
  defEndLine : Nat
  deriving DecidableEq, Repr, Inhabited

namespace NodeRow

/-- Whether the node stands for a whole file. -/
def isFile (n : NodeRow) : Bool := n.nodeType == "file"

/-- An absent line comes before every line. -/
def orderLine : Option Nat → Option Nat → Ordering
  | none, none => .eq
  | none, some _ => .lt
  | some _, none => .gt
  | some a, some b => compare a b

/-- By file, then first line, then qualified name. -/
def order (a b : NodeRow) : Ordering :=
  (compare a.filePath b.filePath).then
    ((orderLine a.startLine b.startLine).then (compare a.qualifiedName b.qualifiedName))

end NodeRow

/-- Node rows in their order; rows that compare equal keep their places. -/
def sortRows (rows : List NodeRow) : List NodeRow := rows.mergeSort fun a b => (a.order b).isLE

/-- How many rows a repository has. -/
structure RowCounts where
  nodes : Nat
  edges : Nat
  deriving DecidableEq, Repr, Inhabited

/-- All stored rows. Edges are numbered in the order of insertion, and a number
is never given twice, not even after its edge was deleted. -/
structure Store where
  nodes : List NodeRow := []
  edges : List (Nat × EdgeRow) := []
  lastEdge : Nat := 0
  deriving DecidableEq, Repr, Inhabited

namespace Store

/-- The largest line a row can hold. -/
def maxLine : Nat := maxSigned64

/-- Whether a line can be stored. -/
def fits (line : Option Nat) : Bool := line.all (· ≤ maxLine)

/-- Why a line was refused. -/
def lineTooLarge : String := "number too large to fit in target type"

/-- Why a key was refused. -/
def keyTaken : String := "UNIQUE constraint failed: nodes.repo_id, nodes.node_id"

/-- Whether a node with this key is stored. -/
def hasKey (s : Store) (repo id : String) : Bool :=
  s.nodes.any fun n => n.repoId == repo && n.nodeId == id

/-- Adds one node. -/
def insertNode (s : Store) (n : NodeRow) : Except Fault Store :=
  let refuse (why : String) : Except Fault Store :=
    .error (.database ("failed to insert node '" ++ n.qualifiedName ++ "': " ++ why))
  if !(fits n.startLine && fits n.endLine) then refuse lineTooLarge
  else if s.hasKey n.repoId n.nodeId then refuse keyTaken
  else .ok { s with nodes := s.nodes ++ [n] }

/-- Adds all nodes of a batch or none. -/
def insertNodes (s : Store) (batch : List NodeRow) : Except Fault Store := batch.foldlM insertNode s

/-- Adds one edge. -/
def insertEdge (s : Store) (e : EdgeRow) : Except Fault Store :=
  if [e.refStartLine, e.refEndLine, some e.defStartLine, some e.defEndLine].all fits then
    .ok { s with edges := s.edges ++ [(s.lastEdge + 1, e)], lastEdge := s.lastEdge + 1 }
  else .error (.database ("failed to insert edge: " ++ lineTooLarge))

/-- Adds all edges of a batch or none. -/
def insertEdges (s : Store) (batch : List EdgeRow) : Except Fault Store := batch.foldlM insertEdge s

/-- The node rows of a repository. -/
def nodesOf (s : Store) (repo : String) : List NodeRow := s.nodes.filter (·.repoId == repo)

/-- The edge rows of a repository. -/
def edgesOf (s : Store) (repo : String) : List EdgeRow :=
  (s.edges.map (·.2)).filter (·.repoId == repo)

def counts (s : Store) (repo : String) : RowCounts :=
  ⟨(s.nodesOf repo).length, (s.edgesOf repo).length⟩

/-- Removes every row of a repository and says how many there were. -/
def deleteRepo (s : Store) (repo : String) : RowCounts × Store :=
  (s.counts repo,
    { s with
      nodes := s.nodes.filter (·.repoId != repo)
      edges := s.edges.filter (·.2.repoId != repo) })

/-- The node with an id. -/
def node? (s : Store) (repo id : String) : Option NodeRow :=
  s.nodes.find? fun n => n.repoId == repo && n.nodeId == id

/-- Edges that leave a node, in the order of insertion. -/
def outgoing (s : Store) (repo id : String) : List EdgeRow :=
  (s.edgesOf repo).filter (·.sourceId == id)

/-- Edges that arrive at a node, in the order of insertion. -/
def incoming (s : Store) (repo id : String) : List EdgeRow :=
  (s.edgesOf repo).filter (·.targetId == id)

/-- The nodes of a file. -/
def nodesInFile (s : Store) (repo path : String) : List NodeRow :=
  sortRows ((s.nodesOf repo).filter (·.filePath == path))

/-- A text without the slashes at its end. -/
def trimSlashes (path : String) : String :=
  String.ofList ((path.toList.reverse.dropWhile (· = '/')).reverse)

/-- Whether a file path lies in the range of paths at or below `top`. The
character `0` comes right after `/`, so the range from `top/` up to `top0` holds
exactly what is below `top`. -/
def atOrBelow (top path : String) : Bool :=
  path == top || (top ++ "/" ≤ path && path < top ++ "0")

/-- The nodes of every file at or below a path. -/
def nodesUnderPath (s : Store) (repo path : String) : List NodeRow :=
  let top := trimSlashes path
  if top = "" ∨ top = "." then sortRows (s.nodesOf repo)
  else sortRows ((s.nodesOf repo).filter fun n => atOrBelow top n.filePath)

/-- The nodes with a short name. -/
def findByName (s : Store) (repo name : String) : List NodeRow :=
  sortRows ((s.nodesOf repo).filter (·.name == name))

/-- Attaches a text to a node; says whether the node exists. -/
def setDocstring (s : Store) (repo id text : String) : Bool × Store :=
  (s.hasKey repo id,
    { s with
      nodes := s.nodes.map fun n =>
        if n.repoId == repo && n.nodeId == id then { n with docstring := some text } else n })

/-- Attaches a text to a node that has to exist. -/
def annotate (s : Store) (repo id text : String) : Except Fault Store :=
  match s.setDocstring repo id text with
  | (true, s') => .ok s'
  | (false, _) => .error (.database ("no node '" ++ id ++ "' in repository '" ++ repo ++ "'"))

end Store

end CodeMap
