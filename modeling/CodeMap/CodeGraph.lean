/-
The code graph of a set of files: one node per file and per definition, one
edge per reference that can be resolved.

Each file is looked at on its own first. Its definitions are located, which
means that the function or class they name is found in the syntax tree, and
each reference is given to the innermost located definition around it. The
graph then joins the files in path order.
-/
import CodeMap.Resolution

namespace CodeMap

/-- A file that was read. -/
structure SourceFile where
  /-- Path below the root. -/
  path : Path
  /-- Path with the root in front. -/
  fullPath : Path
  language : Language
  content : String
  deriving DecidableEq, Inhabited

inductive NodeKind where
  | file
  | function
  | classLike
  deriving DecidableEq, Repr, Inhabited

namespace NodeKind

def name : NodeKind → String
  | file => "file"
  | function => "function"
  | classLike => "class"

def ofCategory : Category → NodeKind
  | .function => function
  | .classLike => classLike

end NodeKind

/-- A file or a definition. -/
structure CodeNode where
  kind : NodeKind
  /-- The defined name; the path of a file. -/
  name : String
  /-- What tells the node from all others. -/
  qualified : String
  path : Path
  /-- Rows of a definition; files have none. -/
  span : Option LineSpan
  source : String
  deriving DecidableEq, Repr, Inhabited

/-- A resolved reference between two nodes, given by their positions. -/
structure CodeEdge where
  source : Nat
  target : Nat
  relationship : String
  name : String
  refSpan : Option LineSpan
  defSpan : LineSpan
  deriving DecidableEq, Repr, Inhabited

structure CodeGraph where
  nodes : List CodeNode
  edges : List CodeEdge
  deriving Inhabited

namespace CodeGraph

open Syntax

-- ================================================================ locating

/-- A definition whose function or class was found. -/
structure Located where
  definition : Definition
  kind : NodeKind
  span : LineSpan
  source : String
  deriving Repr, Inhabited

/-- The node of a definition: of the nodes of the right kinds, the innermost
one around the name that starts on the name's row; else the first one beside
the name that does; else the innermost one around the name. -/
def structuralNode? (kinds : List String) (row : Nat) (name : Visit) : Option Tree :=
  let around := (name.node :: name.ancestors).filter fun t => kinds.contains t.kind
  match around.find? fun t => t.startRow == row with
  | some t => some t
  | none =>
    match name.ancestors.head?.bind (Tree.firstStartingOn? kinds row) with
    | some t => some t
    | none => around.head?

/-- Finds the function or class that a definition names. -/
def locate (l : Language) (visits : List Visit) (content : String) (d : Definition) :
    Option Located := do
  let category ← Category.ofTagType? d.tagType
  let name ← innermost? visits d.bytes.1 d.bytes.2
  let node ← structuralNode? (l.kindsOf category) d.span.first name
  let source ← nodeText? content node
  return ⟨d, .ofCategory category, nodeSpan node, source⟩

/-- Position of the shortest located definition that holds a row, the first of
equally short ones. -/
def innermostDefinition? (row : Nat) (located : List Located) : Option Nat :=
  let holding := located.zipIdx.filter fun (d, _) => d.span.contains row
  (holding.mergeSort fun a b => a.1.span.length ≤ b.1.span.length).head?.map (·.2)

/-- What one file contributes. -/
structure Extraction where
  file : CodeNode
  located : List Located
  /-- References with the position of the located definition that holds them. -/
  references : List (Reference × Option Nat)

/-- The node of a file. -/
def fileNode (f : SourceFile) : CodeNode :=
  ⟨.file, f.path.text, f.path.text, f.path, none, f.content⟩

/-- Looks at one file. -/
def extract (f : SourceFile) : Extraction :=
  match f.language.parse? f.content with
  | none => ⟨fileNode f, [], []⟩
  | some tree =>
    let visits := tree.visits
    let tags := tagsOfVisits f.language f.path f.content visits
    let located := (tags.filterMap Tag.definition?).filterMap (locate f.language visits f.content)
    let owner (r : Reference) : Option Nat :=
      r.span.bind fun s => innermostDefinition? s.first located
    ⟨fileNode f, located, (tags.filterMap Tag.reference?).map fun r => (r, owner r)⟩

-- ================================================================= joining

/-- The path of the file, a colon, and the dotted names of the scopes and the
definition. -/
def qualifiedName (d : Definition) : String :=
  d.path.text ++ ":" ++ String.intercalate "." (d.scope ++ [d.name])

/-- The node of a located definition. -/
def definitionNode (d : Located) : CodeNode :=
  ⟨d.kind, d.definition.name, qualifiedName d.definition, d.definition.path, some d.span, d.source⟩

/-- A reference waiting to be resolved. -/
structure Pending where
  /-- Position of the node it leaves. -/
  source : Nat
  reference : Reference
  /-- Position of the definition that holds it. -/
  own : Option Nat

/-- A graph in the making. -/
structure Draft where
  nodes : List CodeNode := []
  /-- Every located definition with the position of its node. -/
  definitions : List (Definition × Nat) := []
  pending : List Pending := []

namespace Draft

/-- The node of a definition with the same qualified name. -/
def nodeOf? (draft : Draft) (qualified : String) : Option Nat :=
  (draft.definitions.find? fun (d, _) => qualifiedName d = qualified).map (·.2)

/-- Adds a definition. One with a known qualified name shares its node. -/
def addDefinition (draft : Draft) (d : Located) : Draft :=
  match draft.nodeOf? (qualifiedName d.definition) with
  | some i => { draft with definitions := draft.definitions ++ [(d.definition, i)] }
  | none =>
    { draft with
      nodes := draft.nodes ++ [definitionNode d]
      definitions := draft.definitions ++ [(d.definition, draft.nodes.length)] }

/-- Adds what a file contributes. -/
def addFile (draft : Draft) (e : Extraction) : Draft :=
  let fileIndex := draft.nodes.length
  let offset := draft.definitions.length
  let start : Draft := { draft with nodes := draft.nodes ++ [e.file] }
  let filled := e.located.foldl addDefinition start
  let pending := e.references.map fun (r, own) =>
    let own := own.map (offset + ·)
    let source := (own.bind fun i => (filled.definitions[i]?).map (·.2)).getD fileIndex
    ⟨source, r, own⟩
  { filled with pending := draft.pending ++ pending }

/-- The edge of a reference, if it can be resolved. -/
def edge? (draft : Draft) (p : Pending) : Option CodeEdge := do
  let position ← Resolution.resolve (draft.definitions.map (·.1)) p.reference p.own
  let (definition, target) ← draft.definitions[position]?
  let span := ((draft.nodes[target]?).bind (·.span)).getD definition.span
  return ⟨p.source, target, p.reference.tagType, p.reference.name, p.reference.span, span⟩

def graph (draft : Draft) : CodeGraph := ⟨draft.nodes, draft.pending.filterMap draft.edge?⟩

end Draft

/-- Joins extractions in path order. -/
def join (extractions : List Extraction) : CodeGraph :=
  let ordered := extractions.mergeSort fun a b => (a.file.path.order b.file.path).isLE
  (ordered.foldl Draft.addFile {}).graph

/-- The code graph of a list of files. -/
def build (files : List SourceFile) : CodeGraph := join (files.map extract)

/-- The first node with a qualified name. -/
def find? (g : CodeGraph) (qualified : String) : Option CodeNode :=
  g.nodes.find? (·.qualified = qualified)

end CodeGraph

end CodeMap
