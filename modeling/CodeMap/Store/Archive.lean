/-
A graph store as text, so that it can be kept in a file. The text is a header
and then a list of fields; a field is its length, a colon and its characters,
and a dash stands for a field that is absent. Nothing in a field needs to be
escaped, because its length says where it ends.
-/
import CodeMap.Store

namespace CodeMap.Archive

/-- What every archive starts with. -/
def header : String := "code graph 1\n"

-- =================================================================== fields

/-- A field in writing. -/
def writeField : Option String → List Char
  | none => ['-']
  | some s => (toString s.length).toList ++ ':' :: s.toList

/-- The number that some digits spell. -/
def number (digits : List Char) : Nat := digits.foldl (fun n c => 10 * n + (c.toNat - 48)) 0

/-- Reads a field and gives what follows it. -/
def readField? (cs : List Char) : Option (Option String × List Char) :=
  match cs with
  | '-' :: rest => some (none, rest)
  | _ =>
    let digits := cs.takeWhile Char.isDigit
    match cs.drop digits.length with
    | ':' :: rest =>
      let n := number digits
      if digits.isEmpty || rest.length < n then none
      else some (some (String.ofList (rest.take n)), rest.drop n)
    | _ => none

/-- Reads fields up to the end. A field takes at least one character, so the
number of characters bounds the number of fields. -/
def readFields? : Nat → List Char → Option (List (Option String))
  | _, [] => some []
  | 0, _ :: _ => none
  | fuel + 1, cs => do
    let (field, rest) ← readField? cs
    return field :: (← readFields? fuel rest)

-- ===================================================================== rows

def ofNumber (n : Nat) : Option String := some (toString n)

/-- A whole number; signs and other characters are refused. -/
def toNumber? (s : String) : Option Nat :=
  if !s.isEmpty && s.toList.all Char.isDigit then some (number s.toList) else none

def ofLine (line : Option Nat) : Option String := line.map toString

/-- An absent line, or a number. -/
def toLine? : Option String → Option (Option Nat)
  | none => some none
  | some s => (toNumber? s).map some

def nodeFields (n : NodeRow) : List (Option String) :=
  [some n.nodeId, some n.repoId, some n.name, some n.qualifiedName, some n.filePath,
    ofLine n.startLine, ofLine n.endLine, some n.nodeType, some n.sourceText, n.docstring]

def edgeFields (numbered : Nat × EdgeRow) : List (Option String) :=
  let e := numbered.2
  [ofNumber numbered.1, some e.repoId, some e.sourceId, some e.targetId, some e.relationshipType,
    some e.ident, ofLine e.refStartLine, ofLine e.refEndLine, ofNumber e.defStartLine,
    ofNumber e.defEndLine]

/-- Reads so many nodes and gives the fields that follow them. -/
def readNodes? : Nat → List (Option String) → Option (List NodeRow × List (Option String))
  | 0, fields => some ([], fields)
  | k + 1, fields =>
    match fields with
    | some nodeId :: some repoId :: some name :: some qualifiedName :: some filePath :: a :: b ::
        some nodeType :: some sourceText :: docstring :: rest => do
      let startLine ← toLine? a
      let endLine ← toLine? b
      let (nodes, rest) ← readNodes? k rest
      return ({ nodeId, repoId, name, qualifiedName, filePath, startLine, endLine, nodeType,
                sourceText, docstring } :: nodes, rest)
    | _ => none

/-- Reads edges up to the end. -/
def readEdges? : List (Option String) → Option (List (Nat × EdgeRow))
  | [] => some []
  | some id :: some repoId :: some sourceId :: some targetId :: some relationshipType ::
      some ident :: a :: b :: some c :: some d :: rest => do
    let id ← toNumber? id
    let refStartLine ← toLine? a
    let refEndLine ← toLine? b
    let defStartLine ← toNumber? c
    let defEndLine ← toNumber? d
    let edges ← readEdges? rest
    return (id, { repoId, sourceId, targetId, relationshipType, ident, refStartLine, refEndLine,
                  defStartLine, defEndLine }) :: edges
  | _ => none

-- ==================================================================== stores

/-- A store as fields: the last edge number, the number of nodes, the nodes and
the edges. -/
def fields (s : Store) : List (Option String) :=
  ofNumber s.lastEdge :: ofNumber s.nodes.length ::
    (s.nodes.flatMap nodeFields ++ s.edges.flatMap edgeFields)

/-- A store in writing. -/
def write (s : Store) : String :=
  header ++ String.ofList ((fields s).flatMap writeField)

/-- The store of a list of fields. -/
def ofFields? : List (Option String) → Option Store
  | some last :: some count :: rest => do
    let lastEdge ← toNumber? last
    let (nodes, rest) ← readNodes? (← toNumber? count) rest
    return { nodes, edges := ← readEdges? rest, lastEdge }
  | _ => none

/-- Reads a store. -/
def read? (text : String) : Option Store := do
  let cs := text.toList
  if !header.toList.isPrefixOf cs then none
  else
    let body := cs.drop header.length
    ofFields? (← readFields? body.length body)

end CodeMap.Archive
