/-
The statements that put rows into the tables of a graph store and get them out
again. An insert names the columns it fills and has one parameter for each of
them; the table keeps the values under these names, in the order in which its
columns are declared. A selection asks for columns by name, and a row is read
from their values place by place.
-/
import CodeMap.Sql.Schema
import CodeMap.Store

namespace CodeMap

-- =================================================================== values

namespace Sql

def ofLine : Option Nat → Value
  | some n => .integer n
  | none => .null

def ofText : Option String → Value
  | some s => .text s
  | none => .null

namespace Value

/-- Whether a value can be the parameter of a statement. -/
def isParameter : Value → Bool
  | integer n => fitsSigned64 n
  | _ => true

/-- Reads a text. -/
def readText? : Value → Option String
  | text s => some s
  | _ => none

/-- Reads a number that is not negative. -/
def readNatural? : Value → Option Nat
  | integer n => if 0 ≤ n then some n.toNat else none
  | _ => none

/-- Reads what may be missing. -/
def readOptional? {α : Type} (read? : Value → Option α) : Value → Option (Option α)
  | null => some none
  | v => (read? v).map some

end Value

-- =================================================================== tables

/-- What is asked of the columns of a row. -/
abbrev Condition := (String → Value) → Bool

namespace Condition

/-- A column is a text. -/
def equals (column text : String) : Condition := fun row => (row column).order (.text text) == .eq

/-- A column is in a range of texts, without its end. -/
def within (column lower upper : String) : Condition := fun row =>
  ((row column).order (.text lower)).isGE && ((row column).order (.text upper)).isLT

/-- Two conditions hold. -/
def bothOf (p q : Condition) : Condition := fun row => p row && q row

/-- One of two conditions holds. -/
def oneOf (p q : Condition) : Condition := fun row => p row || q row

end Condition

namespace TableDeclaration

def names (d : TableDeclaration) : List String := d.columns.map (·.name)

/-- What a table keeps of an insert: the columns it fills, and `unfilled` in
the others. -/
def inserted (d : TableDeclaration) (columns : List String) (parameters : List Value)
    (unfilled : Value) : List Value :=
  d.names.map fun name => ((columns.zip parameters).lookup name).getD unfilled

/-- The value of a column in a row. -/
def value (d : TableDeclaration) (row : List Value) (column : String) : Value :=
  ((d.names.zip row).lookup column).getD .null

/-- The values of some columns in a row. -/
def selected (d : TableDeclaration) (columns : List String) (row : List Value) : List Value :=
  columns.map (d.value row)

/-- The rows that meet a condition, in the order of some columns. -/
def matching (d : TableDeclaration) (rows : List (List Value)) (condition : Condition)
    (order : List String) : List (List Value) :=
  (rows.filter fun row => condition (d.value row)).mergeSort fun a b =>
    (orderRows (d.selected order a) (d.selected order b)).isLE

end TableDeclaration

end Sql

open Sql

-- ==================================================================== nodes

namespace NodeRow

/-- The columns that an insert of nodes fills and a selection asks for. -/
def columns : List String :=
  ["node_id", "repo_id", "name", "qualified_name", "file_path", "start_line", "end_line",
    "node_type", "source_text", "docstring"]

/-- What nodes are ordered by. -/
def orderColumns : List String := ["file_path", "start_line", "qualified_name"]

/-- The parameters of an insert, one for each column. -/
def parameters (n : NodeRow) : List Value :=
  [.text n.nodeId, .text n.repoId, .text n.name, .text n.qualifiedName, .text n.filePath,
    ofLine n.startLine, ofLine n.endLine, .text n.nodeType, .text n.sourceText,
    ofText n.docstring]

/-- Reads a node from the values of its columns. -/
def ofValues? : List Value → Option NodeRow
  | [nodeId, repoId, name, qualifiedName, filePath, startLine, endLine, nodeType, sourceText,
      docstring] => do
    return {
      nodeId := ← nodeId.readText?
      repoId := ← repoId.readText?
      name := ← name.readText?
      qualifiedName := ← qualifiedName.readText?
      filePath := ← filePath.readText?
      startLine := ← startLine.readOptional? Value.readNatural?
      endLine := ← endLine.readOptional? Value.readNatural?
      nodeType := ← nodeType.readText?
      sourceText := ← sourceText.readText?
      docstring := ← docstring.readOptional? Value.readText? }
  | _ => none

/-- A node as the table of nodes keeps it. Its insert fills every column. -/
def record (n : NodeRow) : List Value :=
  TableDeclaration.nodes.inserted columns n.parameters .null

end NodeRow

-- ==================================================================== edges

namespace EdgeRow

/-- The columns that an insert of edges fills and a selection asks for. -/
def columns : List String :=
  ["repo_id", "source_id", "target_id", "relationship_type", "ident", "ref_start_line",
    "ref_end_line", "def_start_line", "def_end_line"]

/-- What edges are ordered by. -/
def orderColumns : List String := ["id"]

/-- The parameters of an insert, one for each column. -/
def parameters (e : EdgeRow) : List Value :=
  [.text e.repoId, .text e.sourceId, .text e.targetId, .text e.relationshipType, .text e.ident,
    ofLine e.refStartLine, ofLine e.refEndLine, .integer e.defStartLine, .integer e.defEndLine]

/-- Reads an edge from the values of its columns. -/
def ofValues? : List Value → Option EdgeRow
  | [repoId, sourceId, targetId, relationshipType, ident, refStartLine, refEndLine, defStartLine,
      defEndLine] => do
    return {
      repoId := ← repoId.readText?
      sourceId := ← sourceId.readText?
      targetId := ← targetId.readText?
      relationshipType := ← relationshipType.readText?
      ident := ← ident.readText?
      refStartLine := ← refStartLine.readOptional? Value.readNatural?
      refEndLine := ← refEndLine.readOptional? Value.readNatural?
      defStartLine := ← defStartLine.readNatural?
      defEndLine := ← defEndLine.readNatural? }
  | _ => none

/-- An edge as the table of edges keeps it. The column that its insert leaves
out is the number that the table gives to the edge. -/
def record (number : Nat) (e : EdgeRow) : List Value :=
  TableDeclaration.edges.inserted columns e.parameters (.integer number)

end EdgeRow

-- =============================================================== selections

namespace Store

/-- The rows of the table of nodes. -/
def nodeRecords (s : Store) : List (List Value) := s.nodes.map NodeRow.record

/-- The rows of the table of edges. -/
def edgeRecords (s : Store) : List (List Value) := s.edges.map fun (number, e) => e.record number

/-- Selects nodes; nothing if some value that was selected cannot be read. -/
def selectNodes (s : Store) (condition : Condition) (order : List String) :
    Option (List NodeRow) :=
  (TableDeclaration.nodes.matching s.nodeRecords condition order).mapM fun row =>
    NodeRow.ofValues? (TableDeclaration.nodes.selected NodeRow.columns row)

/-- Selects edges; nothing if some value that was selected cannot be read. -/
def selectEdges (s : Store) (condition : Condition) (order : List String) :
    Option (List EdgeRow) :=
  (TableDeclaration.edges.matching s.edgeRecords condition order).mapM fun row =>
    EdgeRow.ofValues? (TableDeclaration.edges.selected EdgeRow.columns row)

end Store

end CodeMap
