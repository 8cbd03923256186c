/-
The declarations of the tables of a graph store. Names, types and indexes are
written down once; the columns that queries see and the text of the
declarations both come from here.
-/
import CodeMap.Sql.Table

namespace CodeMap.Sql

/-- A declared column: its name, its type, and what else is said of it. -/
structure ColumnDeclaration where
  name : String
  type : String
  constraint : String := ""

/-- A declared index: its name and its columns. -/
structure IndexDeclaration where
  name : String
  columns : List String

structure TableDeclaration where
  name : String
  columns : List ColumnDeclaration
  /-- The columns that tell rows apart, if the rows have no number. -/
  key : List String := []
  indexes : List IndexDeclaration

namespace ColumnDeclaration

def affinity (c : ColumnDeclaration) : Affinity :=
  match c.type with
  | "TEXT" => .text
  | "INTEGER" => .numeric
  | _ => .none

def text (c : ColumnDeclaration) : String :=
  " ".intercalate ([c.name, c.type, c.constraint].filter (· ≠ ""))

end ColumnDeclaration

namespace TableDeclaration

/-- A text with its name that may not be missing. -/
def required (name : String) : ColumnDeclaration := ⟨name, "TEXT", "NOT NULL"⟩

def nodes : TableDeclaration where
  name := "nodes"
  columns :=
    [required "repo_id", required "node_id", required "name", required "qualified_name",
      required "file_path", ⟨"start_line", "INTEGER", ""⟩, ⟨"end_line", "INTEGER", ""⟩,
      required "node_type", required "source_text", ⟨"docstring", "TEXT", ""⟩]
  key := ["repo_id", "node_id"]
  indexes :=
    [⟨"idx_nodes_node_id", ["node_id"]⟩, ⟨"idx_nodes_file", ["repo_id", "file_path"]⟩,
      ⟨"idx_nodes_name", ["repo_id", "name"]⟩]

def edges : TableDeclaration where
  name := "edges"
  columns :=
    [⟨"id", "INTEGER", "PRIMARY KEY AUTOINCREMENT"⟩, required "repo_id", required "source_id",
      required "target_id", required "relationship_type", required "ident",
      ⟨"ref_start_line", "INTEGER", ""⟩, ⟨"ref_end_line", "INTEGER", ""⟩,
      ⟨"def_start_line", "INTEGER", "NOT NULL"⟩, ⟨"def_end_line", "INTEGER", "NOT NULL"⟩]
  indexes :=
    [⟨"idx_edges_source", ["repo_id", "source_id"]⟩, ⟨"idx_edges_target", ["repo_id", "target_id"]⟩]

/-- The declared table with some rows. -/
def table (d : TableDeclaration) (rows : List (List Value)) : Table where
  columns := d.columns.map fun c => (c.name, c.affinity)
  rows := rows
  indexes := (if d.key.isEmpty then [] else [d.key]) ++ d.indexes.map (·.columns)
  rowNumber := (d.columns.find? fun c => c.constraint.startsWith "PRIMARY KEY").map (·.name)

/-- The declaration of the table as it is written. -/
def text (d : TableDeclaration) : String :=
  let line (s : String) : String := "\n" ++ String.ofList (List.replicate 20 ' ') ++ s
  let key := if d.key.isEmpty then []
    else ["PRIMARY KEY (" ++ ", ".intercalate d.key ++ ")"]
  "CREATE TABLE " ++ d.name ++ " (" ++
    ",".intercalate ((d.columns.map ColumnDeclaration.text ++ key).map line) ++
    "\n" ++ String.ofList (List.replicate 16 ' ') ++ ")"

/-- The declaration of an index as it is written. -/
def indexText (d : TableDeclaration) (i : IndexDeclaration) : String :=
  "CREATE INDEX " ++ i.name ++ " ON " ++ d.name ++ "(" ++ ", ".intercalate i.columns ++ ")"

end TableDeclaration

/-- Everything declared: its kind, its name, its table, and its text. Keys have
an index without a text, and numbered rows need a table of last numbers. -/
def declarations : List (String × String × String × Option String) :=
  let index (d : TableDeclaration) (i : IndexDeclaration) :=
    ("index", i.name, d.name, some (d.indexText i))
  let nodes := TableDeclaration.nodes
  let edges := TableDeclaration.edges
  [("table", "nodes", "nodes", some nodes.text),
    ("index", "sqlite_autoindex_nodes_1", "nodes", none)] ++
  nodes.indexes.map (index nodes) ++
  [("table", "edges", "edges", some edges.text),
    ("table", "sqlite_sequence", "sqlite_sequence",
      some "CREATE TABLE sqlite_sequence(name,seq)")] ++
  edges.indexes.map (index edges)

/-- The table of declarations. What is declared starts on pages of its own, the
first one on the second page. -/
def schemaTable : Table where
  columns := [("type", .text), ("name", .text), ("tbl_name", .text), ("rootpage", .numeric),
    ("sql", .text)]
  rows := declarations.zipIdx.map fun ((kind, name, table, text), i) =>
    [.text kind, .text name, .text table, .integer (i + 2), (text.map Value.text).getD .null]

end CodeMap.Sql
