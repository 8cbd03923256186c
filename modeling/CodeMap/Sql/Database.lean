/-
The tables of a graph store as queries see them, and the answers to read-only
statements about them.
-/
import CodeMap.Json
import CodeMap.Sql.Evaluate
import CodeMap.Sql.Reader
import CodeMap.Store.Statements

namespace CodeMap.Sql

/-- The table of nodes. -/
def nodeTable (s : Store) : Table := TableDeclaration.nodes.table s.nodeRecords

/-- The table of edges. -/
def edgeTable (s : Store) : Table := TableDeclaration.edges.table s.edgeRecords

/-- The table of the last numbers given to edges. -/
def sequenceTable (s : Store) : Table where
  columns := [("name", .none), ("seq", .none)]
  rows := if s.lastEdge = 0 then [] else [[.text "edges", .integer s.lastEdge]]

def environment (s : Store) : Environment :=
  { tables := [("nodes", nodeTable s), ("edges", edgeTable s), ("sqlite_sequence", sequenceTable s),
      ("sqlite_master", schemaTable), ("sqlite_schema", schemaTable)]
    scopes := [] }

/-- How many parameters the first statement asks for. -/
def parameterCount (text : String) : Nat :=
  let first := ((tokens text).dropWhile (Reader.isSymbol ";")).takeWhile
    fun t => !Reader.isSymbol ";" t
  let names := (first.filter fun t => t.kind = .parameter).map (·.text)
  names.foldl (fun n name =>
    match name.toNat? with
    | some k => max n k
    | none => n + 1) 0

/-- Settings of the database that can be asked for. -/
def settings : List (String × Value) := [("user_version", .integer 0), ("application_id", .integer 0)]

def refused : String := "refusing to run a statement that writes to the graph"

/-- A message about a place in a text. -/
def atPlace (text message : String) (offset : Option Nat) : String :=
  match offset with
  | some n => message ++ " in " ++ text ++ " at offset " ++ toString n
  | none => message

def ReadFault.message (text : String) : ReadFault → String
  | unexpected t => atPlace text ("near \"" ++ t.source ++ "\": syntax error") (some t.start)
  | incomplete => "incomplete input"
  | unrecognized t => atPlace text ("unrecognized token: \"" ++ t.source ++ "\"") (some t.start)

/-- The rows of a table, each with the names of its columns. -/
def namedRows (t : Table) : List (List (String × Value)) :=
  t.rows.map fun row => (t.columns.map (·.1)).zip row

/-- Answers the first statement of a text. -/
def query (s : Store) (text : String) : Except Fault (List (List (String × Value))) :=
  let fail (action why : String) : Except Fault (List (List (String × Value))) :=
    .error (.database (action ++ ": " ++ why))
  let env := environment s
  match parse text with
  | .error f => fail "failed to prepare query" (f.message text)
  | .ok .nothing => fail "failed to read row" "not an error"
  | .ok (.pragma name) =>
    .ok ((settings.find? fun (n, _) => sameName n name).toList.map fun entry => [entry])
  | .ok (.change none) => .error (.database refused)
  | .ok (.change (some table)) =>
    if env.tables.any fun (n, _) => sameName n table then .error (.database refused)
    else fail "failed to prepare query" ("no such table: " ++ table)
  | .ok (.query q) =>
    match answer (64 * (text.length + 1)) env q with
    | .error f => fail "failed to prepare query" (atPlace text f.message f.offset)
    | .ok table =>
      let needed := parameterCount text
      if needed = 0 then .ok (namedRows table)
      else fail "failed to run query"
        ("Wrong number of parameters passed to query. Got 0, needed " ++ toString needed)

/-- A value in print. Blobs are lists of their bytes. -/
def Value.toJson : Value → Json
  | null => .null
  | integer n => .integer n
  | real x => .real x
  | text s => .string s
  | blob bytes => .array (bytes.map fun b => .natural b.toNat)

/-- Entries by name; of entries with the same name the last one stays. -/
def lastOfEach (entries : List (String × Json)) : List (String × Json) :=
  let sorted := entries.mergeSort fun a b => (compare a.1 b.1).isLE
  (sorted.splitBy fun a b => a.1 == b.1).filterMap List.getLast?

/-- A row in print. -/
def rowJson (row : List (String × Value)) : Json :=
  .object (lastOfEach (row.map fun (n, v) => (n, v.toJson)))

end CodeMap.Sql
