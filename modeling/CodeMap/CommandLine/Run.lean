/-
What commands do: a command takes the file system as it is and gives the text
it prints and the file system it leaves. A command that fails prints nothing.
-/
import CodeMap.CommandLine.Command
import CodeMap.Ingest
import CodeMap.RepoMap
import CodeMap.Sql.Database
import CodeMap.Store.Database
import CodeMap.Traversal

namespace CodeMap.CommandLine

/-- What the program leaves. -/
structure Outcome where
  exitCode : Nat
  output : String
  files : FileSystem

/-- Why a command fails. -/
inductive Failure where
  | fault (f : Fault)
  | io (why : String)
  | noRepositoryName
  | nothingAskedFor
  | noNode (id repo : String)
  | configExists

/-- A command's work: it may change files before it fails. -/
abbrev Work := ExceptT Failure (StateM FileSystem)

def ofFault {α : Type} : Except Fault α → Work α
  | .ok a => return a
  | .error f => throw (.fault f)

-- ================================================================= printing

/-- A line in print. -/
def line (text : String) : String := text ++ "\n"

def prettyLine (v : Json) : String := line v.pretty

def nodeJson (n : NodeRow) : Json :=
  .object
    [("nodeId", .string n.nodeId), ("repoId", .string n.repoId), ("name", .string n.name),
      ("qualifiedName", .string n.qualifiedName), ("filePath", .string n.filePath),
      ("startLine", .optional .natural n.startLine), ("endLine", .optional .natural n.endLine),
      ("nodeType", .string n.nodeType), ("sourceText", .string n.sourceText),
      ("docstring", .optional .string n.docstring)]

/-- The lines of a node in print. -/
def lineRange (n : NodeRow) : String :=
  match n.startLine, n.endLine with
  | some a, some b => ":" ++ toString a ++ "-" ++ toString b
  | _, _ => ""

/-- A node in print, with its source if asked for. -/
def nodeText (withSource : Bool) (n : NodeRow) : String :=
  let head := line (n.qualifiedName ++ " [" ++ n.nodeType ++ "] " ++ n.filePath ++ lineRange n ++
    "  " ++ n.nodeId)
  let doc := (n.docstring.map fun d => line ("  " ++ d)).getD ""
  let source :=
    if withSource && !n.isFile then
      String.join ((Text.lines n.sourceText).map fun l => line ("  " ++ lineMark ++ l))
    else ""
  head ++ doc ++ source

def nodesText (format : OutputFormat) (withSource : Bool) (nodes : List NodeRow) : String :=
  match format with
  | .json => prettyLine (.array (nodes.map nodeJson))
  | .text =>
    if nodes.isEmpty then line "No matching nodes."
    else String.join (nodes.map (nodeText withSource))

mutual

def treeJson : CodeTree → Json
  | .node n relationship children =>
    .object
      [("nodeId", .string n.nodeId), ("name", .string n.name), ("nodeType", .string n.nodeType),
        ("filePath", .string n.filePath), ("startLine", .optional .natural n.startLine),
        ("endLine", .optional .natural n.endLine),
        ("relationship", .optional .string relationship), ("children", .array (treesJson children))]

def treesJson : List CodeTree → List Json
  | [] => []
  | t :: rest => treeJson t :: treesJson rest

end

mutual

/-- A tree in print, two blanks per level. -/
def treeText (level : Nat) : CodeTree → String
  | .node n _ children =>
    line (String.join (List.replicate level "  ") ++ n.name ++ " [" ++ n.nodeType ++ "] " ++
      n.filePath ++ lineRange n) ++ treesText (level + 1) children

def treesText (level : Nat) : List CodeTree → String
  | [] => ""
  | t :: rest => treeText level t ++ treesText level rest

end

-- ================================================================= commands

/-- The name of a repository: the given one, or that of its directory. -/
def repositoryName (repo : Repository) : Work String := do
  match repo.id with
  | some id => return id
  | none =>
    match (← get).lookup repo.path with
    | .error e => throw (.io e.message)
    | .ok (location, _) =>
      match location.getLast? with
      | some name => return name
      | none => throw .noRepositoryName

/-- Opens the store, works with it, and writes it back, also after a fault. -/
def withStore {α : Type} (config : Config) (work : FileSystem → Session α) : Work α := do
  let (store, fs) ← ofFault (openDatabase (← get) config.graph.database)
  set fs
  let (result, service) := ((work fs).run).run { store }
  set (saveDatabase fs config.graph.database service.store)
  ofFault result

/-- Asks the store. -/
def ask {α : Type} (config : Config) (question : Store → α) : Work α :=
  withStore config fun _ => do return question (← get).store

def runMap (config : Config) (format : OutputFormat) (path : Path) (maxTokens : Option Nat)
    (focus : List Path) (mention : List String) (mentionFiles : List Path) : Work String := do
  let fs ← get
  let files ← ofFault (Walk.sourceFiles fs path config.walk.maxFileSize)
  let other := (files.map (·.path)).filter fun p => !p.among focus
  let maker : RepoMap := { root := path, settings := config.map, walk := config.walk }
  let (map, _) := maker.generate fs
    { focus, other, mentionedFiles := mentionFiles, mentionedNames := mention, budget := maxTokens }
  match format with
  | .json =>
    return prettyLine (.object
      [("map", .string map), ("tokens", .natural (maker.counter map)),
        ("files", .natural other.length)])
  | .text => return map

def runIngest (config : Config) (format : OutputFormat) (repo : Repository)
    (owner branch : String) : Work String := do
  let id ← repositoryName repo
  let summary ← withStore config fun fs => ingest fs repo.path id owner config
  match format with
  | .json =>
    return prettyLine (.object
      [("repoId", .string id), ("ownerIdentity", .string owner), ("defaultBranch", .string branch),
        ("nodeCount", .natural summary.nodeCount), ("edgeCount", .natural summary.edgeCount)])
  | .text =>
    return line ("Stored " ++ toString summary.nodeCount ++ " nodes and " ++
      toString summary.edgeCount ++ " edges for " ++ id ++ " (" ++ branch ++ ")")

def runCleanup (config : Config) (format : OutputFormat) (repo : Repository) : Work String := do
  let id ← repositoryName repo
  let removed ← withStore config fun _ => Session.deleteRepo id
  match format with
  | .json =>
    return prettyLine (.object
      [("nodes", .natural removed.nodes), ("edges", .natural removed.edges)])
  | .text =>
    return line ("Removed " ++ toString removed.nodes ++ " nodes and " ++
      toString removed.edges ++ " edges for " ++ id)

def runTree (config : Config) (format : OutputFormat) (id : String) (depth : Nat)
    (repo : Repository) : Work String := do
  let name ← repositoryName repo
  match ← ask config (Traversal.codeTree? · name id depth) with
  | none => throw (.noNode id name)
  | some tree =>
    match format with
    | .json => return prettyLine (treeJson tree)
    | .text => return treeText 0 tree

def runAnnotate (config : Config) (format : OutputFormat) (id text : String)
    (repo : Repository) : Work String := do
  let name ← repositoryName repo
  withStore config fun _ => do
    let service ← get
    match service.store.annotate name id text with
    | .ok store => set { service with store }
    | .error f => throw f
  return match format with
    | .text => line ("Annotated " ++ id)
    | .json => ""

def runQuery (config : Config) (format : OutputFormat) (sql : String) : Work String := do
  let rows ← ofFault (← ask config (Sql.query · sql))
  return match format with
    | .json => prettyLine (.array (rows.map Sql.rowJson))
    | .text => String.join (rows.map fun r => line (Sql.rowJson r).compact)

/-- Where the configuration is when no place is given. -/
def configPath : Path := ⟨".atlas.toml"⟩

/-- The configuration file that a new project starts with. -/
def defaultConfig : String :=
  "# Atlas Configuration\n\n[repomap]\n# Token budget for \x60atlas map\x60\n" ++
  "# map_tokens = 1024\n# Budget multiplier when no focus files are given\n" ++
  "# map_multiplier_no_files = 8\n# Model context window; caps the multiplied budget\n" ++
  "# max_context_window = 128000\n# Map lines are cut to this many characters\n" ++
  "# max_line_length = 100\n# Text placed before the map (counted against the budget)\n" ++
  "# repo_content_prefix = \"Repository map:\\n\x7bother\x7d\"\n\n[walk]\n" ++
  "# Files larger than this many bytes are skipped\n# max_file_size = 1048576\n\n[graph]\n" ++
  "# SQLite database holding persisted graphs\n# database = \".atlas/graph.db\"\n" ++
  "# Nodes or edges written per transaction\n# batch_size = 300\n" ++
  "# Retries for a batch when the database is busy\n# max_retries = 3\n" ++
  "# Backoff step between retries, in milliseconds\n# retry_backoff_ms = 50\n"

def runInit : Work String := do
  let fs ← get
  if fs.contains configPath then throw .configExists
  set (fs.writeFile (fs.workingDirectory ++ [configPath.text]) defaultConfig.toUTF8)
  return line "Created .atlas.toml with default configuration"

/-- Runs a command. -/
def runCommand (config : Config) (format : OutputFormat) : Command → Work String
  | .map path maxTokens focus mention mentionFiles =>
    runMap config format path maxTokens focus mention mentionFiles
  | .ingest repo owner branch => runIngest config format repo owner branch
  | .cleanup repo => runCleanup config format repo
  | .node id name repo => do
    let repoName ← repositoryName repo
    let nodes ← withStore config fun _ => do return (← get).store
    match id, name with
    | some id, _ => return nodesText format true (nodes.node? repoName id).toList
    | none, some name => return nodesText format true (nodes.findByName repoName name)
    | none, none => throw .nothingAskedFor
  | .neighbours ids repo => do
    let name ← repositoryName repo
    return nodesText format false (← ask config (Traversal.neighbours · name ids))
  | .tree id depth repo => runTree config format id depth repo
  | .entryPoints id repo => do
    let name ← repositoryName repo
    return nodesText format false (← ask config (Traversal.entryPoints · name id))
  | .changed file lines repo => do
    let name ← repositoryName repo
    return nodesText format false (← ask config (Traversal.touching · name file lines))
  | .annotate id text repo => runAnnotate config format id text repo
  | .query sql => runQuery config format sql
  | .init => runInit

/-- The configuration: from the file that was named, else from the usual one if
it is there. -/
def loadConfig (named : Option Path) : Work Config := do
  let fs ← get
  match named with
  | some p => ofFault (Config.ofFile fs p)
  | none => if fs.contains configPath then ofFault (Config.ofFile fs configPath) else return {}

/-- What the program prints about itself. -/
def versionText : String := "atlas 0.3.0\n"

/-- Runs the program. Wrong arguments end it with 2, other failures with 1. -/
def run (args : List String) (fs : FileSystem) : Outcome :=
  match read args with
  | .error .usage => ⟨2, "", fs⟩
  | .error .help => ⟨0, "", fs⟩
  | .error .version => ⟨0, versionText, fs⟩
  | .ok invocation =>
    let work : Work String := do
      let config ← loadConfig invocation.config
      runCommand config invocation.format invocation.command
    match (work.run).run fs with
    | (.ok output, fs) => ⟨0, output, fs⟩
    | (.error _, fs) => ⟨1, "", fs⟩

end CodeMap.CommandLine
