/-
The commands and how arguments name them.
-/
import CodeMap.CommandLine.Arguments
import CodeMap.OutputFormat
import CodeMap.Path

namespace CodeMap.CommandLine

/-- The repository a command is about: where it is, and its name in the store
if that is not the name of its directory. -/
structure Repository where
  path : Path := ⟨"."⟩
  id : Option String := none

inductive Command where
  | map (path : Path) (maxTokens : Option Nat) (focus : List Path) (mention : List String)
      (mentionFiles : List Path)
  | ingest (repo : Repository) (owner branch : String)
  | cleanup (repo : Repository)
  | node (id name : Option String) (repo : Repository)
  | neighbours (ids : List String) (repo : Repository)
  | tree (id : String) (depth : Nat) (repo : Repository)
  | entryPoints (id : String) (repo : Repository)
  | changed (file : String) (lines : List Nat) (repo : Repository)
  | annotate (id text : String) (repo : Repository)
  | query (sql : String)
  | init

/-- A command with the options that all commands share. -/
structure Invocation where
  command : Command
  config : Option Path
  format : OutputFormat

/-- Options of every command. -/
def sharedOptions : List String := ["config", "format"]

def sharedFlags : List (String × Char) := [("verbose", 'v')]

/-- What stands before a command. -/
def outerShape : Shape := ⟨sharedOptions, [], sharedFlags, true⟩

/-- Options of commands, apart from the shared ones, and those of them that may
be given more than once. -/
def commandOptions : List (String × List String × List String) :=
  [("map", ["path", "max-tokens", "focus", "mention", "mention-file"],
      ["focus", "mention", "mention-file"]),
    ("ingest", ["path", "repo-id", "owner", "branch"], []),
    ("cleanup", ["path", "repo-id"], []),
    ("node", ["name", "path", "repo-id"], []),
    ("neighbours", ["path", "repo-id"], []),
    ("tree", ["depth", "path", "repo-id"], []),
    ("entry-points", ["path", "repo-id"], []),
    ("changed", ["file", "lines", "path", "repo-id"], ["lines"]),
    ("annotate", ["path", "repo-id"], []),
    ("query", [], []),
    ("init", [], [])]

/-- The shape of a command. -/
def shape? (command : String) : Option Shape :=
  (commandOptions.lookup command).map fun (options, repeatable) =>
    ⟨sharedOptions ++ options, repeatable, sharedFlags, false⟩

/-- A path; the empty text is none. -/
def readPath (text : String) : Except Stop Path := if text = "" then .error .usage else .ok ⟨text⟩

def readWhole (text : String) : Except Stop Nat :=
  match whole? text with
  | some n => .ok n
  | none => .error .usage

def readRepository (a : Arguments) : Except Stop Repository := do
  return { path := ← readPath ((a.value? "path").getD "."), id := a.value? "repo-id" }

/-- Reads a command from its name and its arguments. -/
def readCommand (name : String) (a : Arguments) : Except Stop Command := do
  let repo := readRepository a
  match name, a.positional with
  | "map", [] =>
    let maxTokens ← (a.value? "max-tokens").mapM readWhole
    return .map (← readPath ((a.value? "path").getD ".")) maxTokens
      (← (a.values "focus").mapM readPath) (a.values "mention")
      (← (a.values "mention-file").mapM readPath)
  | "ingest", [] =>
    return .ingest (← repo) ((a.value? "owner").getD "local") ((a.value? "branch").getD "main")
  | "cleanup", [] => return .cleanup (← repo)
  | "node", [] => return .node none (a.value? "name") (← repo)
  | "node", [id] =>
    if (a.value? "name").isSome then throw .usage
    return .node (some id) none (← repo)
  | "neighbours", id :: ids => return .neighbours (id :: ids) (← repo)
  | "tree", [id] => return .tree id (← readWhole ((a.value? "depth").getD "3")) (← repo)
  | "entry-points", [id] => return .entryPoints id (← repo)
  | "changed", [] =>
    let texts := (a.values "lines").flatMap fun v => (splitCommas v.toList).map String.ofList
    match a.value? "file" with
    | some file =>
      if texts.isEmpty then throw .usage
      return .changed file (← texts.mapM readWhole) (← repo)
    | none => throw .usage
  | "annotate", [id, text] => return .annotate id text (← repo)
  | "query", [sql] => return .query sql
  | "init", [] => return .init
  | _, _ => throw .usage

/-- The value of a shared option: the one after the command counts. -/
def sharedValue? (outer inner : Arguments) (name : String) : Option String :=
  (inner.value? name).or (outer.value? name)

/-- Reads the arguments of the program. -/
def read (args : List String) : Except Stop Invocation := do
  let (outer, rest) ← scan outerShape true none args {}
  match rest with
  | [] => throw .usage
  | name :: rest =>
    match shape? name with
    | none => if name = "help" then throw .help else throw .usage
    | some shape =>
      let (inner, _) ← scan shape false none rest {}
      let command ← readCommand name inner
      let config ← (sharedValue? outer inner "config").mapM readPath
      let formats := outer.values "format" ++ inner.values "format"
      let readFormat (text : String) : Except Stop OutputFormat :=
        match OutputFormat.ofText text with
        | .ok f => .ok f
        | .error _ => .error .usage
      let given ← formats.mapM readFormat
      return ⟨command, config, given.getLast?.getD .text⟩

end CodeMap.CommandLine
