/-
Settings and how they are read from a configuration file. Every setting has a
default, unknown keys are passed over, and two settings have to be positive.
-/
import CodeMap.Fault
import CodeMap.FileSystem
import CodeMap.Limits
import CodeMap.Path
import CodeMap.Toml.Document

namespace CodeMap

/-- Settings of maps. -/
structure MapSettings where
  /-- Token budget when a request names none. -/
  mapTokens : Nat := 1024
  /-- What the budget is multiplied by when no file is in focus. -/
  multiplier : Nat := 8
  /-- Tokens that a prompt may have; without it the budget is not multiplied. -/
  contextWindow : Option Nat := none
  /-- Lines of a map are cut to this many characters. -/
  maxLineLength : Nat := 100
  /-- Text in front of a map. -/
  preface : Option String := none
  deriving DecidableEq, Repr, Inhabited

/-- Settings of walks. -/
structure WalkSettings where
  /-- Larger files are passed over. -/
  maxFileSize : Nat := 1048576
  deriving DecidableEq, Repr, Inhabited

/-- Settings of the graph store. -/
structure GraphSettings where
  database : Path := ⟨".atlas/graph.db"⟩
  /-- Rows per insert call. -/
  batchSize : Nat := 300
  /-- How often a failed batch is offered again. -/
  maxRetries : Nat := 3
  /-- Pause before a batch is offered again, in milliseconds. -/
  retryPause : Nat := 50
  deriving DecidableEq, Repr, Inhabited

structure Config where
  map : MapSettings := {}
  walk : WalkSettings := {}
  graph : GraphSettings := {}
  deriving DecidableEq, Repr, Inhabited

namespace Config

/-- The fields of a section: by name in a table, by position in an array. -/
structure Fields where
  get? : Nat → String → Option Toml
  /-- In an array no field can be left out that has no default. -/
  positional : Bool

/-- What a document says is not what a setting needs. -/
abbrev Read := Except Unit

/-- The fields of a section; an absent section has none. -/
def fields (document : Toml) (name : String) : Read Fields :=
  match document with
  | .table _ entries =>
    match entries.lookup name with
    | none => .ok ⟨fun _ _ => none, false⟩
    | some (.table _ inner) => .ok ⟨fun _ key => inner.lookup key, false⟩
    | some (.inlineTable inner) => .ok ⟨fun _ key => inner.lookup key, false⟩
    | some (.array items) => .ok ⟨fun i _ => items[i]?, true⟩
    | some (.tables items) => .ok ⟨fun i _ => items[i]?, true⟩
    | some _ => .error ()
  | _ => .error ()

/-- A whole number of at most `bound`. -/
def wholeUpTo (bound : Nat) : Toml → Read Nat
  | .integer n => if 0 ≤ n ∧ n ≤ bound then .ok n.toNat else .error ()
  | _ => .error ()

/-- A whole number; documents hold none that is too large. -/
def whole : Toml → Read Nat := wholeUpTo maxSigned64

def words : Toml → Read String
  | .string s => .ok s
  | _ => .error ()

/-- A field with a default. -/
def Fields.getD {α : Type} (f : Fields) (i : Nat) (name : String) (read : Toml → Read α) (d : α) :
    Read α :=
  match f.get? i name with
  | some v => read v
  | none => .ok d

/-- A field that may be absent. -/
def Fields.optional {α : Type} (f : Fields) (i : Nat) (name : String) (read : Toml → Read α) :
    Read (Option α) :=
  match f.get? i name with
  | some v => some <$> read v
  | none => if f.positional then .error () else .ok none

def readMap (f : Fields) : Read MapSettings := do
  return {
    mapTokens := ← f.getD 0 "map_tokens" whole 1024
    multiplier := ← f.getD 1 "map_multiplier_no_files" whole 8
    contextWindow := ← f.optional 2 "max_context_window" whole
    maxLineLength := ← f.getD 3 "max_line_length" whole 100
    preface := ← f.optional 4 "repo_content_prefix" words }

def readWalk (f : Fields) : Read WalkSettings := do
  return { maxFileSize := ← f.getD 0 "max_file_size" whole 1048576 }

def readGraph (f : Fields) : Read GraphSettings := do
  return {
    database := ⟨← f.getD 0 "database" words ".atlas/graph.db"⟩
    batchSize := ← f.getD 1 "batch_size" whole 300
    maxRetries := ← f.getD 2 "max_retries" (wholeUpTo maxUnsigned32) 3
    retryPause := ← f.getD 3 "retry_backoff_ms" whole 50 }

def ofDocument (document : Toml) : Read Config := do
  return {
    map := ← readMap (← fields document "repomap")
    walk := ← readWalk (← fields document "walk")
    graph := ← readGraph (← fields document "graph") }

/-- Refuses settings that have to be positive. -/
def validate (c : Config) : Except Fault Config :=
  if c.graph.batchSize = 0 then .error (.config "graph.batch_size must be positive")
  else if c.map.maxLineLength = 0 then .error (.config "repomap.max_line_length must be positive")
  else .ok c

/-- Reads settings from the text of a configuration file. -/
def ofText (text : String) : Except Fault Config :=
  match Toml.parse? text with
  | none => .error (.toml "malformed document")
  | some document =>
    match ofDocument document with
    | .ok c => validate c
    | .error () => .error (.toml "unexpected value")

/-- Reads settings from a configuration file. -/
def ofFile (fs : FileSystem) (p : Path) : Except Fault Config :=
  match fs.readText p with
  | .ok text => ofText text
  | .error why => .error (.io why)

end Config

end CodeMap
