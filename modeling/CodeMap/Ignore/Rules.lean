/-
Ignore files: one rule a line, the last rule that covers an entry decides.

Rules of a directory go before the rules of the directories above it. Files
named `.ignore` go before `.gitignore` files, and those before the exclude file
of the repository. The last two count only inside a repository, and only up to
the directory that holds it.
-/
import CodeMap.FileSystem
import CodeMap.Ignore.Glob
import CodeMap.Text.Lines

namespace CodeMap.Ignore

/-- What rules say about an entry. -/
inductive Verdict where
  | ignored
  | kept
  deriving DecidableEq, Repr

structure Rule where
  glob : Glob
  /-- Keeps what it covers instead of ignoring it. -/
  keeps : Bool
  /-- Covers directories only. -/
  directories : Bool
  deriving Repr

/-- A list without the blanks at its end. -/
def trimEnd (cs : List Char) : List Char := (cs.reverse.dropWhile Text.isBlank).reverse

/-- A line without the blanks at its end, unless the last one is escaped. -/
def trimLine (line : List Char) : List Char :=
  match line.reverse with
  | ' ' :: '\\' :: _ => line
  | _ => trimEnd line

/-- Splits off a mark at the start of a line. -/
def splitMark (mark : Char) : List Char → Bool × List Char
  | [] => (false, [])
  | c :: rest => if c = mark then (true, rest) else (false, c :: rest)

/-- Splits off the slash that ends a rule for directories, with its escape. -/
def splitDirectoryMark (line : List Char) : Bool × List Char :=
  match line.reverse with
  | '/' :: '\\' :: rest => (true, rest.reverse)
  | '/' :: rest => (true, rest.reverse)
  | _ => (false, line)

/-- The glob text of a rule. A rule without a separator covers names at any
depth, and a rule that ends in two stars covers what is below a directory but
not the directory. -/
def globText (anchored : Bool) (body : List Char) : List Char :=
  let anyDepth := !anchored && !body.contains '/' && body ≠ ['*', '*']
  let text := if anyDepth then '*' :: '*' :: '/' :: body else body
  if ['*', '*', '/'].isPrefixOf text.reverse then text ++ ['/', '*'] else text

/-- Reads a line; blank lines, comments and malformed rules are none. -/
def Rule.read? (line : List Char) : Option Rule :=
  if line.head? = some '#' then none
  else
    let line := trimLine line
    if line.isEmpty then none
    else
      let (keeps, anchored, body) :=
        match line with
        | '\\' :: '!' :: _ => (false, false, line.drop 1)
        | '\\' :: '#' :: _ => (false, false, line.drop 1)
        | _ =>
          let (keeps, rest) := splitMark '!' line
          let (anchored, body) := splitMark '/' rest
          (keeps, anchored, body)
      let (directories, body) := splitDirectoryMark body
      (Glob.read? (globText anchored body)).map fun glob => ⟨glob, keeps, directories⟩

/-- The texts of lines, up to the first one that is not UTF-8. -/
def readableLines : List (List UInt8) → List String
  | [] => []
  | line :: rest =>
    match String.fromUTF8? ⟨line.toArray⟩ with
    | some text => text :: readableLines rest
    | none => []

/-- The text of a file, up to the first line that is not UTF-8: nothing is read
from there on, and what was read before it counts. -/
def readableText (bytes : ByteArray) : String :=
  String.intercalate "\n" (readableLines (bytes.toList.splitOn 10))

/-- The rules of an ignore file. -/
def readRules (text : String) : List Rule :=
  let lines :=
    match (Text.lines text).map String.toList with
    | first :: rest => first.dropWhile (· = '\uFEFF') :: rest
    | [] => []
  lines.filterMap Rule.read?

/-- What a list of rules says about an entry, given its path seen from where
the rules are. -/
def verdict? (rules : List Rule) (path : List UInt8) (isDirectory : Bool) : Option Verdict :=
  let covering := rules.filter fun r => (!r.directories || isDirectory) && r.glob.covers path
  covering.getLast?.map fun r => if r.keeps then .kept else .ignored

/-- The ignore files of one directory. -/
structure Layer where
  location : List String
  /-- Whether a repository starts here. -/
  hasRepository : Bool
  ignore : List Rule
  gitignore : List Rule
  exclude : List Rule

namespace Layer

/-- The rules of a file below a directory. -/
def rulesAt (directory : Entry) (names : List String) : List Rule :=
  match directory.below? names with
  | some (.file bytes) => readRules (readableText bytes)
  | _ => []

/-- The layer of a directory. -/
def ofDirectory (location : List String) (directory : Entry) : Layer where
  location := location
  hasRepository := (directory.below? [".git"]).isSome
  ignore := rulesAt directory [".ignore"]
  gitignore := rulesAt directory [".gitignore"]
  exclude := rulesAt directory [".git", "info", "exclude"]

/-- What one kind of rules of the layer says about an entry at a location. -/
def verdict? (kind : Layer → List Rule) (location : List String) (isDirectory : Bool)
    (l : Layer) : Option Verdict :=
  let names := location.drop l.location.length
  Ignore.verdict? (kind l) (String.intercalate "/" names).toUTF8.toList isDirectory

end Layer

/-- The layers up to the first one that has a repository. -/
def upToRepository : List Layer → List Layer
  | [] => []
  | l :: rest => if l.hasRepository then [l] else l :: upToRepository rest

/-- What layers, innermost first, say about an entry. -/
def verdictOf (layers : List Layer) (location : List String) (isDirectory : Bool) :
    Option Verdict :=
  let within := if layers.any (·.hasRepository) then upToRepository layers else []
  let first (ls : List Layer) (kind : Layer → List Rule) : Option Verdict :=
    ls.findSome? (Layer.verdict? kind location isDirectory)
  (first layers (·.ignore)).or ((first within (·.gitignore)).or (first within (·.exclude)))

/-- Whether an entry is passed over: by the rules, or because its name starts
with a dot and no rule keeps it. -/
def skips (layers : List Layer) (location : List String) (isDirectory : Bool) : Bool :=
  match verdictOf layers location isDirectory with
  | some .ignored => true
  | some .kept => false
  | none => ((location.getLast?.map fun n => n.toList.head? == some '.')).getD false

end CodeMap.Ignore
