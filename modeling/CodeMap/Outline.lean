/-
Outlines: ranked entries printed file by file in path order. A file with
definitions shows an excerpt around their rows, any other entry is a bare path.
-/
import CodeMap.Excerpt
import CodeMap.FileGraph

namespace CodeMap

/-- A file with its content. -/
structure Source where
  path : Path
  content : String
  deriving Repr, Inhabited

/-- One file of an outline: its path and the rows to show, if any definition
was listed. -/
structure Section where
  path : Path
  rows : Option (List Nat)
  deriving Repr

namespace Outline

/-- What an outline is printed with. -/
structure Setting where
  sources : List Source
  /-- Files that are never printed. -/
  focus : List Path
  /-- Lines are cut to this many characters. -/
  width : Nat

/-- The content of a file, if it is among the sources; the last one counts. -/
def Setting.content? (s : Setting) (p : Path) : Option String :=
  (s.sources.reverse.find? fun source => source.path.same p).map (·.content)

/-- The row an entry is about. -/
def row? : RankedItem → Option Nat
  | .definition d => some d.span.first
  | .file _ => none

/-- Adds the row of an entry to the section of its file. An entry without a row
adds nothing. -/
def addRow (item : RankedItem) (s : Section) : Section :=
  match row? item with
  | some row => { s with rows := some (insertRow row (s.rows.getD [])) }
  | none => s

/-- Puts an entry into the section of its file. Sections are kept in path order;
a file that has none gets one under the spelling of the entry. -/
def putItem (item : RankedItem) : List Section → List Section
  | [] => [addRow item ⟨item.path, none⟩]
  | s :: rest =>
    match item.path.order s.path with
    | .lt => addRow item ⟨item.path, none⟩ :: s :: rest
    | .eq => addRow item s :: rest
    | .gt => s :: putItem item rest

/-- The sections of an outline, in path order. -/
def sections (items : List RankedItem) (focus : List Path) : List Section :=
  items.foldl (fun found item => if item.path.among focus then found else putItem item found) []

/-- Prints a section. -/
def printSection (setting : Setting) (s : Section) : StateM Excerpt.Cache String := do
  match s.rows, setting.content? s.path with
  | some rows, some content =>
    let cache ← get
    let (text, cache') := cache.render s.path content rows
    set cache'
    return "\n" ++ s.path.text ++ ":\n" ++ text
  | _, _ => return "\n" ++ s.path.text ++ "\n"

/-- Cuts a line. -/
def cutLine (width : Nat) (line : String) : String := String.ofList (line.toList.take width)

/-- Cuts every line of a text. -/
def cutLines (width : Nat) (text : String) : String :=
  String.join ((Text.lines text).map fun line => cutLine width line ++ "\n")

/-- The outline of some entries. -/
def render (setting : Setting) (items : List RankedItem) : StateM Excerpt.Cache String := do
  let texts ← (sections items setting.focus).mapM (printSection setting)
  return cutLines setting.width (String.join texts)

end Outline

end CodeMap
