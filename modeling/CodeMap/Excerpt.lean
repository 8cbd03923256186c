/-
Excerpts: the rows of interest of a file together with the header row of every
function or class around them, everything else elided.

Which rows are shown is settled first, as a set of rows; printing then goes over
the lines once. The set grows in two steps. The first adds, for each
function or class that holds a shown row, the row on which it starts. The
second closes gaps of a single row and keeps the blank row that follows a shown
one.
-/
import CodeMap.Grammar
import CodeMap.Text.Lines

namespace CodeMap

/-- Mark in front of every shown line. -/
def lineMark : String := "\u2502"

/-- What stands for a run of elided lines. -/
def elision : String := "\u22ee..."

/-- Puts a row into a set of rows, which stand in increasing order. -/
def insertRow (row : Nat) : List Nat → List Nat
  | [] => [row]
  | first :: rest =>
    if row < first then row :: first :: rest
    else if row = first then first :: rest
    else first :: insertRow row rest

/-- Rows in increasing order, each once. -/
def sortedRows (rows : List Nat) : List Nat := rows.foldr insertRow []

namespace Excerpt

/-- Row ranges of the functions and classes of a file. -/
def scopeRanges (path : Path) (content : String) : List (Nat × Nat) :=
  let l := Language.ofPath path
  match l.parse? content with
  | some tree => tree.rowRanges fun kind => (l.categoryOfKind? kind).isSome
  | none => []

/-- Adds the first row of a range that holds a shown row. -/
def addHeader (shown : List Nat) (range : Nat × Nat) : List Nat :=
  if shown.any fun row => range.1 ≤ row && row ≤ range.2 then insertRow range.1 shown else shown

/-- Adds the header rows of the ranges, one range after the other. -/
def addHeaders (ranges : List (Nat × Nat)) (shown : List Nat) : List Nat :=
  ranges.foldl addHeader shown

/-- Closes the gap between two shown rows that follow each other, if it is a
single row. -/
def closeSingle (closed : List Nat) (pair : Nat × Nat) : List Nat :=
  if pair.2 - pair.1 = 2 then insertRow (pair.1 + 1) closed else closed

/-- Whether a row holds text and the row below it is blank, but not the last. -/
def blankBelow (lines : Array String) (row : Nat) : Bool :=
  row + 2 < lines.size &&
  !Text.isBlankText (lines.getD row "") && Text.isBlankText (lines.getD (row + 1) "")

/-- Adds the blank row below a row of text. -/
def keepBlank (lines : Array String) (closed : List Nat) (row : Nat) : List Nat :=
  if blankBelow lines row then insertRow (row + 1) closed else closed

/-- The shown rows after both kinds of small gaps are closed: first the single
rows between neighbours, then the blank rows below those that are shown by
then. -/
def closeGaps (lines : Array String) (shown : List Nat) : List Nat :=
  let sorted := sortedRows shown
  let closed := (sorted.zip sorted.tail).foldl closeSingle sorted
  closed.foldl (keepBlank lines) closed

/-- The rows of a file that an excerpt around `rows` shows. -/
def shownRows (path : Path) (content : String) (rows : List Nat) : List Nat :=
  let lines := (Text.lines content).toArray
  closeGaps lines (addHeaders (scopeRanges path content) (rows.filter (· < lines.size)))

/-- Prints one line behind what is printed already. `dots` says whether an elision
is due if the line is elided: after the first line of a run it is not. -/
def printLine (shown : List Nat) : Bool × String → String × Nat → Bool × String
  | (dots, out), (line, row) =>
    if shown.contains row then (true, out ++ lineMark ++ line ++ "\n")
    else if dots then (false, out ++ elision ++ "\n")
    else (false, out)

/-- The excerpt of a file around some of its rows. -/
def render (path : Path) (content : String) (rows : List Nat) : String :=
  let shown := shownRows path content rows
  ((Text.lines content).zipIdx.foldl (printLine shown) (!shown.contains 0, "")).2

/-- Excerpts that were rendered before, by file and rows. -/
structure Cache where
  entries : List ((Path × List Nat) × String) := []
  /-- Lookups that found an excerpt. -/
  hits : Nat := 0
  deriving Inhabited

namespace Cache

/-- The excerpt kept for a file and rows. The file's content is no part of the
key. -/
def find? (cache : Cache) (path : Path) (rows : List Nat) : Option String :=
  (cache.entries.find? fun e => e.1.1.same path && e.1.2 == rows).map (·.2)

def size (cache : Cache) : Nat := cache.entries.length

/-- The excerpt of a file around `rows`, rendered once per file and rows. -/
def render (cache : Cache) (path : Path) (content : String) (rows : List Nat) :
    String × Cache :=
  match cache.find? path rows with
  | some text => (text, { cache with hits := cache.hits + 1 })
  | none =>
    let text := Excerpt.render path content rows
    (text, { cache with entries := ((path, rows), text) :: cache.entries })

end Cache

end Excerpt

end CodeMap
