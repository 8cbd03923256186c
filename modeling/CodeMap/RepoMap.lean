/-
Repository maps: the outline of the most important definitions that fits a
token budget.

A map is made afresh for every request: the excerpts of earlier requests are
dropped before anything else happens.
-/
import CodeMap.Budget
import CodeMap.Config
import CodeMap.Limits
import CodeMap.Outline
import CodeMap.Walk

namespace CodeMap

/-- What a map is asked for. Paths are absolute or seen from the root. -/
structure MapRequest where
  focus : List Path := []
  other : List Path := []
  mentionedFiles : List Path := []
  mentionedNames : List String := []
  /-- Token budget; the settings have one for requests without. -/
  budget : Option Nat := none
  deriving Inhabited

namespace RepoMap

/-- Room that is left for the rest of a prompt. -/
def windowPadding : Nat := 4096

/-- The largest budget there is. -/
def maxBudget : Nat := maxUnsigned64

/-- The budget of a request. Without files in focus it is raised as far as the
context window allows. -/
def effectiveBudget (settings : MapSettings) (request : MapRequest) : Nat :=
  let budget := request.budget.getD settings.mapTokens
  match settings.contextWindow with
  | some window =>
    if request.focus.isEmpty ∧ 0 < budget then
      min (min (budget * settings.multiplier) maxBudget) (window - windowPadding)
    else budget
  | none => budget

/-- Replaces every occurrence of a word, from left to right. -/
def replaceWord (word by_ : List Char) : Nat → List Char → List Char
  | 0, cs => cs
  | _, [] => []
  | fuel + 1, c :: rest =>
    if word.isPrefixOf (c :: rest) then by_ ++ replaceWord word by_ fuel ((c :: rest).drop word.length)
    else c :: replaceWord word by_ fuel rest

/-- The place in a preface that says whether other files are in focus. -/
def otherMark : List Char := "\x7bother\x7d".toList

/-- The text in front of a map. -/
def preface? (settings : MapSettings) (hasFocus : Bool) : Option String :=
  settings.preface.map fun template =>
    let other := if hasFocus then "other " else ""
    String.ofList (replaceWord otherMark other.toList template.length template.toList)

/-- A path seen from the root. -/
def relative (root p : Path) : Path := (p.relativeTo? root).getD p

/-- Reads the files of a request that are usable. -/
def load (fs : FileSystem) (root : Path) (maxSize : Nat) (paths : List Path) : List SourceFile :=
  let full := (paths.map (Walk.fromRoot root)).filter fs.isFile
  full.filterMap fun p => Walk.readSource? fs root p maxSize

/-- Files in path order, each once: sorting leaves files of one path in the order
in which they were given, and of such neighbours the first is kept. -/
def distinctFiles (files : List SourceFile) : List SourceFile :=
  (files.mergeSort fun a b => (a.path.order b.path).isLE).eraseRepsBy fun a b => a.path.same b.path

/-- What a map is printed from. -/
structure Material where
  interest : Interest
  files : List SourceFile

/-- Reads the files of a request. -/
def gather (fs : FileSystem) (root : Path) (maxSize : Nat) (request : MapRequest) : Material :=
  let focus := load fs root maxSize request.focus
  let other := load fs root maxSize request.other
  { interest :=
      { focus := focus.map (·.path)
        other := other.map (·.path)
        mentionedFiles := request.mentionedFiles.map (relative root)
        mentionedNames := request.mentionedNames }
    files := distinctFiles (focus ++ other) }

/-- The entries of a map, most important first. -/
def rankedItems (m : Material) : List RankedItem :=
  let tags := m.files.flatMap fun f => extractTags f.path f.content
  (FileGraph.build tags m.interest).rankedItems FileGraph.floatRoot m.interest

/-- Prints as many entries as the budget allows. -/
def print (settings : MapSettings) (count : TokenCounter) (budget : Nat) (m : Material)
    (items : List RankedItem) : StateM Excerpt.Cache String := do
  let preface := preface? settings (!m.interest.focus.isEmpty)
  let prefaceTokens := (preface.map count).getD 0
  let setting : Outline.Setting :=
    { sources := m.files.map fun f => ⟨f.path, f.content⟩
      focus := m.interest.focus
      width := settings.maxLineLength }
  let map ← Budget.fit count (budget - prefaceTokens) items.length fun n =>
    Outline.render setting (items.take n)
  return if map = "" then "" else (preface.getD "") ++ map

end RepoMap

/-- A maker of maps for one root, with the excerpts of its last map. -/
structure RepoMap where
  root : Path
  settings : MapSettings := {}
  walk : WalkSettings := {}
  counter : TokenCounter := .approximate
  cache : Excerpt.Cache := {}

namespace RepoMap

/-- The map of a request. -/
def generate (maker : RepoMap) (fs : FileSystem) (request : MapRequest) : String × RepoMap :=
  let cleared : RepoMap := { maker with cache := {} }
  let budget := effectiveBudget maker.settings request
  if budget = 0 then ("", cleared)
  else
    let m := gather fs maker.root maker.walk.maxFileSize request
    let items := rankedItems m
    if items.isEmpty then ("", cleared)
    else
      let (map, cache) := (print maker.settings maker.counter budget m items).run cleared.cache
      (map, { cleared with cache })

/-- The map of a request with default settings. -/
def build (fs : FileSystem) (root : Path) (request : MapRequest) : String :=
  (({ root } : RepoMap).generate fs request).1

end RepoMap

end CodeMap
