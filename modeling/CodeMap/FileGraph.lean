/-
The graph of files: a link leads from a file that uses a name to every file
that defines it, and weighs more the more often the name is used. Ranking it
gives the order in which definitions and files enter a map.

The number type of weights and ranks is a parameter, and so is the square root
that dampens the count of uses. How items are put in order depends on ranks
only through comparison, so that part takes the ranks as given.
-/
import CodeMap.PageRank
import CodeMap.Resolution

namespace CodeMap

/-- What the reader of a map is working on. Every list of paths stands for
the set of its members. -/
structure Interest where
  /-- Files in focus; their definitions are never listed. -/
  focus : List Path := []
  /-- The other files a map may show. -/
  other : List Path := []
  /-- Files that were mentioned. -/
  mentionedFiles : List Path := []
  /-- Names that were mentioned. -/
  mentionedNames : List String := []
  deriving Inhabited

namespace Interest

/-- How many files are in focus or may be shown. -/
def fileCount (i : Interest) : Nat := (Path.sortedSet (i.focus ++ i.other)).length

/-- Files that ranks flow back to. -/
def attracts (i : Interest) (p : Path) : Bool := p.among i.focus || p.among i.mentionedFiles

end Interest

/-- An entry of a map. -/
inductive RankedItem where
  | definition (d : Definition)
  | file (p : Path)
  deriving DecidableEq, Repr, Inhabited

def RankedItem.path : RankedItem → Path
  | definition d => d.path
  | file p => p

/-- How much a name counts. -/
inductive Emphasis where
  | mentioned
  | hidden
  | plain
  deriving DecidableEq, Repr

namespace Emphasis

/-- Mentioned names first; a leading underscore makes a name count less. -/
def of (i : Interest) (name : String) : Emphasis :=
  if i.mentionedNames.contains name then mentioned
  else if name.toList.head? = some '_' then hidden
  else plain

def factor {α : Type} [RankNumber α] : Emphasis → α
  | mentioned => RankNumber.ofNat 10
  | hidden => RankNumber.ratio 1 10
  | plain => RankNumber.ofNat 1

end Emphasis

/-- A name with a file that uses it and how often it does. -/
structure Usage where
  name : String
  path : Path
  count : Nat

namespace Usage

/-- By name, then by file. -/
def order (a b : Usage) : Ordering := (compare a.name b.name).then (a.path.order b.path)

/-- Joins neighbours of the same name and file under the first spelling. -/
def merge (join : Nat → Nat → Nat) : List Usage → List Usage
  | [] => []
  | u :: rest =>
    match merge join rest with
    | v :: others =>
      if u.name = v.name ∧ u.path.same v.path then { u with count := join u.count v.count } :: others
      else u :: v :: others
    | [] => [u]

/-- Usages in order, one per name and file. -/
def collect (join : Nat → Nat → Nat) (usages : List Usage) : List Usage :=
  merge join (usages.mergeSort fun a b => (a.order b).isLE)

/-- The usages of a tag list. Without any reference every definition counts as
one use of its own name. -/
def ofTags (tags : List Tag) : List Usage :=
  let references := tags.filterMap Tag.reference?
  if references.isEmpty then
    collect (fun a _ => a)
      ((tags.filterMap Tag.definition?).map fun d => ⟨d.name, d.path, 1⟩)
  else collect (· + ·) (references.map fun r => ⟨r.name, r.path, 1⟩)

end Usage

/-- An edge of the graph of files. -/
structure FileEdge (n : Nat) where
  name : String
  emphasis : Emphasis
  count : Nat
  source : Fin n
  target : Fin n

/-- The graph of files with the definitions it was built from. -/
structure FileGraph where
  files : List Path
  edges : List (FileEdge files.length)
  definitions : List Definition

namespace FileGraph

/-- An edge before its ends are numbered. -/
structure Row where
  name : String
  emphasis : Emphasis
  count : Nat
  user : Path
  definer : Path

/-- The edge of a row between numbered files. -/
def Row.number? (files : List Path) (row : Row) : Option (FileEdge files.length) :=
  match files.findFinIdx? (·.same row.user), files.findFinIdx? (·.same row.definer) with
  | some source, some target => some ⟨row.name, row.emphasis, row.count, source, target⟩
  | _, _ => none

/-- One row per name, file that uses it and file that defines it. -/
def rows (tags : List Tag) (interest : Interest) : List Row :=
  let definitions := tags.filterMap Tag.definition?
  (Usage.ofTags tags).flatMap fun u =>
    (Resolution.definers definitions u.name).map fun definer =>
      ⟨u.name, .of interest u.name, u.count, u.path, definer⟩

/-- The graph of a tag list. Files are numbered in the order in which edges
first mention them. -/
def build (tags : List Tag) (interest : Interest) : FileGraph :=
  let rs := rows tags interest
  let files := Path.firstUses (rs.flatMap fun r => [r.user, r.definer])
  ⟨files, rs.filterMap (Row.number? files), tags.filterMap Tag.definition?⟩

open RankNumber

variable {α : Type} [RankNumber α]

/-- The weight of an edge. -/
def weight {n : Nat} (root : Nat → α) (e : FileEdge n) : α := e.emphasis.factor * root e.count

def links (root : Nat → α) (g : FileGraph) : List (Link α g.files.length) :=
  g.edges.map fun e => ⟨e.source, e.target, weight root e⟩

/-- How strongly each file attracts rank. -/
def personalization (interest : Interest) (g : FileGraph) : List α :=
  let each : α := ratio 100 (max interest.fileCount 1)
  g.files.map fun p => if interest.attracts p then each else zero

/-- The ranks of the files. -/
def ranks (root : Nat → α) (interest : Interest) (g : FileGraph) : Vector α g.files.length :=
  PageRank.ranks (g.links root) (g.personalization interest)

-- ================================================================== scores

/-- A name as one file defines it. -/
structure Group (n : Nat) where
  file : Fin n
  name : String
  deriving DecidableEq

/-- The part of a file's rank that goes along one of its edges. -/
def share {n : Nat} (root : Nat → α) (out ranks : Vector α n) (e : FileEdge n) : α :=
  ranks[e.source] * weight root e / out[e.source]

/-- The groups that edges lead to, in edge order. -/
def groups (g : FileGraph) : List (Group g.files.length) :=
  (g.edges.map fun e => ⟨e.target, e.name⟩).eraseDups

/-- The score of a group: all shares that lead to it, in edge order. -/
def score (root : Nat → α) (g : FileGraph) (out ranks : Vector α g.files.length)
    (group : Group g.files.length) : α :=
  sum ((g.edges.filter fun e => e.target = group.file ∧ e.name = group.name).map
    (share root out ranks))

/-- Every group with its score. -/
def scores (root : Nat → α) (g : FileGraph) (ranks : Vector α g.files.length) :
    List (Group g.files.length × α) :=
  let out := PageRank.outWeights (g.links root)
  g.groups.map fun group => (group, g.score root out ranks group)

-- =================================================================== items

def file (g : FileGraph) (v : Fin g.files.length) : Path := g.files.get v

/-- Groups by falling score, then by file and name. -/
def orderScored (g : FileGraph) (a b : Group g.files.length × α) : Ordering :=
  (orderDescending a.2 b.2).then
    (((g.file a.1.file).order (g.file b.1.file)).then (compare a.1.name b.1.name))

/-- The definitions of a group in the order in which they stand in the file. -/
def definitionsOf (g : FileGraph) (group : Group g.files.length) : List Definition :=
  let all := (Resolution.candidates g.definitions group.name).map (·.definition)
  (all.filter fun d => d.path.same (g.file group.file)).mergeSort fun a b =>
    ((compare a.span.first b.span.first).then (compare a.bytes.1 b.bytes.1)).isLE

/-- Files by falling rank, then by path. -/
def rankedFiles (g : FileGraph) (ranks : Vector α g.files.length) : List Path :=
  let order (a b : Fin g.files.length) : Ordering :=
    (orderDescending ranks[a] ranks[b]).then ((g.file a).order (g.file b))
  ((List.finRange g.files.length).mergeSort fun a b => (order a b).isLE).map g.file

/-- Lists definitions by score, then the files that none of them is in. A
graph without edges ranks nothing. -/
def arrange (interest : Interest) (g : FileGraph) (ranks : Vector α g.files.length)
    (scores : List (Group g.files.length × α)) : List RankedItem :=
  if g.edges.isEmpty then []
  else
    let ordered := (scores.mergeSort fun a b => (g.orderScored a b).isLE).map (·.1)
    let shown := ordered.filter fun group => !(g.file group.file).among interest.focus
    let owners := shown.map fun group => g.file group.file
    let remaining := g.rankedFiles ranks ++ Path.sortedSet interest.other
    let files := Path.firstUses (remaining.filter fun p =>
      !p.among interest.focus && !p.among owners)
    shown.flatMap (fun group => (g.definitionsOf group).map .definition) ++ files.map .file

/-- The entries of a map, most important first. -/
def rankedItems (root : Nat → α) (interest : Interest) (g : FileGraph) : List RankedItem :=
  let ranks := g.ranks root interest
  g.arrange interest ranks (g.scores root ranks)

/-- The square root of a count, as a floating point number. -/
def floatRoot (count : Nat) : Float := (Float.ofNat count).sqrt

end FileGraph

end CodeMap
