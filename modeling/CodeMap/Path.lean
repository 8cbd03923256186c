/-
Paths as the library compares them: by their components, never by their
spelling. A doubled separator, a `.` inside a path and a trailing separator
change the spelling only; a leading `.` is a component of its own.

The spelling is kept beside the comparison, since output shows a path the way
it was first written.

Paths are texts, so their names are UTF-8. A file system may hold names that are
not; they are shown with replacement characters, so that different ones may be
shown alike. Whatever is said of paths here is said of paths whose names are
UTF-8.
-/
namespace CodeMap

/-- One component of a path, in the order the components are compared. -/
inductive Component where
  | root
  | here
  | up
  | name (text : String)
  deriving DecidableEq, Repr, Inhabited

namespace Component

/-- Where a component stands among the kinds of components. -/
def rank : Component → Nat
  | root => 0
  | here => 1
  | up => 2
  | name _ => 3

/-- Kinds first, names by their characters. -/
def order : Component → Component → Ordering
  | name a, name b => compare a b
  | a, b => compare a.rank b.rank

/-- A component in print. -/
def word : Component → String
  | root => "/"
  | here => "."
  | up => ".."
  | name n => n

end Component

/-- A path as it was written. -/
structure Path where
  text : String
  deriving DecidableEq, Repr, Inhabited

namespace Path

/-- Splits characters at every `/`. -/
def splitAtSlash : List Char → List (List Char)
  | [] => [[]]
  | c :: rest =>
    match splitAtSlash rest with
    | [] => [[c]]
    | piece :: pieces => if c = '/' then [] :: piece :: pieces else (c :: piece) :: pieces

/-- The component a piece between separators stands for; empty pieces and
`.` stand for none. -/
def pieceComponent (piece : List Char) : Option Component :=
  if piece = [] then none
  else if piece = ['.'] then none
  else if piece = ['.', '.'] then some .up
  else some (.name (String.ofList piece))

/-- The components of a path. -/
def components (p : Path) : List Component :=
  let pieces := splitAtSlash p.text.toList
  let names := pieces.filterMap pieceComponent
  match pieces with
  | [] :: _ :: _ => .root :: names
  | ['.'] :: _ => .here :: names
  | _ => names

/-- The order of component lists: the first difference decides, and a path
comes before everything below it. -/
def orderComponents : List Component → List Component → Ordering
  | [], [] => .eq
  | [], _ :: _ => .lt
  | _ :: _, [] => .gt
  | a :: as, b :: bs => (a.order b).then (orderComponents as bs)

/-- Component-wise order. -/
def order (a b : Path) : Ordering := orderComponents a.components b.components

/-- Two spellings of the same path. -/
def same (a b : Path) : Bool := a.components == b.components

/-- Whether a list holds the path, in any spelling. -/
def among (p : Path) (ps : List Path) : Bool := ps.any (same p)

/-- Drops every path that is directly followed by another spelling of it. -/
def dropRepeated : List Path → List Path
  | [] => []
  | [p] => [p]
  | p :: q :: rest => if p.same q then dropRepeated (q :: rest) else p :: dropRepeated (q :: rest)

/-- A list of paths as a set: in path order, each once, in its last spelling. -/
def sortedSet (ps : List Path) : List Path :=
  dropRepeated (ps.mergeSort fun a b => (a.order b).isLE)

/-- The paths in the order of their first occurrence, each once. -/
def firstUses (ps : List Path) : List Path := ps.eraseDupsBy same

def isAbsolute (p : Path) : Bool := p.components.head? == some .root

/-- The components above the last one, if the last one is not the root. -/
def parent? (p : Path) : Option (List Component) :=
  match p.components.getLast? with
  | none => none
  | some .root => none
  | some _ => some p.components.dropLast

/-- The last component, if it is a name. -/
def fileName? (p : Path) : Option String :=
  match p.components.getLast? with
  | some (.name n) => some n
  | _ => none

/-- What follows the last dot of the file name; a name whose only dot comes
first has no extension. -/
def extension? (p : Path) : Option String :=
  match p.fileName? with
  | none => none
  | some n =>
    let reversed := n.toList.reverse
    let ext := reversed.takeWhile (· ≠ '.')
    match reversed.drop ext.length with
    | [] => none
    | [_] => none
    | _ => some (String.ofList ext.reverse)

/-- `q` as seen from `p`; an absolute `q` stays what it is. -/
def join (p q : Path) : Path :=
  if q.isAbsolute then q
  else if p.text = "" then q
  else if p.text.toList.getLast? = some '/' then ⟨p.text ++ q.text⟩
  else ⟨p.text ++ "/" ++ q.text⟩

/-- All components joined by slashes; the root is a component like the others. -/
def slashed (p : Path) : String := String.intercalate "/" (p.components.map Component.word)

/-- Drops the leading `/`, `//`, `.` pieces of a spelling. -/
def trimSeparators : List (List Char) → List (List Char)
  | [] => []
  | piece :: rest =>
    if piece = [] ∨ piece = ['.'] then trimSeparators rest else piece :: rest

/-- Drops the spelling of the first `n` components; what is left keeps its
own spelling apart from separators at its start. -/
def dropPieces : Nat → List (List Char) → List (List Char)
  | 0, pieces => trimSeparators pieces
  | _ + 1, [] => []
  | n + 1, piece :: rest =>
    if (pieceComponent piece).isSome then dropPieces n rest else dropPieces (n + 1) rest

/-- Pieces joined by single separators. -/
def joinPieces (pieces : List (List Char)) : String :=
  String.intercalate "/" (pieces.map String.ofList)

/-- Drops the trailing `/`, `//`, `.` pieces of a spelling. -/
def trimEnd (pieces : List (List Char)) : List (List Char) :=
  (trimSeparators pieces.reverse).reverse

/-- The path without separators at its end. A root or a `.` in front stays. -/
def trimmed (p : Path) : Path :=
  match splitAtSlash p.text.toList with
  | [] => p
  | first :: rest =>
    if p.isAbsolute then ⟨"/" ++ joinPieces (trimEnd rest)⟩
    else ⟨joinPieces (first :: trimEnd rest)⟩

/-- The rest of the path below `base`, if it lies below it. Below a base without
components it is the whole path, which keeps its root or its `.` in front. -/
def relativeTo? (p base : Path) : Option Path :=
  if base.components.isPrefixOf p.components then
    if base.components = [] then some p.trimmed
    else
      let names := base.components.filter fun c => c != .root && c != .here
      let pieces := splitAtSlash p.text.toList
      some ⟨joinPieces (trimEnd (dropPieces names.length pieces))⟩
  else none

end Path

end CodeMap
