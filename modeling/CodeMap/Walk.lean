/-
Reading the source files of a directory. A file is usable if it is not too
large, is UTF-8 text, and holds no zero byte near its start.
-/
import CodeMap.CodeGraph
import CodeMap.Ignore.Rules

namespace CodeMap.Walk

/-- How far into a file a zero byte makes it binary. -/
def binaryWindow : Nat := 8192

/-- The text of a usable file. -/
def usableText? (maxSize : Nat) (bytes : ByteArray) : Option String :=
  if bytes.size ≤ maxSize then
    (String.fromUTF8? bytes).filter fun _ => !(bytes.extract 0 binaryWindow).toList.contains 0
  else none

/-- A path as seen from a root. -/
def fromRoot (root p : Path) : Path := if p.isAbsolute then p else root.join p

/-- Reads one file, given by an absolute path or one below the root; none if it
is not usable. -/
def readSource? (fs : FileSystem) (root p : Path) (maxSize : Nat) : Option SourceFile :=
  let full := fromRoot root p
  match fs.lookup full with
  | .ok (_, .file bytes) =>
    (usableText? maxSize bytes).map fun content =>
      let path := (full.relativeTo? root).getD full
      ⟨path, full, .ofPath path, content⟩
  | _ => none

mutual

/-- Locations of the files below an entry, seen from the start of the walk.
`names` is where the entry is, `layers` are the ignore files above it. -/
def filesBelow (layers : List Ignore.Layer) (location names : List String) :
    Entry → List (List String)
  | .file _ => [names]
  | .database _ => [names]
  | .directory children =>
    let layer := Ignore.Layer.ofDirectory location (.directory children)
    filesAmong (layer :: layers) location names children

/-- Locations of the files below the children of a directory. -/
def filesAmong (layers : List Ignore.Layer) (location names : List String) :
    List (String × Entry) → List (List String)
  | [] => []
  | (name, child) :: rest =>
    let here := location ++ [name]
    (if Ignore.skips layers here child.isDirectory then []
      else filesBelow layers here (names ++ [name]) child) ++
    filesAmong layers location names rest

end

/-- The ignore files of the directories above a location, innermost first. -/
def layersAbove (fs : FileSystem) (location : List String) : List Ignore.Layer :=
  ((List.range location.length).reverse).filterMap fun n =>
    (fs.entry? (location.take n)).map (Ignore.Layer.ofDirectory (location.take n))

/-- The usable files below a root, in path order. -/
def sourceFiles (fs : FileSystem) (root : Path) (maxSize : Nat) :
    Except Fault (List SourceFile) :=
  match fs.lookup root with
  | .ok (location, .directory children) =>
    let found := filesBelow (layersAbove fs location) location [] (.directory children)
    let files := found.filterMap fun names =>
      readSource? fs root (root.join ⟨String.intercalate "/" names⟩) maxSize
    .ok (files.mergeSort fun a b => (a.path.order b.path).isLE)
  | _ => .error (.fileNotFound root.text)

end CodeMap.Walk
