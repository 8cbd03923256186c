/-
A snapshot of a file system: a tree of directories whose leaves are files and
graph databases. Paths are followed from the top or from a working directory,
one component at a time; a component can only be followed inside a directory.
-/
import CodeMap.Path
import CodeMap.Store

namespace CodeMap

/-- A directory with what is in it, a file, or a graph database. -/
inductive Entry where
  | file (bytes : ByteArray)
  | database (store : Store)
  | directory (children : List (String × Entry))
  deriving Inhabited

namespace Entry

def isDirectory : Entry → Bool
  | directory _ => true
  | _ => false

/-- The entry below a directory at a list of names. -/
def below? : Entry → List String → Option Entry
  | e, [] => some e
  | directory children, name :: rest =>
    match children.lookup name with
    | some child => child.below? rest
    | none => none
  | _, _ :: _ => none

/-- Puts a child into a list of children, over one of the same name. -/
def replaceChild (name : String) (child : Entry) : List (String × Entry) → List (String × Entry)
  | [] => [(name, child)]
  | (n, c) :: rest => if n = name then (n, child) :: rest else (n, c) :: replaceChild name child rest

/-- Puts an entry below a directory, making the directories on the way. There
is no way through anything but a directory. -/
def put? (entry : Entry) : List String → Entry → Option Entry
  | [], _ => some entry
  | name :: rest, directory children =>
    ((entry.put? rest ((children.lookup name).getD (directory [])))).map fun child =>
      directory (replaceChild name child children)
  | _ :: _, _ => none

/-- Removes what is below a directory at a list of names. -/
def erase : List String → Entry → Entry
  | [], e => e
  | [name], directory children => directory (children.filter (·.1 ≠ name))
  | name :: rest, directory children =>
    match children.lookup name with
    | some child => directory (replaceChild name (erase rest child) children)
    | none => directory children
  | _, e => e

end Entry

/-- Why a path leads nowhere. -/
inductive LookupFailure where
  | missing
  | notDirectory
  deriving DecidableEq, Repr

def LookupFailure.message : LookupFailure → String
  | missing => "No such file or directory (os error 2)"
  | notDirectory => "Not a directory (os error 20)"

/-- A tree of entries and the directory that relative paths start from. -/
structure FileSystem where
  top : Entry := .directory []
  workingDirectory : List String := []
  deriving Inhabited

namespace FileSystem

/-- The entry at a location. -/
def entry? (fs : FileSystem) (location : List String) : Option Entry := fs.top.below? location

/-- Follows one component. -/
def follow (fs : FileSystem) (location : List String) (c : Component) :
    Except LookupFailure (List String) :=
  match fs.entry? location with
  | none => .error .missing
  | some (.directory _) =>
    match c with
    | .name n => .ok (location ++ [n])
    | .up => .ok location.dropLast
    | .root | .here => .ok location
  | some _ => .error .notDirectory

/-- The location a path leads to; nothing need be there. -/
def locate (fs : FileSystem) (p : Path) : Except LookupFailure (List String) :=
  let start := if p.isAbsolute then [] else fs.workingDirectory
  p.components.foldlM fs.follow start

/-- Whether the spelling asks for a directory. -/
def asksForDirectory (p : Path) : Bool :=
  match p.text.toList.reverse with
  | '/' :: _ => true
  | '.' :: '/' :: _ => true
  | _ => false

/-- What a path leads to, with its location. -/
def lookup (fs : FileSystem) (p : Path) : Except LookupFailure (List String × Entry) := do
  if p.text = "" then throw .missing
  let location ← fs.locate p
  match fs.entry? location with
  | none => throw .missing
  | some e =>
    if asksForDirectory p && !e.isDirectory then throw .notDirectory
    return (location, e)

/-- Whether something is at a path. -/
def contains (fs : FileSystem) (p : Path) : Bool := (fs.lookup p).toOption.isSome

/-- Whether a path leads to a directory. -/
def isDirectory (fs : FileSystem) (p : Path) : Bool :=
  ((fs.lookup p).toOption.map fun (_, e) => e.isDirectory).getD false

/-- Whether a path leads to a file. -/
def isFile (fs : FileSystem) (p : Path) : Bool :=
  ((fs.lookup p).toOption.map fun (_, e) => !e.isDirectory).getD false

/-- The text of a file, or why it cannot be read. -/
def readText (fs : FileSystem) (p : Path) : Except String String :=
  match fs.lookup p with
  | .error e => .error e.message
  | .ok (_, .directory _) => .error "Is a directory (os error 21)"
  | .ok (_, .database _) => .error "stream did not contain valid UTF-8"
  | .ok (_, .file bytes) =>
    match String.fromUTF8? bytes with
    | some text => .ok text
    | none => .error "stream did not contain valid UTF-8"

/-- Puts an entry at a location, making the directories on the way; where there
is no way, nothing changes. -/
def put (fs : FileSystem) (location : List String) (e : Entry) : FileSystem :=
  { fs with top := (e.put? location fs.top).getD fs.top }

/-- Makes a file. -/
def writeFile (fs : FileSystem) (location : List String) (bytes : ByteArray) : FileSystem :=
  fs.put location (.file bytes)

/-- Makes a directory unless it is there. -/
def makeDirectory (fs : FileSystem) (location : List String) : FileSystem :=
  match fs.entry? location with
  | some (.directory _) => fs
  | _ => fs.put location (.directory [])

/-- Removes what is at a location. -/
def remove (fs : FileSystem) (location : List String) : FileSystem :=
  { fs with top := fs.top.erase location }

end FileSystem

end CodeMap
