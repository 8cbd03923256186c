/-
Graph databases as files. Opening one makes it, with the directories above it,
unless it is there.
-/
import CodeMap.FileSystem

namespace CodeMap

/-- Makes the directory a database is in. A directory that is there is left
alone; the first thing in the way that is no directory is an error. -/
def makeParents (fs : FileSystem) (p : Path) : Except String FileSystem :=
  match p.parent? with
  | none | some [] => .ok fs
  | some parent =>
    let start := if p.isAbsolute then [] else fs.workingDirectory
    let made (state : FileSystem × List String) (c : Component) :
        Except String (FileSystem × List String) :=
      let (fs, location) := state
      match c with
      | .root | .here => .ok state
      | .up => .ok (fs, location.dropLast)
      | .name n =>
        let next := location ++ [n]
        match fs.entry? location, fs.entry? next with
        | some (.directory _), some _ => .ok (fs, next)
        | some (.directory _), none => .ok (fs.makeDirectory next, next)
        | _, _ => .error LookupFailure.notDirectory.message
    match parent.foldlM made (fs, start) with
    | .error why => .error why
    | .ok (fs, location) =>
      match fs.entry? location with
      | some (.directory _) => .ok fs
      | _ => .error "File exists (os error 17)"

/-- Opens the database at a path. -/
def openDatabase (fs : FileSystem) (p : Path) : Except Fault (Store × FileSystem) :=
  let fail (why : String) : Except Fault (Store × FileSystem) := .error (.database why)
  match makeParents fs p with
  | .error why => fail ("failed to create graph directory: " ++ why)
  | .ok fs =>
    match fs.locate p with
    | .error _ => fail ("failed to open database: unable to open database file: " ++ p.text)
    | .ok location =>
      match fs.entry? location with
      | none => .ok ({}, fs.put location (.database {}))
      | some (.database store) => .ok (store, fs)
      | some (.file bytes) =>
        if bytes.size = 0 then .ok ({}, fs.put location (.database {}))
        else fail "failed to create schema: file is not a database"
      | some (.directory _) =>
        fail ("failed to open database: unable to open database file: " ++ p.text)

/-- Writes a store back to the database it was opened from. -/
def saveDatabase (fs : FileSystem) (p : Path) (store : Store) : FileSystem :=
  match fs.locate p with
  | .ok location => fs.put location (.database store)
  | .error _ => fs

end CodeMap
