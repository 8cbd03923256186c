/-
The program. It takes a snapshot of the working directory, of the directories
that its arguments name, and of the ignore files above them, runs the command on
the snapshot, prints what the command prints, and writes the files that the
command changed.
-/
import CodeMap.CommandLine.Run
import CodeMap.FileSystem.Change

namespace CodeMap.Snapshot

/-- How deep directories are read. -/
def maxDepth : Nat := 64

/-- The text of a location. -/
def pathText (location : List String) : String := "/" ++ String.intercalate "/" location

/-- The location of an absolute path. -/
def locationOf (text : String) : List String := (text.splitOn "/").filter (· ≠ "")

/-- Reads a file or a directory with all that is in it. What cannot be read is
left out. -/
def readEntry : Nat → IO.FS.DirEntry → IO (Option Entry)
  | 0, _ => return none
  | depth + 1, e => do
    if ← e.path.isDir then
      match ← e.path.readDir.toBaseIO with
      | .error _ => return none
      | .ok found =>
        let children ← found.toList.mapM fun c => do
          return (← readEntry depth c).map fun child => (c.fileName, child)
        return some (.directory (children.filterMap id))
    else
      match ← (IO.FS.readBinFile e.path).toBaseIO with
      | .error _ => return none
      | .ok bytes => return some (.ofBytes bytes)

/-- Adds what is at a path, if something is there. -/
def add (fs : FileSystem) (path : String) : IO FileSystem := do
  match ← (IO.FS.realPath path).toBaseIO with
  | .error _ => return fs
  | .ok real =>
    match real.parent, real.fileName with
    | some parent, some name =>
      match ← readEntry maxDepth ⟨parent, name⟩ with
      | some e => return fs.put (locationOf real.toString) e
      | none => return fs
    | _, _ => return fs

/-- Files that say what to leave out, and one that shows where a repository
starts. -/
def ignoreFiles : List (List String) :=
  [[".gitignore"], [".ignore"], [".git", "HEAD"], [".git", "info", "exclude"]]

/-- Adds the ignore files of the directories above a location. -/
def addIgnoreFiles (fs : FileSystem) (location : List String) : IO FileSystem := do
  let mut fs := fs
  for depth in List.range location.length do
    for file in ignoreFiles do
      let place := location.take depth ++ file
      match ← (IO.FS.readBinFile (pathText place)).toBaseIO with
      | .ok bytes => fs := fs.writeFile place bytes
      | .error _ => pure ()
  return fs

/-- The files that a command with these arguments may read. -/
def take (args : List String) : IO FileSystem := do
  let here := toString (← IO.currentDir)
  let location := locationOf here
  let start : FileSystem := { workingDirectory := location }
  let fs ← addIgnoreFiles (start.makeDirectory location) location
  let outside := args.filter fun a => a.startsWith "/" || a.startsWith ".."
  (here :: outside).foldlM add fs

/-- Writes a file and the directories it is in. -/
def writeFile (location : List String) (bytes : ByteArray) : IO Unit := do
  IO.FS.createDirAll (pathText location.dropLast)
  IO.FS.writeBinFile (pathText location) bytes

end CodeMap.Snapshot

open CodeMap in
def main (args : List String) : IO UInt32 := do
  let before ← Snapshot.take args
  let outcome := CommandLine.run args before
  for (location, bytes) in before.changes outcome.files do
    Snapshot.writeFile location bytes
  IO.print outcome.output
  return outcome.exitCode.toUInt32
