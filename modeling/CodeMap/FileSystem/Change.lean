/-
Snapshots and what is kept on disk: the bytes of an entry, the entry of some
bytes, and the files that differ between two snapshots.
-/
import CodeMap.FileSystem
import CodeMap.Store.Archive

namespace CodeMap

namespace Entry

/-- A file's bytes as an entry: an archive is a database. -/
def ofBytes (bytes : ByteArray) : Entry :=
  match (String.fromUTF8? bytes).bind Archive.read? with
  | some store => database store
  | none => file bytes

/-- What is kept on disk of an entry; directories have no bytes. -/
def bytes? : Entry → Option ByteArray
  | file bytes => some bytes
  | database store => some (Archive.write store).toUTF8
  | directory _ => none

mutual

/-- Every file below an entry, with its location and its bytes. -/
def files (location : List String) : Entry → List (List String × ByteArray)
  | file bytes => [(location, bytes)]
  | database store => [(location, (Archive.write store).toUTF8)]
  | directory children => filesOf location children

def filesOf (location : List String) : List (String × Entry) → List (List String × ByteArray)
  | [] => []
  | (name, e) :: rest => e.files (location ++ [name]) ++ filesOf location rest

end

end Entry

/-- The files that are new or different in the second snapshot. -/
def FileSystem.changes (before after : FileSystem) : List (List String × ByteArray) :=
  (after.top.files []).filter fun (location, bytes) =>
    ((before.entry? location).bind Entry.bytes?).all fun old => old.data != bytes.data

end CodeMap
