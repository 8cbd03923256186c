/-
Identity of stored nodes: a digest of the owner and the qualified name, so
that reading the same files again gives the same ids.
-/
import CodeMap.Sha256

namespace CodeMap

/-- The id of the node of an owner with a qualified name. -/
def nodeId (owner qualified : String) : String := Sha256.hexDigest (owner ++ ":" ++ qualified)

end CodeMap
