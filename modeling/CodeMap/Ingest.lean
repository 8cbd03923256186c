/-
Ingestion: the code graph of a directory replaces whatever was stored for a
repository.
-/
import CodeMap.Config
import CodeMap.Persist
import CodeMap.Walk

namespace CodeMap

/-- The code graph of a directory. -/
def CodeGraph.ofRoot (fs : FileSystem) (root : Path) (settings : WalkSettings) :
    Except Fault CodeGraph :=
  (Walk.sourceFiles fs root settings.maxFileSize).map CodeGraph.build

/-- Builds the graph of a directory, removes what was stored for the repository
and writes the graph. Nothing is removed if the graph cannot be built. -/
def ingest (fs : FileSystem) (root : Path) (repo owner : String) (config : Config) :
    Session PersistSummary :=
  match CodeGraph.ofRoot fs root config.walk with
  | .error fault => throw fault
  | .ok graph => do
    let _ ← Session.deleteRepo repo
    Persist.write graph repo owner config.graph.batchSize config.graph.maxRetries

end CodeMap
