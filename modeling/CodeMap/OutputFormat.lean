/-
How the command line prints its answers.
-/
import CodeMap.Text.Lowercase

namespace CodeMap

/-- Plain lines or JSON. -/
inductive OutputFormat where
  | text
  | json
  deriving DecidableEq, Repr, Inhabited

namespace OutputFormat

def name : OutputFormat → String
  | text => "text"
  | json => "json"

/-- Reads a format in any case; a word that is none is reported in lower case. -/
def ofText (s : String) : Except String OutputFormat :=
  let word := Text.lowercase s
  if word = "text" then .ok text
  else if word = "json" then .ok json
  else .error ("unknown output format: " ++ word)

end OutputFormat

end CodeMap
