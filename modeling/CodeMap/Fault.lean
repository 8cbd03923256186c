/-
Everything that can go wrong, as causes. The wording of each cause is in
`Fault.message`, and the two questions callers ask of a fault, whether a retry
may help and whether there is advice to print, are beside it.
-/
namespace CodeMap

/-- Why an operation failed. -/
inductive Fault where
  | io (text : String)
  | config (text : String)
  | grammar (language text : String)
  | parse (text : String)
  | database (text : String)
  | busy (text : String)
  | batch (stage : String) (index : Nat) (source : Fault)
  | serialization (text : String)
  | toml (text : String)
  | fileNotFound (path : String)
  deriving DecidableEq, Repr, Inhabited

namespace Fault

/-- The text shown for a fault. -/
def message : Fault → String
  | io t => "IO error: " ++ t
  | config t => "configuration error: " ++ t
  | grammar l t => "grammar error for " ++ l ++ ": " ++ t
  | parse t => "parse error: " ++ t
  | database t => "database error: " ++ t
  | busy t => "database busy: " ++ t
  | batch stage i source => stage ++ " batch " ++ toString i ++ " failed: " ++ source.message
  | serialization t => "serialization error: " ++ t
  | toml t => "TOML parse error: " ++ t
  | fileNotFound p => "file not found: " ++ p

/-- Only a busy store may answer differently when asked again. -/
def isTransient : Fault → Bool
  | busy _ => true
  | _ => false

/-- Advice that goes with a fault. -/
def help? : Fault → Option String
  | config _ => some "check .atlas.toml or the --config path"
  | batch _ i _ =>
    some ("batches before index " ++ toString i ++ " were committed; run cleanup before retrying")
  | _ => none

end Fault

end CodeMap
