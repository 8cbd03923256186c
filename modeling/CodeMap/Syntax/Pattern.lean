/-
Patterns that pick the name nodes of definitions and references out of a
syntax tree. A pattern is read from the name node outwards: the first step is
about the node itself, the next about its parent, and so on.
-/
import CodeMap.Syntax.Tree

namespace CodeMap.Syntax

/-- What a pattern asks of one node on the way up. -/
structure Step where
  /-- The node's kind; any kind if absent. -/
  kind : Option String
  /-- The field the node fills in its parent; any if absent. -/
  field : Option String
  /-- Fields the node must have, each with the kinds that may fill it; no kinds
  means any. -/
  needs : List (String × List String)

namespace Step

/-- A node of a kind. -/
def ofKind (kind : String) : Step := ⟨some kind, none, []⟩

/-- A node of a kind that fills a field. -/
def filling (field kind : String) : Step := ⟨some kind, some field, []⟩

/-- The same step for a node that has a field filled by one of the kinds. -/
def needing (s : Step) (field : String) (kinds : List String) : Step :=
  { s with needs := (field, kinds) :: s.needs }

def accepts (s : Step) (t : Tree) : Bool :=
  s.kind.all (· == t.kind) &&
  (match s.field with
    | none => true
    | some f => t.field == some f) &&
  s.needs.all fun (f, kinds) =>
    t.children.any fun c => c.field == some f && (kinds.isEmpty || kinds.contains c.kind)

end Step

/-- A pattern: what a name node it picks stands for, and its surroundings. -/
structure Pattern where
  /-- Definitions and references are captured by different patterns. -/
  defines : Bool
  tagType : String
  steps : List Step

namespace Pattern

def definition (tagType : String) (steps : List Step) : Pattern := ⟨true, tagType, steps⟩

def reference (tagType : String) (steps : List Step) : Pattern := ⟨false, tagType, steps⟩

/-- Whether steps hold of a node and its ancestors, one after the other. -/
def acceptsSteps : List Step → List Tree → Bool
  | [], _ => true
  | _ :: _, [] => false
  | s :: ss, t :: ts => s.accepts t && acceptsSteps ss ts

/-- Whether the pattern picks a node. -/
def picks (p : Pattern) (v : Visit) : Bool := acceptsSteps p.steps (v.node :: v.ancestors)

end Pattern

end CodeMap.Syntax
