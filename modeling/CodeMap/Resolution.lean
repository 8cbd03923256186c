/-
Which definition a reference means. Candidates are the definitions of the
reference's name; closeness in the tree of directories and classes decides
between them.
-/
import CodeMap.Tag

namespace CodeMap

/-- How plausible a definition is as the target of a reference: two for the
same file, else one for the same directory, and one more when both sit in a
class of the same name. -/
def matchScore (r : Reference) (d : Definition) : Nat :=
  let near :=
    if r.path.same d.path then 2
    else if r.path.parent? == d.path.parent? then 1
    else 0
  let sameClass :=
    match r.enclosingClass?, d.enclosingClass? with
    | some a, some b => if a = b then 1 else 0
    | _, _ => 0
  near + sameClass

namespace Resolution

/-- A definition with its position in the list of all definitions. -/
structure Candidate where
  position : Nat
  definition : Definition

/-- Candidates by file, then row, then position. -/
def Candidate.order (a b : Candidate) : Ordering :=
  (a.definition.path.order b.definition.path).then
    ((compare a.definition.span.first b.definition.span.first).then
      (compare a.position b.position))

/-- The definitions numbered from `n` on that have a name. -/
def named (name : String) (n : Nat) : List Definition → List Candidate
  | [] => []
  | d :: rest =>
    if d.name = name then ⟨n, d⟩ :: named name (n + 1) rest else named name (n + 1) rest

/-- The definitions of a name in their order of preference among equals. -/
def candidates (defs : List Definition) (name : String) : List Candidate :=
  (named name 0 defs).mergeSort fun a b => (a.order b).isLE

/-- The best of what was found so far and the further candidates: a later one
wins only with a higher score, and a score of zero never wins. -/
def best (r : Reference) (own : Option Nat) : Option (Nat × Nat) → List Candidate → Option Nat
  | found, [] => found.map (·.1)
  | found, c :: rest =>
    let score := matchScore r c.definition
    let toBeat := (found.map (·.2)).getD 0
    if some c.position ≠ own ∧ toBeat < score then best r own (some (c.position, score)) rest
    else best r own found rest

/-- The position of the definition a reference means. A single candidate is
always meant; among several, the definition that holds the reference itself is
left out. -/
def resolve (defs : List Definition) (r : Reference) (own : Option Nat) : Option Nat :=
  match candidates defs r.name with
  | [] => none
  | [only] => some only.position
  | several => best r own none several

/-- The files that define a name, in path order. -/
def definers (defs : List Definition) (name : String) : List Path :=
  Path.dropRepeated ((candidates defs name).map fun c => c.definition.path)

end Resolution

end CodeMap
