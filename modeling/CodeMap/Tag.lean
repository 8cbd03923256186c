/-
Definitions and references, and how they are found in a syntax tree.
-/
import CodeMap.Span
import CodeMap.Grammar
import CodeMap.Identifiers

namespace CodeMap

/-- Where a name is defined. -/
structure Definition where
  path : Path
  name : String
  tagType : String
  /-- Rows of the name. -/
  span : LineSpan
  /-- Bytes of the name: where it starts and where it stops. -/
  bytes : Nat × Nat
  /-- Names of the scopes around the definition, outermost first. -/
  scope : List String
  deriving DecidableEq, Repr, Inhabited

/-- Where a name is used. -/
structure Reference where
  path : Path
  name : String
  tagType : String
  /-- Rows of the name, if they are known. -/
  span : Option LineSpan
  scope : List String
  deriving DecidableEq, Repr, Inhabited

/-- A definition or a reference. -/
inductive Tag where
  | definition (d : Definition)
  | reference (r : Reference)
  deriving DecidableEq, Repr, Inhabited

/-- The innermost of the scopes around a definition. -/
def Definition.enclosingClass? (d : Definition) : Option String := d.scope.getLast?

/-- The innermost of the scopes around a reference. -/
def Reference.enclosingClass? (r : Reference) : Option String := r.scope.getLast?

namespace Tag

def definition? : Tag → Option Definition
  | definition d => some d
  | reference _ => none

def reference? : Tag → Option Reference
  | reference r => some r
  | definition _ => none

def path : Tag → Path
  | definition d => d.path
  | reference r => r.path

end Tag

/-- Type of references that come from the identifiers of a text. -/
def unknownTagType : String := "unknown"

open Syntax

-- ================================================================== scopes

/-- Position of the child that names a scope: its name, or else its type. -/
def scopeNameIndex? (t : Tree) : Option Nat :=
  match t.fieldIndex? "name" with
  | some i => some i
  | none => t.fieldIndex? "type"

/-- The text of a node. -/
def nodeText? (content : String) (t : Tree) : Option String :=
  Text.slice? content t.extent.start.byte t.extent.stop.byte

/-- The scopes that ancestors contribute, innermost first. `place` is the place
of the node asked about, seen from below the first ancestor; a scope does not
lie inside itself, so the node that names an ancestor gets no scope from it. -/
def scopesAlong (l : Language) (content : String) (start : List Nat) :
    List Nat → List Tree → List String
  | _, [] => []
  | [], _ :: _ => []
  | _ :: above, a :: rest =>
    let further := scopesAlong l content start above rest
    if l.classKinds.contains a.kind then
      match scopeNameIndex? a with
      | some i =>
        if i :: above = start then further
        else
          match (a.children[i]?).bind (nodeText? content) with
          | some name => name :: further
          | none => further
      | none => further
    else further

/-- Names of the scopes around a node, outermost first. -/
def enclosingScopes (l : Language) (content : String) (v : Visit) : List String :=
  (scopesAlong l content v.place v.place v.ancestors).reverse

-- ==================================================================== tags

/-- Rows of a node. -/
def nodeSpan (t : Tree) : LineSpan := LineSpan.of t.startRow t.stopRow

/-- The tag that a pattern finds at a node. -/
def tagAt? (l : Language) (path : Path) (content : String) (v : Visit) (p : Pattern) :
    Option Tag :=
  if p.picks v then
    (nodeText? content v.node).map fun name =>
      let scope := enclosingScopes l content v
      if p.defines then
        .definition
          { path, name, tagType := p.tagType, span := nodeSpan v.node,
            bytes := (v.node.extent.start.byte, v.node.extent.stop.byte), scope }
      else
        .reference { path, name, tagType := p.tagType, span := some (nodeSpan v.node), scope }
  else none

/-- What counts as the same find: a definition or reference at the same byte. -/
structure TagSite where
  defines : Bool
  byte : Nat
  deriving DecidableEq

/-- The tags at one node, leaving out sites that were found before. -/
def tagsAt (l : Language) (path : Path) (content : String) (v : Visit) :
    List Pattern → List TagSite → List Tag × List TagSite
  | [], seen => ([], seen)
  | p :: ps, seen =>
    let site : TagSite := ⟨p.defines, v.node.extent.start.byte⟩
    if p.picks v && !seen.contains site then
      let (tags, seen') := tagsAt l path content v ps (site :: seen)
      ((tagAt? l path content v p).toList ++ tags, seen')
    else tagsAt l path content v ps seen

/-- The tags at a list of nodes. -/
def tagsAlong (l : Language) (path : Path) (content : String) :
    List Visit → List TagSite → List Tag
  | [], _ => []
  | v :: vs, seen =>
    let (tags, seen') := tagsAt l path content v l.patterns seen
    tags ++ tagsAlong l path content vs seen'

/-- The tags of a parsed file. A file with definitions and no references, in a
language whose patterns capture none, refers to every identifier it holds. -/
def tagsOfVisits (l : Language) (path : Path) (content : String) (visits : List Visit) :
    List Tag :=
  let tags := tagsAlong l path content visits []
  let hasDefinitions := tags.any fun t => t.definition?.isSome
  let hasReferences := tags.any fun t => t.reference?.isSome
  if hasDefinitions && !hasReferences && l.capturesReferences? == some false then
    tags ++ (Identifiers.ofText content).map fun name =>
      .reference { path, name, tagType := unknownTagType, span := none, scope := [] }
  else tags

/-- The tags of a file; a file of no supported language has none. -/
def extractTags (path : Path) (content : String) : List Tag :=
  let l := Language.ofPath path
  match l.parse? content with
  | some tree => tagsOfVisits l path content tree.visits
  | none => []

end CodeMap
