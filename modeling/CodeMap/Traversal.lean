/-
Questions about a stored graph that follow its edges. Every search keeps the
ids it has met, so cycles end.
-/
import CodeMap.Store

namespace CodeMap

/-- A tree of references. -/
inductive CodeTree where
  /-- A node, the relationship that leads to it (none at the root), and the
  nodes it refers to that are not shown elsewhere. -/
  | node (row : NodeRow) (relationship : Option String) (children : List CodeTree)
  deriving Inhabited, Repr

namespace Traversal

/-- Texts in order, each once. -/
def sortedIds (ids : List String) : List String :=
  (ids.mergeSort fun a b => (compare a b).isLE).eraseReps

/-- The stored nodes with some ids, in the order of rows. -/
def rowsWith (s : Store) (repo : String) (ids : List String) : List NodeRow :=
  sortRows ((sortedIds ids).filterMap (s.node? repo))

/-- Ids one edge away from a node, in either direction. -/
def adjacent (s : Store) (repo id : String) : List String :=
  (s.outgoing repo id).map (·.targetId) ++ (s.incoming repo id).map (·.sourceId)

/-- The nodes one edge away from some nodes, those nodes left out. -/
def neighbours (s : Store) (repo : String) (ids : List String) : List NodeRow :=
  rowsWith s repo ((ids.flatMap (adjacent s repo)).filter fun id => !ids.contains id)

-- ============================================================== the tree

/-- A place in the tree: its node, the relationship that leads to it, and how
deep it is. -/
structure Slot where
  row : NodeRow
  relationship : Option String
  depth : Nat

/-- The places found so far, and every id that was met. -/
structure Frontier where
  slots : List Slot
  /-- For each slot the positions of the slots found from it, in the order in
  which they were found. -/
  children : List (List Nat)
  /-- Positions of the slots to expand, the next one first. -/
  queue : List Nat
  met : List String

namespace Frontier

/-- A search that has met its root and nothing else. -/
def ofRoot (root : NodeRow) : Frontier := ⟨[⟨root, none, 0⟩], [[]], [0], [root.nodeId]⟩

/-- Follows one edge from the slot at a position. An id counts as met even when
no node is stored under it. -/
def follow (s : Store) (repo : String) (parent depth : Nat) (f : Frontier) (e : EdgeRow) :
    Frontier :=
  if f.met.contains e.targetId then f
  else
    let met := e.targetId :: f.met
    match s.node? repo e.targetId with
    | some row =>
      let child := f.slots.length
      { slots := f.slots ++ [⟨row, some e.relationshipType, depth + 1⟩]
        children := f.children.modify parent (· ++ [child]) ++ [[]]
        queue := f.queue ++ [child]
        met }
    | none => { f with met }

/-- Expands slots in the order of the queue. Every slot holds a node of its own
and is queued once, so there are no more rounds than stored nodes. -/
def expand (s : Store) (repo : String) (maxDepth : Nat) : Nat → Frontier → Frontier
  | 0, f => f
  | fuel + 1, f =>
    match f.queue with
    | [] => f
    | position :: queue =>
      let f := { f with queue }
      match f.slots[position]? with
      | none => expand s repo maxDepth fuel f
      | some slot =>
        if maxDepth ≤ slot.depth then expand s repo maxDepth fuel f
        else
          expand s repo maxDepth fuel
            ((s.outgoing repo slot.row.nodeId).foldl (follow s repo position slot.depth) f)

end Frontier

/-- The tree of a slot alone. -/
def Slot.bare (slot : Slot) : CodeTree := .node slot.row slot.relationship []

/-- Takes the trees at some positions, in the order of the positions. What is
taken leaves an empty place. -/
def takeTrees : List Nat → List (Option CodeTree) → List CodeTree × List (Option CodeTree)
  | [], built => ([], built)
  | i :: rest, built =>
    let (trees, left) := takeTrees rest (built.set i none)
    ((built[i]?.join).toList ++ trees, left)

/-- A tree with other children. -/
def hang (children : List CodeTree) : CodeTree → CodeTree
  | .node row relationship _ => .node row relationship children

/-- Moves the trees of the slots found from a slot below its own tree. -/
def foldSlot (children : List (List Nat)) (built : List (Option CodeTree)) (slot : Nat) :
    List (Option CodeTree) :=
  let (trees, left) := takeTrees (children[slot]?.getD []) built
  left.modify slot (Option.map (hang trees))

/-- Moves trees below one another, from the last slot back to the first. A slot
comes before the slots found from it, so a tree is complete when it is moved. -/
def foldBack (children : List (List Nat)) (built : List (Option CodeTree)) :
    List (Option CodeTree) :=
  (List.range built.length).reverse.foldl (foldSlot children) built

/-- The tree of references from a node, breadth first: each node is shown once,
as near to the root as it can be. -/
def codeTree? (s : Store) (repo id : String) (maxDepth : Nat) : Option CodeTree :=
  (s.node? repo id).bind fun root =>
    let f := Frontier.expand s repo maxDepth (s.nodes.length + 1) (.ofRoot root)
    (foldBack f.children (f.slots.map fun slot => some slot.bare)).head?.join

-- ========================================================== entry points

/-- Ids that refer to a node, the node itself left out. -/
def callers (s : Store) (repo id : String) : List String :=
  ((s.incoming repo id).map (·.sourceId)).filter (· ≠ id)

/-- Puts ids that were not met on the stack. -/
def pushNew (state : List String × List String) (id : String) : List String × List String :=
  if state.2.contains id then state else (id :: state.1, id :: state.2)

/-- Climbs from the ids on the stack to those that nobody else refers to. Every
id but the first is the source of an edge, so one step per edge and one more
are enough. -/
def climb (s : Store) (repo : String) :
    Nat → List String → List String → List String → List String
  | 0, _, _, entries => entries
  | _, [], _, entries => entries
  | fuel + 1, id :: stack, met, entries =>
    match callers s repo id with
    | [] => climb s repo fuel stack met (id :: entries)
    | found =>
      let (stack', met') := found.foldl pushNew (stack, met)
      climb s repo fuel stack' met' entries

/-- The nodes from which a node can be reached and to which nobody refers. -/
def entryPoints (s : Store) (repo id : String) : List NodeRow :=
  rowsWith s repo (climb s repo (s.edges.length + 1) [id] [id] [])

/-- The definitions of a file that hold one of some lines strictly between their
first and last line. -/
def touching (s : Store) (repo path : String) (lines : List Nat) : List NodeRow :=
  (s.nodesInFile repo path).filter fun n =>
    match n.startLine, n.endLine with
    | some a, some b => lines.any fun l => a < l && l < b
    | _, _ => false

end Traversal

end CodeMap
