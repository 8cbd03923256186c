/-
Syntax trees: nodes with a kind, the field they fill in their parent, the
stretch of source they cover, and their children in source order.

Questions about a node often concern its ancestors, so a tree is usually looked
at through its visits: every node in pre-order together with the way up to the
root. Pre-order lists name nodes in the order in which they stand in the file.
-/
import CodeMap.Syntax.Token

namespace CodeMap.Syntax

/-- A syntax tree. -/
inductive Tree where
  | node (kind : String) (field : Option String) (extent : Extent) (children : List Tree)
  deriving Inhabited, Repr

namespace Tree

def kind : Tree → String
  | node k _ _ _ => k

def field : Tree → Option String
  | node _ f _ _ => f

def extent : Tree → Extent
  | node _ _ e _ => e

def children : Tree → List Tree
  | node _ _ _ cs => cs

def startRow (t : Tree) : Nat := t.extent.start.row

def stopRow (t : Tree) : Nat := t.extent.stop.row

/-- The tree as the filler of a field. -/
def withField (f : String) : Tree → Tree
  | node k _ e cs => node k (some f) e cs

/-- Position of the first child that fills a field. -/
def fieldIndex? (t : Tree) (f : String) : Option Nat :=
  t.children.findIdx? fun c => c.field == some f

end Tree

/-- A node of a tree with its place: the positions on the way to it, innermost
first, and its ancestors, innermost first. -/
structure Visit where
  node : Tree
  place : List Nat
  ancestors : List Tree
  deriving Inhabited

namespace Tree

mutual

/-- The visits of a subtree whose root has the given place and ancestors. -/
def visitsFrom (place : List Nat) (ancestors : List Tree) : Tree → List Visit
  | node k f e cs =>
    ⟨node k f e cs, place, ancestors⟩ :: visitsOf place (node k f e cs :: ancestors) 0 cs

/-- The visits below the children of a node, from position `i` on. -/
def visitsOf (place : List Nat) (ancestors : List Tree) (i : Nat) : List Tree → List Visit
  | [] => []
  | c :: rest => visitsFrom (i :: place) ancestors c ++ visitsOf place ancestors (i + 1) rest

end

/-- Every node with its place and ancestors, in pre-order. -/
def visits (t : Tree) : List Visit := visitsFrom [] [] t

mutual

/-- How many nodes a tree has. -/
def nodeCount : Tree → Nat
  | node _ _ _ cs => nodeCountOf cs + 1

/-- How many nodes a list of trees has. -/
def nodeCountOf : List Tree → Nat
  | [] => 0
  | c :: rest => nodeCount c + nodeCountOf rest

end

/-- A stack with trees put on it, the last one first, so that the first one
lies on top. -/
def pushAll (stack : List Tree) (ts : List Tree) : List Tree :=
  ts.reverse.foldl (fun below t => t :: below) stack

/-- What a round of a search comes to: an answer, or the stack for the next
round. -/
inductive Round where
  | answer (found : Option Tree)
  | next (stack : List Tree)

/-- A round of the search for a node of one of `kinds` that starts on `row`. The
tree on top of the stack is the answer, or gives way to its children; one that
starts below the row goes together with all its nodes. -/
def searchRound (kinds : List String) (row : Nat) : List Tree → Round
  | [] => .answer none
  | t :: stack =>
    if t.startRow > row then .next stack
    else if kinds.contains t.kind && t.startRow == row then .answer (some t)
    else .next (pushAll stack t.children)

theorem pushAll_eq (stack ts : List Tree) : pushAll stack ts = ts ++ stack := by
  unfold pushAll
  rw [List.foldl_reverse, List.foldr_cons_eq_append, List.map_id']

theorem nodeCount_eq (t : Tree) : t.nodeCount = nodeCountOf t.children + 1 := by
  cases t with
  | node k f e cs => rw [nodeCount, children]

theorem nodeCountOf_append (ts us : List Tree) :
    nodeCountOf (ts ++ us) = nodeCountOf ts + nodeCountOf us := by
  induction ts with
  | nil => rw [List.nil_append, nodeCountOf, Nat.zero_add]
  | cons t ts ih => rw [List.cons_append, nodeCountOf, nodeCountOf, ih, Nat.add_assoc]

/-- A round takes at least one node off the stack. -/
theorem nodeCountOf_lt {kinds : List String} {row : Nat} {stack next : List Tree}
    (h : searchRound kinds row stack = .next next) : nodeCountOf next < nodeCountOf stack := by
  cases stack with
  | nil => cases h
  | cons t stack =>
      rw [nodeCountOf, nodeCount_eq]
      simp only [searchRound] at h
      split at h
      · injection h with h
        subst h
        omega
      · split at h
        · cases h
        · injection h with h
          rw [← h, pushAll_eq, nodeCountOf_append]
          omega

/-- Rounds of the search, one after the other, until there is an answer. -/
def searchStack (kinds : List String) (row : Nat) (stack : List Tree) : Option Tree :=
  match _ : searchRound kinds row stack with
  | .answer found => found
  | .next left => searchStack kinds row left
termination_by nodeCountOf stack
decreasing_by exact nodeCountOf_lt ‹_›

/-- The first node, in pre-order, of one of `kinds` that starts on `row`. A
subtree that starts below the row is left out unseen. -/
def firstStartingOn? (kinds : List String) (row : Nat) (t : Tree) : Option Tree :=
  searchStack kinds row [t]

/-- A stack with trees put on it one after the other, so that the last one lies
on top. -/
def pushEach (stack : List Tree) (ts : List Tree) : List Tree :=
  ts.foldl (fun below t => t :: below) stack

theorem nodeCountOf_pushEach (stack ts : List Tree) :
    nodeCountOf (pushEach stack ts) = nodeCountOf ts + nodeCountOf stack := by
  induction ts generalizing stack with
  | nil => rw [nodeCountOf, Nat.zero_add, pushEach, List.foldl_nil]
  | cons t ts ih =>
      have hpush : pushEach stack (t :: ts) = pushEach (t :: stack) ts := rfl
      rw [hpush, ih, nodeCountOf, nodeCountOf]
      omega

/-- Collects the row ranges of the nodes whose kind passes `test`. The tree on top
of the stack gives way to its children, of which the last one comes next. -/
def collectRanges (test : String → Bool) : List Tree → List (Nat × Nat) → List (Nat × Nat)
  | [], ranges => ranges
  | t :: stack, ranges =>
    collectRanges test (pushEach stack t.children)
      (if test t.kind then ranges ++ [(t.startRow, t.stopRow)] else ranges)
termination_by stack => nodeCountOf stack
decreasing_by
  rw [nodeCountOf_pushEach, nodeCountOf, nodeCount_eq]
  omega

/-- Row ranges of the nodes whose kind passes `test`: each node before its
children, later children before earlier ones. -/
def rowRanges (test : String → Bool) (t : Tree) : List (Nat × Nat) := collectRanges test [t] []

end Tree

/-- The innermost node that covers all bytes from `a` to `b`: of nested nodes
the innermost comes last in pre-order. -/
def innermost? (visits : List Visit) (a b : Nat) : Option Visit :=
  (visits.filter fun v => v.node.extent.spans a b).getLast?

end CodeMap.Syntax
