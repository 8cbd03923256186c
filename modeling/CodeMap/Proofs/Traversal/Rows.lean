/-
The rows that a search answers with.

A search collects ids, in any order and with repetitions, and `rowsWith` turns
them into an answer: each id once, the row stored under it if there is one,
and the rows in their order. What the answer holds therefore only depends on
which ids were collected (`mem_rowsWith_iff`).

`tangle` is a small graph with everything that makes a search hard: a loop, a
cycle, parallel edges, and an id under which nothing is stored.
-/
import CodeMap.Traversal
import CodeMap.Proofs.Order
import CodeMap.Proofs.Store.Rows

namespace CodeMap

/-- A stored edge leads from one id to another. -/
def Store.Leads (s : Store) (repo a b : String) : Prop :=
  ∃ e ∈ s.edgesOf repo, e.sourceId = a ∧ e.targetId = b

namespace Traversal

open Std

-- =============================================================== sorted ids

/-- Sorted ids ascend. -/
theorem pairwise_sortIds (ids : List String) :
    (ids.mergeSort fun a b => (compare a b).isLE).Pairwise fun a b => (compare a b).isLE :=
  pairwise_sort id ids

theorem nodup_sortedIds (ids : List String) : (sortedIds ids).Nodup := by
  refine (pairwise_eraseReps (pairwise_sortIds ids)).imp fun {a b} hab heq => ?_
  rw [heq, ReflOrd.compare_self] at hab
  cases hab

/-- Sorting ids loses none of them. -/
@[simp] theorem mem_sortedIds {ids : List String} {x : String} : x ∈ sortedIds ids ↔ x ∈ ids := by
  rw [sortedIds, mem_eraseReps, List.mem_mergeSort]

-- ================================================================== answers

variable {s : Store} {repo : String} {ids : List String}

theorem nodeId_of_node?_eq_some {id : String} {n : NodeRow} (h : s.node? repo id = some n) :
    n.nodeId = id :=
  congrArg Prod.snd (Store.mem_of_node?_eq_some h).2

/-- An answer is in the order of rows. -/
theorem pairwise_rowsWith (s : Store) (repo : String) (ids : List String) :
    (rowsWith s repo ids).Pairwise fun a b => (a.order b).isLE :=
  pairwise_sortRows _

/-- An answer holds no row twice: two ids never find the same row. -/
theorem nodup_rowsWith (s : Store) (repo : String) (ids : List String) :
    (rowsWith s repo ids).Nodup := by
  refine (List.mergeSort_perm _ _).nodup_iff.mpr ?_
  refine (nodup_sortedIds ids).filterMap fun a b n ha hb => ?_
  rw [← nodeId_of_node?_eq_some ha, ← nodeId_of_node?_eq_some hb]

/-- An answer holds the stored rows with the collected ids. -/
theorem mem_rowsWith_iff (hkeyed : s.Keyed) {n : NodeRow} :
    n ∈ rowsWith s repo ids ↔ n ∈ s.nodesOf repo ∧ n.nodeId ∈ ids := by
  rw [rowsWith, sortRows, List.mem_mergeSort, List.mem_filterMap, ← hkeyed.node?_nodeId_iff]
  constructor
  · rintro ⟨id, hid, hfound⟩
    obtain rfl := nodeId_of_node?_eq_some hfound
    exact ⟨hfound, mem_sortedIds.mp hid⟩
  · rintro ⟨hfound, hid⟩
    exact ⟨n.nodeId, mem_sortedIds.mpr hid, hfound⟩

-- ============================================================ a small graph

def tangleRow (id : String) (line : Nat) : NodeRow :=
  ⟨id, "r", id, id, "f.py", some line, some (line + 1), "function", "", none⟩

def tangleEdge (source target relationship : String) : EdgeRow :=
  ⟨"r", source, target, relationship, target, none, none, 1, 2⟩

/-- There is a loop at `a`, two edges lead from `a` to `b`, `b` and `c` are a
cycle, and nothing is stored under `x`. -/
def tangle : Store where
  nodes := [tangleRow "a" 1, tangleRow "b" 5, tangleRow "c" 9]
  edges := [(1, tangleEdge "a" "a" "call"), (2, tangleEdge "a" "x" "call"),
    (3, tangleEdge "a" "b" "import"), (4, tangleEdge "a" "b" "call"),
    (5, tangleEdge "b" "c" "call"), (6, tangleEdge "c" "b" "call"),
    (7, tangleEdge "x" "c" "call")]
  lastEdge := 7

theorem keyed_tangle : tangle.Keyed := by
  decide +kernel

end Traversal

end CodeMap
