/-
The nodes one edge away from some nodes.

An id is adjacent to another one if an edge joins the two, whichever way it
leads (`mem_adjacent_iff`). The search collects what is adjacent to the ids it
is asked about, in either direction and with repetitions, and leaves those ids
out. A loop therefore brings nothing in, and an id under which nothing is
stored is dropped only when the answer is made.

The answer is made from the sorted ids, and two lists that hold the same ids
are sorted alike (`sortedIds_congr`). That is why neither the order nor the
repetitions of the question show, not even among rows that compare equal.
-/
import CodeMap.Proofs.Traversal.Rows

namespace CodeMap.Traversal

open Std

variable {s : Store} {repo : String}

/-- The stored edges that arrive at an id or leave it join it to its adjacent
ids. -/
theorem mem_adjacent_iff {x y : String} :
    y ∈ adjacent s repo x ↔ s.Leads repo x y ∨ s.Leads repo y x := by
  simp only [adjacent, Store.outgoing, Store.incoming, Store.Leads, List.mem_append, List.mem_map,
    List.mem_filter, beq_iff_eq]
  constructor
  · rintro (⟨e, ⟨he, hsource⟩, htarget⟩ | ⟨e, ⟨he, htarget⟩, hsource⟩)
    · exact .inl ⟨e, he, hsource, htarget⟩
    · exact .inr ⟨e, he, hsource, htarget⟩
  · rintro (⟨e, he, hsource, htarget⟩ | ⟨e, he, hsource, htarget⟩)
    · exact .inl ⟨e, ⟨he, hsource⟩, htarget⟩
    · exact .inr ⟨e, ⟨he, htarget⟩, hsource⟩

/-- Adjacency has no direction. -/
theorem mem_adjacent_comm {x y : String} : y ∈ adjacent s repo x ↔ x ∈ adjacent s repo y := by
  rw [mem_adjacent_iff, mem_adjacent_iff]
  exact or_comm

/-- Lists that hold the same ids are sorted alike. -/
theorem sortedIds_congr {ids ids' : List String} (h : ∀ id, id ∈ ids ↔ id ∈ ids') :
    sortedIds ids = sortedIds ids' := by
  have hsorted : ∀ ids, (sortedIds ids).Pairwise fun a b => compare a b = .lt :=
    fun ids => pairwise_eraseReps (pairwise_sortIds ids)
  refine @eq_of_pairwise_lt String String compare _ id _ _ (hsorted ids) (hsorted ids') fun x => ?_
  rw [mem_sortedIds, mem_sortedIds, h]

/-- What is collected for some ids. -/
theorem mem_collected_iff {ids : List String} {y : String} :
    y ∈ (ids.flatMap (adjacent s repo)).filter (fun id => !ids.contains id)
      ↔ y ∉ ids ∧ ∃ x ∈ ids, y ∈ adjacent s repo x := by
  rw [List.mem_filter, List.mem_flatMap, and_comm]
  simp

/-- The search only depends on which ids it is asked about. -/
theorem neighbours_congr {ids ids' : List String} (h : ∀ id, id ∈ ids ↔ id ∈ ids') :
    neighbours s repo ids = neighbours s repo ids' := by
  unfold neighbours rowsWith
  refine congrArg (fun ids => sortRows (ids.filterMap (s.node? repo))) (sortedIds_congr fun y => ?_)
  rw [mem_collected_iff, mem_collected_iff]
  simp only [h]

theorem mem_neighbours_iff (hkeyed : s.Keyed) {ids : List String} {n : NodeRow} :
    n ∈ neighbours s repo ids ↔
      n ∈ s.nodesOf repo ∧ n.nodeId ∉ ids ∧ ∃ x ∈ ids, n.nodeId ∈ adjacent s repo x := by
  rw [neighbours, mem_rowsWith_iff hkeyed, mem_collected_iff]

/-- The search answers, each once and in the order of rows, exactly with the
stored nodes that it was not asked about and that are at one end of an edge
with an id it was asked about at the other. So neither the order nor the
repetitions of the ids matter, and being neighbours is symmetric. -/
theorem neighbours_exact (hkeyed : s.Keyed) (repo : String) :
    (∀ ids, (neighbours s repo ids).Nodup
      ∧ (neighbours s repo ids).Pairwise (fun a b => (a.order b).isLE)
      ∧ ∀ n, n ∈ neighbours s repo ids ↔ n ∈ s.nodesOf repo ∧ n.nodeId ∉ ids
          ∧ ∃ e ∈ s.edgesOf repo, e.sourceId = n.nodeId ∧ e.targetId ∈ ids
            ∨ e.targetId = n.nodeId ∧ e.sourceId ∈ ids)
    ∧ (∀ ids ids', (∀ id, id ∈ ids ↔ id ∈ ids') →
        neighbours s repo ids = neighbours s repo ids')
    ∧ ∀ x ∈ s.nodesOf repo, ∀ y ∈ s.nodesOf repo,
        y ∈ neighbours s repo [x.nodeId] ↔ x ∈ neighbours s repo [y.nodeId] := by
  refine ⟨fun ids => ⟨nodup_rowsWith s repo _, pairwise_rowsWith s repo _, fun n => ?_⟩,
    fun ids ids' h => neighbours_congr h, fun x hx y hy => ?_⟩
  · rw [mem_neighbours_iff hkeyed]
    refine and_congr_right fun _ => and_congr_right fun _ => ?_
    constructor
    · rintro ⟨x, hx, hadjacent⟩
      rcases mem_adjacent_iff.mp hadjacent with ⟨e, he, rfl, htarget⟩ | ⟨e, he, hsource, rfl⟩
      · exact ⟨e, he, .inr ⟨htarget, hx⟩⟩
      · exact ⟨e, he, .inl ⟨hsource, hx⟩⟩
    · rintro ⟨e, he, ⟨hsource, hx⟩ | ⟨htarget, hx⟩⟩
      · exact ⟨e.targetId, hx, mem_adjacent_iff.mpr (.inr ⟨e, he, hsource, rfl⟩)⟩
      · exact ⟨e.sourceId, hx, mem_adjacent_iff.mpr (.inl ⟨e, he, rfl, htarget⟩)⟩
  · rw [mem_neighbours_iff hkeyed, mem_neighbours_iff hkeyed]
    simp only [hx, hy, List.mem_singleton, exists_eq_left, true_and, eq_comm (a := y.nodeId),
      mem_adjacent_comm (x := x.nodeId)]

/-- Two edges join `c` to `b`, and an edge joins it to an id without a node. -/
theorem neighbours_exact_sample :
    tangleRow "b" 5 ∈ neighbours tangle "r" ["c", "c"]
      ∧ tangleRow "c" 9 ∈ neighbours tangle "r" ["b"]
      ∧ neighbours tangle "r" ["x", "b", "x"] = neighbours tangle "r" ["b", "x"] := by
  obtain ⟨hexact, hset, hsymm⟩ := neighbours_exact keyed_tangle "r"
  have hb : tangleRow "b" 5 ∈ tangle.nodesOf "r" := by decide +kernel
  have hc : tangleRow "c" 9 ∈ tangle.nodesOf "r" := by decide +kernel
  have hrepeated : neighbours tangle "r" ["c", "c"] = neighbours tangle "r" ["c"] :=
    hset _ _ (by simp)
  have hnear : tangleRow "b" 5 ∈ neighbours tangle "r" ["c"] :=
    ((hexact ["c"]).2.2 _).mpr ⟨hb, by decide, tangleEdge "b" "c" "call", by decide +kernel,
      .inl ⟨rfl, by decide⟩⟩
  exact ⟨hrepeated ▸ hnear, (hsymm _ hb _ hc).mpr hnear, hset _ _ (by simp [or_comm])⟩

end CodeMap.Traversal
