/-
How a ranking splits the ranks of files over names.

The rank of a file goes to the names that it uses: each of its edges takes the
part of the rank that its weight is of all weight that leaves the file, and the
score of a group is the sum of what edges take to it. Every edge of a graph of
tags counts at least one use, so its weight is positive and so is what leaves
its file; no share is a quotient by zero.

# The sum of scores

Every edge leads to exactly one group, so all scores sum to all shares
(`sum_scores`). Regrouped by the file that an edge leaves, the shares of a file
are its rank times all of its weight over all of its weight
(`sum_shares`): the rank itself if some edge leaves the file, and nothing
otherwise.
-/
import CodeMap.Proofs.PageRank.Mass
import CodeMap.Proofs.FileGraph.Items
import Mathlib.Analysis.Real.Sqrt

namespace CodeMap

open Exact RankNumber Tag

variable {K : Type} [Field K] [LinearOrder K]

theorem Emphasis.factor_pos [IsStrictOrderedRing K] (emphasis : Emphasis) :
    (0 : K) < emphasis.factor := by
  cases emphasis with
  | mentioned =>
      rw [factor, ofNat_eq]
      norm_num
  | hidden =>
      rw [factor, ratio_eq]
      norm_num
  | plain =>
      rw [factor, ofNat_eq]
      norm_num

namespace FileGraph

-- ================================================================== weights

/-- Every edge counts at least one use. -/
theorem count_pos {tags : List Tag} {interest : Interest}
    {e : FileEdge (build tags interest).files.length} (h : e ∈ (build tags interest).edges) :
    0 < e.count := by
  obtain ⟨hused, -⟩ := exists_edge_iff.mp ⟨e, h, rfl⟩
  rw [(weight_of_edge h).2]
  unfold useCount
  split
  next => exact Nat.one_pos
  next hsome =>
    rcases hused with ⟨r, hr, hname, hpath⟩ | ⟨hnone, -⟩
    · refine List.countP_pos_iff.mpr ⟨r, hr, decide_eq_true ⟨hname, hpath⟩⟩
    · exact absurd hnone hsome

/-- Going through the groups meets every edge once. -/
theorem flatMap_groups_perm (g : FileGraph) :
    (g.groups.flatMap fun group =>
      g.edges.filter fun e => e.target = group.file ∧ e.name = group.name).Perm g.edges := by
  have hapart : g.groups.Pairwise fun a b => ∀ e ∈ g.edges,
      decide (e.target = a.file ∧ e.name = a.name) = true →
        decide (e.target = b.file ∧ e.name = b.name) = false := by
    refine (nodup_groups g).imp fun {a b} hne e _ ha => decide_eq_false fun hb => hne ?_
    obtain ⟨hfile, hname⟩ := of_decide_eq_true ha
    cases a
    cases b
    simp_all
  refine (flatMap_filter_perm _ g.edges hapart).trans (List.Perm.of_eq ?_)
  refine List.filter_eq_self.mpr fun e he => List.any_eq_true.mpr ?_
  exact ⟨⟨e.target, e.name⟩, mem_groups_iff.mpr ⟨e, he, rfl, rfl⟩, decide_eq_true ⟨rfl, rfl⟩⟩

section Graph

variable {g : FileGraph} {root : ℕ → K}

/-- Nothing leaves a file that no edge leaves. -/
theorem outWeights_eq_zero {v : Fin g.files.length} (h : ¬∃ e ∈ g.edges, e.source = v) :
    (PageRank.outWeights (g.links root)).get v = (0 : K) := by
  have hnone : (g.links root).filter (·.source = v) = [] := by
    refine List.filter_eq_nil_iff.mpr fun l hl hsource => h ?_
    obtain ⟨e, he, rfl⟩ := List.mem_map.mp hl
    exact ⟨e, he, of_decide_eq_true hsource⟩
  unfold PageRank.outWeights
  rw [Vector.get_ofFn, sum_eq, hnone, List.map_nil, List.sum_nil]

/-- Every share goes into one score. -/
theorem sum_scores (ranks : Vector K g.files.length) :
    ((g.scores root ranks).map (·.2)).sum
      = (g.edges.map (share root (PageRank.outWeights (g.links root)) ranks)).sum := by
  unfold scores
  rw [← ((flatMap_groups_perm g).map _).sum_eq, List.map_flatMap, List.flatMap_def,
    List.sum_flatten, List.map_map, List.map_map]
  refine congrArg List.sum (List.map_congr_left fun group _ => ?_)
  exact sum_eq _

variable [IsStrictOrderedRing K] (hroot : ∀ count, 0 < count → 0 < root count)
  (hcount : ∀ e ∈ g.edges, 0 < e.count)
include hroot hcount

theorem weight_pos {e : FileEdge g.files.length} (h : e ∈ g.edges) : 0 < weight root e :=
  mul_pos e.emphasis.factor_pos (hroot _ (hcount e h))

theorem links_nonneg : ∀ l ∈ g.links root, 0 ≤ l.weight := by
  intro l hl
  obtain ⟨e, he, rfl⟩ := List.mem_map.mp hl
  exact (weight_pos hroot hcount he).le

/-- What leaves a file that some edge leaves is positive. -/
theorem outWeights_pos {e : FileEdge g.files.length} (h : e ∈ g.edges) :
    (0 : K) < (PageRank.outWeights (g.links root)).get e.source := by
  have hmem : weight root e ∈ ((g.links root).filter (·.source = e.source)).map (·.weight) := by
    refine List.mem_map.mpr ⟨⟨e.source, e.target, weight root e⟩, ?_, rfl⟩
    exact List.mem_filter.mpr ⟨List.mem_map.mpr ⟨e, h, rfl⟩, decide_eq_true rfl⟩
  unfold PageRank.outWeights
  rw [Vector.get_ofFn, sum_eq]
  refine List.sum_pos _ (fun x hx => ?_) (List.ne_nil_of_mem hmem)
  obtain ⟨l, hl, rfl⟩ := List.mem_map.mp hx
  obtain ⟨f, hf, rfl⟩ := List.mem_map.mp (List.mem_filter.mp hl).1
  exact weight_pos hroot hcount hf

/-- The score of a group is not negative. -/
theorem score_nonneg {ranks : Vector K g.files.length}
    (hranks : ∀ v : Fin g.files.length, 0 ≤ ranks.get v) (group : Group g.files.length) :
    0 ≤ g.score root (PageRank.outWeights (g.links root)) ranks group := by
  unfold score
  rw [sum_eq]
  refine List.sum_nonneg fun x hx => ?_
  obtain ⟨e, he, rfl⟩ := List.mem_map.mp hx
  have hedge := (List.mem_filter.mp he).1
  exact div_nonneg (mul_nonneg (hranks _) (weight_pos hroot hcount hedge).le)
    (outWeights_pos hroot hcount hedge).le

/-- The shares of all edges are the ranks of the files that edges leave. -/
theorem sum_shares (ranks : Vector K g.files.length) :
    (g.edges.map (share root (PageRank.outWeights (g.links root)) ranks)).sum
      = ∑ v with ∃ e ∈ g.edges, e.source = v, ranks.get v := by
  have hshare : g.edges.map (share root (PageRank.outWeights (g.links root)) ranks)
      = (g.links root).map fun l =>
        ranks.get l.source / (PageRank.outWeights (g.links root)).get l.source * l.weight := by
    rw [links, List.map_map]
    refine List.map_congr_left fun e _ => ?_
    exact mul_div_right_comm _ _ _
  have hlinks := PageRank.sum_links
    (fun u _ => ranks.get u / (PageRank.outWeights (g.links root)).get u) (g.links root)
  rw [hshare, hlinks, Finset.sum_filter]
  refine Finset.sum_congr rfl fun u _ => ?_
  rw [← Finset.mul_sum, ← PageRank.outWeights_get]
  split
  next hleaves =>
    obtain ⟨e, he, rfl⟩ := hleaves
    exact div_mul_cancel₀ _ (outWeights_pos hroot hcount he).ne'
  next hnone => rw [outWeights_eq_zero hnone, mul_zero]

/-- The ranks of the files are not negative. -/
theorem ranks_nonneg (interest : Interest) (v : Fin g.files.length) :
    (0 : K) ≤ (g.ranks root interest).get v := by
  have hpersonalization : ∀ x ∈ (g.personalization interest : List K), 0 ≤ x := by
    intro x hx
    obtain ⟨p, -, rfl⟩ := List.mem_map.mp hx
    split
    next =>
      rw [ratio_eq]
      positivity
    next => rw [zero_eq]
  exact (PageRank.distribution_ranks v.pos (links_nonneg hroot hcount) hpersonalization).nonneg v

end Graph

-- ================================================================= the split

/-- Splitting ranks over names conserves rank and never divides by zero.

Take any tags, any interest, and any root that is positive for positive counts,
over any ordered field. In the graph of the tags every edge has a positive
weight, and so has all that leaves a file that some edge leaves, which is what
shares are divided by. There is one score for each file and name that an edge
leads to; no score is negative, and the scores sum to the ranks of the files
that some edge leaves. -/
theorem scores_conserve_rank [IsStrictOrderedRing K] (tags : List Tag) (interest : Interest)
    {root : ℕ → K} (hroot : ∀ count, 0 < count → 0 < root count) :
    (∀ e ∈ (build tags interest).edges, 0 < weight root e
        ∧ (0 : K) < (PageRank.outWeights (links root (build tags interest))).get e.source)
      ∧ (((build tags interest).scores root (ranks root interest (build tags interest))).map
            (·.1)).Nodup
      ∧ (∀ group : Group (build tags interest).files.length,
        group ∈ ((build tags interest).scores root
            (ranks root interest (build tags interest))).map (·.1)
          ↔ ∃ e ∈ (build tags interest).edges, e.target = group.file ∧ e.name = group.name)
      ∧ (∀ s ∈ (build tags interest).scores root (ranks root interest (build tags interest)),
        0 ≤ s.2)
      ∧ (((build tags interest).scores root (ranks root interest (build tags interest))).map
            (·.2)).sum
        = ∑ v with ∃ e ∈ (build tags interest).edges, e.source = v,
          (ranks root interest (build tags interest)).get v := by
  have hcount : ∀ e ∈ (build tags interest).edges, 0 < e.count := fun e he => count_pos he
  have hkeys : ((build tags interest).scores root (ranks root interest (build tags interest))).map
      (·.1) = (build tags interest).groups := by
    rw [scores, List.map_map]
    exact List.map_id _
  refine ⟨fun e he => ⟨weight_pos hroot hcount he, outWeights_pos hroot hcount he⟩, ?_, ?_, ?_, ?_⟩
  · rw [hkeys]
    exact nodup_groups _
  · intro group
    rw [hkeys]
    exact mem_groups_iff
  · intro s hs
    obtain ⟨group, -, rfl⟩ := List.mem_map.mp hs
    exact score_nonneg hroot hcount (ranks_nonneg hroot hcount interest) group
  · rw [sum_scores, sum_shares hroot hcount]

/-- Two files that define one name, to which nothing refers. -/
def twinTags : List Tag :=
  [.definition ⟨⟨"a.py"⟩, "f", "function", .of 0 0, (4, 5), []⟩,
    .definition ⟨⟨"b.py"⟩, "f", "function", .of 2 2, (20, 21), []⟩]

/-- The real square root is such a root. -/
theorem scores_conserve_rank_sample :
    (∀ count : ℕ, 0 < count → 0 < √(count : ℝ))
      ∧ (build twinTags {}).edges ≠ []
      ∧ (((build twinTags {}).scores (fun count => √(count : ℝ))
            (ranks (fun count => √(count : ℝ)) {} (build twinTags {}))).map (·.2)).sum
        = ∑ v with ∃ e ∈ (build twinTags {}).edges, e.source = v,
          (ranks (fun count => √(count : ℝ)) {} (build twinTags {})).get v := by
  have hroot : ∀ count : ℕ, 0 < count → 0 < √(count : ℝ) := fun count hcount =>
    Real.sqrt_pos.mpr (Nat.cast_pos.mpr hcount)
  have hfirst : DefinedIn twinTags "f" ⟨"a.py"⟩ :=
    ⟨⟨⟨"a.py"⟩, "f", "function", .of 0 0, (4, 5), []⟩, List.mem_cons_self, rfl, rfl⟩
  have hsecond : DefinedIn twinTags "f" ⟨"b.py"⟩ :=
    ⟨⟨⟨"b.py"⟩, "f", "function", .of 2 2, (20, 21), []⟩,
      List.mem_cons_of_mem _ List.mem_cons_self, rfl, rfl⟩
  obtain ⟨e, he, -⟩ := exists_edge_iff.mpr ⟨.inr ⟨rfl, hfirst⟩, hsecond⟩
  obtain ⟨-, -, -, -, hsum⟩ := scores_conserve_rank twinTags {} hroot
  exact ⟨hroot, List.ne_nil_of_mem he, hsum⟩

end FileGraph

end CodeMap
