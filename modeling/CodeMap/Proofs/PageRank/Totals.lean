/-
What the ranking depends on.

An iteration knows the links only through its transitions, and the transitions
only through the weight between each pair of nodes, so two lists of links that
agree there have the same iterations and end in the same way
(`run_eq_of_between`). That covers joining parallel links and any order of
links. Multiplying the weights that leave a node changes what is between it and
others, but no share of it (`transition_scaleFrom`), and multiplying the
personalization changes none of its shares (`normalized_scale`).
-/
import CodeMap.Proofs.PageRank.Mass

namespace CodeMap

/-- Two links lead from the same node to the same node. -/
def Link.Parallel {α : Type} {n : ℕ} (l m : Link α n) : Prop :=
  l.source = m.source ∧ l.target = m.target

namespace PageRank

open Exact RankNumber

variable {K : Type} [Field K] [LinearOrder K] {n : ℕ}

-- ================================================================== the run

/-- Runs with the same shares are the same. -/
theorem run_congr {links links' : List (Link K n)} {personalization personalization' : List K}
    (hteleport : teleport n personalization = teleport n personalization')
    (htransition : transition links (teleport n personalization)
      = transition links' (teleport n personalization)) :
    run links personalization = run links' personalization' := by
  have hstep : step links personalization = step links' personalization' := by
    funext ranks
    refine Vector.ext_get fun v => ?_
    rw [step_get, step_get, ← hteleport, ← htransition]
  exact congrArg (fun f => iterate f maxIterations 0 (Vector.replicate n (ratio 1 n))) hstep

/-- A run depends on the links only through what is between the nodes. -/
theorem run_eq_of_between {links links' : List (Link K n)}
    (h : ∀ u v, between links u v = between links' u v) (personalization : List K) :
    run links personalization = run links' personalization := by
  refine run_congr rfl ?_
  unfold transition
  simp only [h]

-- ========================================================== joining, ordering

/-- One link in place of all that are parallel to it, of the weight of them
all. -/
def joinParallel (links : List (Link K n)) : List (Link K n) :=
  (links.map fun l => (l.source, l.target)).dedup.map fun e => ⟨e.1, e.2, between links e.1 e.2⟩

/-- Joining parallel links leaves the weight between any two nodes as it was. -/
theorem between_joinParallel (links : List (Link K n)) (u v : Fin n) :
    between (joinParallel links) u v = between links u v := by
  have hmap : ((joinParallel links).map fun l =>
        if l.source = u ∧ l.target = v then l.weight else 0)
      = (links.map fun l => (l.source, l.target)).dedup.map fun e =>
        if e = (u, v) then between links e.1 e.2 else 0 := by
    unfold joinParallel
    rw [List.map_map]
    refine List.map_congr_left fun e _ => ?_
    simp only [Function.comp_apply, Prod.ext_iff]
  conv_lhs => unfold between
  rw [sum_map_filter, hmap, List.sum_map_ite_eq, List.count_dedup, List.map_const',
    List.sum_replicate, smul_zero, add_zero, sub_zero]
  by_cases hjoined : (u, v) ∈ links.map fun l => (l.source, l.target)
  · rw [if_pos hjoined, one_smul]
  · -- what no link joins has nothing between it
    have hnone : links.filter (fun l => l.source = u ∧ l.target = v) = [] := by
      refine List.filter_eq_nil_iff.mpr fun l hl hends => hjoined ?_
      have hends := of_decide_eq_true hends
      exact List.mem_map.mpr ⟨l, hl, Prod.ext hends.1 hends.2⟩
    unfold between
    rw [if_neg hjoined, zero_smul, hnone, List.map_nil, List.sum_nil]

/-- A joined link stands for parallel links that were there and has the weight of
all of them. -/
theorem mem_joinParallel {links : List (Link K n)} {l : Link K n} (h : l ∈ joinParallel links) :
    (∃ m ∈ links, m.Parallel l) ∧ l.weight = between links l.source l.target := by
  obtain ⟨e, he, rfl⟩ := List.mem_map.mp h
  obtain ⟨m, hm, rfl⟩ := List.mem_map.mp (List.mem_dedup.mp he)
  exact ⟨⟨m, hm, rfl, rfl⟩, rfl⟩

/-- No two joined links are parallel. -/
theorem pairwise_joinParallel (links : List (Link K n)) :
    (joinParallel links).Pairwise fun l m => ¬l.Parallel m := by
  refine List.pairwise_map.mpr ((List.nodup_dedup _).imp fun {e f} hne hparallel => hne ?_)
  exact Prod.ext hparallel.1 hparallel.2

theorem between_perm {links links' : List (Link K n)} (h : links.Perm links') (u v : Fin n) :
    between links u v = between links' u v :=
  ((h.filter _).map _).sum_eq

-- ================================================================== scaling

/-- Multiplies the weights that leave a node. -/
def scaleFrom (a : Fin n) (c : K) (links : List (Link K n)) : List (Link K n) :=
  links.map fun l => if l.source = a then { l with weight := c * l.weight } else l

/-- The weight from a node is scaled as the weights of its links are. -/
theorem between_scaleFrom (a : Fin n) (c : K) (links : List (Link K n)) (u v : Fin n) :
    between (scaleFrom a c links) u v = (if u = a then c else 1) * between links u v := by
  induction links with
  | nil => simp [between, scaleFrom]
  | cons l rest ih =>
      have hcons : scaleFrom a c (l :: rest)
          = (if l.source = a then { l with weight := c * l.weight } else l)
            :: scaleFrom a c rest := rfl
      rw [hcons, between_cons, between_cons, ih, mul_add]
      congr 1
      by_cases hsource : l.source = a
      · rw [if_pos hsource]
        dsimp only
        by_cases hends : l.source = u ∧ l.target = v
        · rw [if_pos hends, if_pos hends, if_pos (hends.1.symm.trans hsource)]
        · rw [if_neg hends, if_neg hends, mul_zero]
      · rw [if_neg hsource]
        by_cases hends : l.source = u ∧ l.target = v
        · rw [if_pos hends, if_neg fun hu => hsource (hends.1.trans hu), one_mul]
        · rw [if_neg hends, mul_zero]

variable [IsStrictOrderedRing K]

/-- Weights that leave a node have the same shares when all are multiplied. -/
theorem transition_scaleFrom (a : Fin n) {c : K} (hc : 0 < c) (links : List (Link K n))
    (p : Vector K n) : transition (scaleFrom a c links) p = transition links p := by
  ext u v
  unfold transition
  simp only [Matrix.of_apply, between_scaleFrom, ← Finset.mul_sum]
  by_cases hu : u = a
  · rw [if_pos hu]
    simp only [mul_pos_iff_of_pos_left hc, mul_div_mul_left _ _ hc.ne']
  · rw [if_neg hu]
    simp only [one_mul]

/-- Shares of a sum are the same for every multiple. -/
theorem normalized_scale {c : K} (hc : 0 < c) (personalization : List K) (v : Fin n) :
    normalized (personalization.map (c * ·)) v = normalized personalization v := by
  have hsum : (personalization.map (c * ·)).sum = c * personalization.sum := by
    rw [List.sum_map_mul_left, List.map_id']
  have hget : (personalization.map (c * ·)).getD v 0 = c * personalization.getD v 0 := by
    have hmap := List.getD_map personalization 0 (n := v) (c * ·)
    rwa [mul_zero] at hmap
  unfold normalized
  simp only [hsum, hget, List.length_map, mul_pos_iff_of_pos_left hc, mul_div_mul_left _ _ hc.ne']

theorem teleport_scale {c : K} (hc : 0 < c) (personalization : List K) :
    teleport n (personalization.map (c * ·)) = teleport n personalization := by
  refine Vector.ext_get fun v => ?_
  rw [teleport_get, normalized_scale hc, teleport_get]

-- =================================================================== totals

/-- Parallel links add up.

A run depends on the links only through the weight of all links from one node
to another. So nothing about it, neither the ranks nor the number of
iterations, changes when parallel links are joined to one of their weight, when
links come in another order, when all weights that leave a node are multiplied
by a positive number, or when the personalization is. -/
theorem parallel_links_add_up (links : List (Link K n)) (personalization : List K) :
    (∀ links' : List (Link K n), (∀ u v, between links' u v = between links u v) →
        run links' personalization = run links personalization)
      ∧ ((joinParallel links).Pairwise (fun l m => ¬l.Parallel m)
        ∧ (∀ l ∈ joinParallel links,
          (∃ m ∈ links, m.Parallel l) ∧ l.weight = between links l.source l.target)
        ∧ run (joinParallel links) personalization = run links personalization)
      ∧ (∀ links' : List (Link K n), links'.Perm links →
        run links' personalization = run links personalization)
      ∧ (∀ (u : Fin n) (c : K), 0 < c →
        run (scaleFrom u c links) personalization = run links personalization)
      ∧ (∀ c : K, 0 < c →
        run links (personalization.map (c * ·)) = run links personalization) := by
  refine ⟨fun links' h => run_eq_of_between h personalization,
    ⟨pairwise_joinParallel links, fun l hl => mem_joinParallel hl, ?_⟩, fun links' h => ?_,
    fun u c hc => ?_, fun c hc => ?_⟩
  · exact run_eq_of_between (between_joinParallel links) personalization
  · exact run_eq_of_between (between_perm h) personalization
  · exact run_congr rfl (transition_scaleFrom u hc links _)
  · exact run_congr (teleport_scale hc personalization) rfl

theorem parallel_links_add_up_sample :
    (joinParallel tangledLinks).length < tangledLinks.length
      ∧ run (joinParallel tangledLinks) [0, 3, 0, 1] = run tangledLinks [0, 3, 0, 1]
      ∧ run tangledLinks.reverse [0, 3, 0, 1] = run tangledLinks [0, 3, 0, 1]
      ∧ run (scaleFrom 0 7 tangledLinks) [0, 3, 0, 1] = run tangledLinks [0, 3, 0, 1]
      ∧ run tangledLinks [0, 9, 0, 3] = run tangledLinks [0, 3, 0, 1] := by
  obtain ⟨-, ⟨-, -, hjoin⟩, hperm, hscale, hpersonalization⟩ :=
    parallel_links_add_up tangledLinks [0, 3, 0, 1]
  have hthree : ([0, 3, 0, 1] : List ℚ).map (3 * ·) = [0, 9, 0, 3] := by decide +kernel
  refine ⟨by decide, hjoin, hperm _ (List.reverse_perm _), hscale 0 7 (by norm_num), ?_⟩
  rw [← hthree]
  exact hpersonalization 3 (by norm_num)

end PageRank

end CodeMap
