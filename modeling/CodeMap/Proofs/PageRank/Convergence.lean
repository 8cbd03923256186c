/-
The ranking converges before its iterations run out.

Ranks move along a row stochastic matrix, which brings no two rank vectors
further apart, and only the damped part of them moves, so an iteration shrinks
every gap by the damping factor (`gap_step_le`). The gap between one iterate
and the next therefore falls geometrically. It starts at two at most, as any
two distributions are that close, and

  `2 * (17 / 20) ^ 90 < 1 / 1000000`,

which is no more than what even a single node tolerates: iteration 91 passes
the test if none before it did.
-/
import CodeMap.Proofs.PageRank.Mass

namespace CodeMap

namespace PageRank

open Exact RankNumber

variable {K : Type} [Field K] [LinearOrder K] {n : ℕ}

/-- How far two rank vectors are apart: the sum of the distances of their
entries. -/
def gap (a b : Vector K n) : K := ∑ v : Fin n, |a.get v - b.get v|

variable [IsStrictOrderedRing K]

theorem change_eq (a b : Vector K n) : change a b = gap a b := by
  unfold change gap
  simp only [Vector.getElem_eq_get]
  rw [sum_eq, sum_finRange]
  exact Finset.sum_congr rfl fun v _ => distance_eq _ _

theorem settled_iff {a b : Vector K n} : Settled a b ↔ gap a b < n * (1 / 1000000) := by
  unfold Settled
  rw [change_eq, ofNat_eq, tolerance_eq, below_eq, decide_eq_true_iff]

-- ============================================================== contraction

/-- The walk brings no two rank vectors further apart. -/
theorem sum_abs_moved_le {T : Matrix (Fin n) (Fin n) K} (hT : T ∈ Matrix.rowStochastic K (Fin n))
    (x : Fin n → K) : ∑ v, |∑ u, x u * T u v| ≤ ∑ u, |x u| := by
  have hT0 : ∀ u v, 0 ≤ T u v := fun u v => Matrix.nonneg_of_mem_rowStochastic hT
  calc ∑ v, |∑ u, x u * T u v|
      ≤ ∑ v, ∑ u, |x u * T u v| := Finset.sum_le_sum fun v _ => Finset.abs_sum_le_sum_abs _ _
    _ = ∑ u, ∑ v, |x u| * T u v := by
        rw [Finset.sum_comm]
        refine Finset.sum_congr rfl fun u _ => Finset.sum_congr rfl fun v _ => ?_
        rw [abs_mul, abs_of_nonneg (hT0 u v)]
    _ = ∑ u, |x u| := by
        refine Finset.sum_congr rfl fun u _ => ?_
        rw [← Finset.mul_sum, Matrix.sum_row_of_mem_rowStochastic hT, mul_one]

/-- Two distributions are at most two apart. -/
theorem Distribution.gap_le_two {a b : Vector K n} (ha : Distribution a) (hb : Distribution b) :
    gap a b ≤ 2 := by
  calc gap a b
      ≤ ∑ v : Fin n, (a.get v + b.get v) := by
        refine Finset.sum_le_sum fun v _ => ?_
        have hav := ha.nonneg v
        have hbv := hb.nonneg v
        exact abs_sub_le_iff.mpr ⟨by linarith, by linarith⟩
    _ = 2 := by
        rw [Finset.sum_add_distrib, ha.total, hb.total]
        norm_num

section Contraction

variable {links : List (Link K n)} {personalization : List K}
variable (hn : 0 < n) (hweights : ∀ l ∈ links, 0 ≤ l.weight)
  (hpersonalization : ∀ x ∈ personalization, 0 ≤ x)
include hn hweights hpersonalization

/-- An iteration shrinks every gap by the damping factor. -/
theorem gap_step_le (a b : Vector K n) :
    gap (step links personalization a) (step links personalization b) ≤ 17 / 20 * gap a b := by
  have hT := transition_mem hweights (distribution_teleport hn hpersonalization)
  have hdifference : ∀ v : Fin n,
      (step links personalization a).get v - (step links personalization b).get v
        = damping * ∑ u : Fin n,
          (a.get u - b.get u) * transition links (teleport n personalization) u v := by
    intro v
    rw [step_get, step_get]
    simp only [sub_mul, Finset.sum_sub_distrib]
    ring
  have habs : |(damping : K)| = 17 / 20 := by
    rw [abs_of_nonneg damping_nonneg, damping_eq]
  unfold gap
  simp only [hdifference, abs_mul, habs]
  rw [← Finset.mul_sum]
  exact mul_le_mul_of_nonneg_left (sum_abs_moved_le hT fun u => a.get u - b.get u) (by norm_num)

/-- The change of an iteration is at most the damped change of the one
before. -/
theorem gap_after_succ_le (k : ℕ) :
    gap (after links personalization (k + 2)) (after links personalization (k + 1))
      ≤ 17 / 20 * gap (after links personalization (k + 1)) (after links personalization k) := by
  rw [after_succ links personalization (k + 1), after_succ links personalization k]
  exact gap_step_le hn hweights hpersonalization _ _

theorem gap_after_le (k : ℕ) :
    gap (after links personalization (k + 1)) (after links personalization k)
      ≤ 2 * (17 / 20) ^ k := by
  induction k with
  | zero =>
      rw [pow_zero, mul_one]
      exact (distribution_after hn hweights hpersonalization 1).gap_le_two
        (distribution_after hn hweights hpersonalization 0)
  | succ k ih =>
      calc gap (after links personalization (k + 2)) (after links personalization (k + 1))
          ≤ 17 / 20 * gap (after links personalization (k + 1)) (after links personalization k) :=
            gap_after_succ_le hn hweights hpersonalization k
        _ ≤ 17 / 20 * (2 * (17 / 20) ^ k) := mul_le_mul_of_nonneg_left ih (by norm_num)
        _ = 2 * (17 / 20) ^ (k + 1) := by ring

/-- Iteration 91 passes the test. -/
theorem settled_after_ninety :
    Settled (after links personalization 91) (after links personalization 90) := by
  have hone : (1 : K) ≤ n := Nat.one_le_cast.mpr hn
  refine settled_iff.mpr ?_
  calc gap (after links personalization 91) (after links personalization 90)
      ≤ 2 * (17 / 20) ^ 90 := gap_after_le hn hweights hpersonalization 90
    _ < 1 * (1 / 1000000) := by norm_num
    _ ≤ n * (1 / 1000000) := mul_le_mul_of_nonneg_right hone (by norm_num)

end Contraction

-- ============================================================== convergence

/-- The ranking converges before its iterations run out.

Take one node or more, links of weights that are not negative and a
personalization that is not negative. The change of each iteration is at most
17/20 of the change before. The loop ends with the first iteration whose change
is less than a millionth for each node, and that is one of the first 91. The
result differs from its own next iterate by less than 17/20 of that. -/
theorem iteration_converges {links : List (Link K n)} {personalization : List K} (hn : 0 < n)
    (hweights : ∀ l ∈ links, 0 ≤ l.weight) (hpersonalization : ∀ x ∈ personalization, 0 ≤ x) :
    (∀ k, gap (after links personalization (k + 2)) (after links personalization (k + 1))
        ≤ 17 / 20 * gap (after links personalization (k + 1)) (after links personalization k))
      ∧ (∃ k < 91,
        run links personalization = ⟨after links personalization (k + 1), k + 1, true⟩
          ∧ gap (after links personalization (k + 1)) (after links personalization k)
            < n * (1 / 1000000)
          ∧ ∀ j < k, n * (1 / 1000000)
            ≤ gap (after links personalization (j + 1)) (after links personalization j))
      ∧ gap (step links personalization (ranks links personalization))
          (ranks links personalization) < 17 / 20 * n * (1 / 1000000) := by
  have hshrink := gap_after_succ_le hn hweights hpersonalization
  have hlast := settled_after_ninety hn hweights hpersonalization
  have hstop : ∃ k < 91,
      run links personalization = ⟨after links personalization (k + 1), k + 1, true⟩
        ∧ Settled (after links personalization (k + 1)) (after links personalization k)
        ∧ ∀ j < k, ¬Settled (after links personalization (j + 1))
          (after links personalization j) := by
    rcases iterate_cases (step links personalization) maxIterations 0
        (Vector.replicate n (ratio 1 n)) with ⟨k, -, hrun, hsettled, hbefore⟩ | ⟨-, hnever⟩
    · rw [Nat.zero_add] at hrun
      refine ⟨k, Nat.lt_of_not_le fun hlate => ?_, hrun, hsettled, hbefore⟩
      exact hbefore 90 hlate hlast
    · exact absurd hlast (hnever 90 (by decide))
  obtain ⟨k, hk, hrun, hsettled, hbefore⟩ := hstop
  have hsmall := settled_iff.mp hsettled
  refine ⟨hshrink, ⟨k, hk, hrun, hsmall, fun j hj => ?_⟩, ?_⟩
  · exact not_lt.mp (mt settled_iff.mpr (hbefore j hj))
  · have hresult : ranks links personalization = after links personalization (k + 1) := by
      unfold ranks
      rw [hrun]
    rw [hresult, ← after_succ]
    calc gap (after links personalization (k + 2)) (after links personalization (k + 1))
        ≤ 17 / 20 * gap (after links personalization (k + 1)) (after links personalization k) :=
          hshrink k
      _ < 17 / 20 * (n * (1 / 1000000)) := mul_lt_mul_of_pos_left hsmall (by norm_num)
      _ = 17 / 20 * n * (1 / 1000000) := by ring

theorem iteration_converges_sample :
    (∀ l ∈ tangledLinks, 0 ≤ l.weight)
      ∧ (run tangledLinks [0, 3, 0, 1]).converged = true
      ∧ (run tangledLinks [0, 3, 0, 1]).iterations ≤ 91 := by
  have hweights : ∀ l ∈ tangledLinks, 0 ≤ l.weight := by decide +kernel
  have hpersonalization : ∀ x ∈ ([0, 3, 0, 1] : List ℚ), 0 ≤ x := by decide +kernel
  obtain ⟨-, ⟨k, hk, hrun, -⟩, -⟩ :=
    iteration_converges (by decide) hweights hpersonalization
  refine ⟨hweights, ?_, ?_⟩
  · rw [hrun]
  · rw [hrun]
    exact hk

end PageRank

end CodeMap
