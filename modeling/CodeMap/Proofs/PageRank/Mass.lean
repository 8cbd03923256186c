/-
The ranking conserves mass.

Ranks are a distribution when an iteration starts, because they start equal,
and when it ends, because a row stochastic matrix moves a distribution to a
distribution and mixing two distributions gives one (`Distribution.step`). So
they are one after any number of iterations and in the end.

What a rank is at least (`teleport_le_step`) is what the mixing gives every
node whatever arrives along links.
-/
import CodeMap.Proofs.PageRank.Definedness

namespace CodeMap

namespace PageRank

open Exact RankNumber Checked

variable {K : Type} [Field K] [LinearOrder K] [IsStrictOrderedRing K] {n : ℕ}
variable {links : List (Link K n)} {personalization : List K}

-- ============================================================ one iteration

theorem damping_nonneg : (0 : K) ≤ damping := by
  rw [damping_eq]
  norm_num

theorem damping_le_one : (damping : K) ≤ 1 := by
  rw [damping_eq]
  norm_num

/-- Ranks that are not negative stay so on the walk. -/
theorem moved_nonneg {T : Matrix (Fin n) (Fin n) K} (hT : T ∈ Matrix.rowStochastic K (Fin n))
    {ranks : Vector K n} (hranks : ∀ v : Fin n, 0 ≤ ranks.get v) (v : Fin n) :
    0 ≤ ∑ u : Fin n, ranks.get u * T u v :=
  Matrix.nonneg_vecMul_of_mem_rowStochastic (x := fun u => ranks.get u) hT hranks v

/-- The walk neither makes rank nor loses it. -/
theorem sum_moved {T : Matrix (Fin n) (Fin n) K} (hT : T ∈ Matrix.rowStochastic K (Fin n))
    (ranks : Vector K n) :
    ∑ v : Fin n, ∑ u : Fin n, ranks.get u * T u v = ∑ u : Fin n, ranks.get u := by
  rw [Finset.sum_comm]
  refine Finset.sum_congr rfl fun u _ => ?_
  rw [← Finset.mul_sum, Matrix.sum_row_of_mem_rowStochastic hT, mul_one]

section Step

variable (hn : 0 < n) (hweights : ∀ l ∈ links, 0 ≤ l.weight)
  (hpersonalization : ∀ x ∈ personalization, 0 ≤ x)
include hn hweights hpersonalization

/-- A node keeps its share of what is mixed in. -/
theorem teleport_le_step {ranks : Vector K n} (hranks : ∀ v : Fin n, 0 ≤ ranks.get v) (v : Fin n) :
    (1 - (damping : K)) * normalized personalization v
      ≤ (step links personalization ranks).get v := by
  have hT := transition_mem hweights (distribution_teleport hn hpersonalization)
  rw [step_get, teleport_get]
  exact le_add_of_nonneg_right (mul_nonneg damping_nonneg (moved_nonneg hT hranks v))

/-- An iteration leads from a distribution to a distribution. -/
theorem Distribution.step {ranks : Vector K n} (hranks : Distribution ranks) :
    Distribution (step links personalization ranks) := by
  have hteleport := distribution_teleport hn hpersonalization
  have hT := transition_mem hweights hteleport
  refine ⟨fun v => ?_, ?_⟩
  · refine le_trans (mul_nonneg (sub_nonneg.mpr damping_le_one) ?_)
      (teleport_le_step hn hweights hpersonalization hranks.nonneg v)
    rw [← teleport_get]
    exact hteleport.nonneg v
  · simp only [step_get]
    rw [Finset.sum_add_distrib, ← Finset.mul_sum, ← Finset.mul_sum, sum_moved hT,
      hteleport.total, hranks.total]
    ring

theorem distribution_after (k : ℕ) : Distribution (after links personalization k) := by
  induction k with
  | zero => exact distribution_replicate hn
  | succ k ih =>
      rw [after_succ]
      exact ih.step hn hweights hpersonalization

theorem distribution_ranks : Distribution (ranks links personalization) := by
  rw [(ranks_eq_after links personalization).1]
  exact distribution_after hn hweights hpersonalization _

end Step

-- ================================================================= the mass

/-- The ranking conserves mass.

Take one node or more, links of weights that are not negative and a
personalization that is not negative, of any length. After every iteration, and
in the result, the ranks are not negative and sum to one; once an iteration has
run, a rank is at least the undamped part of the normalized weight of its node.
The same run over numbers that become undefined by a division by zero gives
these ranks after every iteration and ends in the same way, so that no division
by zero occurs. -/
theorem iteration_conserves_mass (hn : 0 < n) (hweights : ∀ l ∈ links, 0 ≤ l.weight)
    (hpersonalization : ∀ x ∈ personalization, 0 ≤ x) :
    (∀ k, Distribution (after links personalization k)
        ∧ (0 < k → ∀ v : Fin n, (1 - (damping : K)) * normalized personalization v
          ≤ (after links personalization k).get v)
        ∧ after (links.map Link.checked) (personalization.map number) k
          = (after links personalization k).map number)
      ∧ (Distribution (ranks links personalization)
        ∧ ∀ v : Fin n, (1 - (damping : K)) * normalized personalization v
          ≤ (ranks links personalization).get v)
      ∧ run (links.map Link.checked) (personalization.map number)
        = (run links personalization).checked := by
  have hmass := distribution_after hn hweights hpersonalization
  have hleast : ∀ k, 0 < k → ∀ v : Fin n, (1 - (damping : K)) * normalized personalization v
      ≤ (after links personalization k).get v := by
    intro k hk v
    obtain ⟨j, rfl⟩ := Nat.exists_eq_succ_of_ne_zero hk.ne'
    rw [Nat.succ_eq_add_one, after_succ]
    exact teleport_le_step hn hweights hpersonalization (hmass j).nonneg v
  obtain ⟨hresult, hran⟩ := ranks_eq_after links personalization
  refine ⟨fun k => ⟨hmass k, hleast k, after_checked hn links personalization k⟩,
    ⟨distribution_ranks hn hweights hpersonalization, ?_⟩, run_checked hn links personalization⟩
  rw [hresult]
  exact hleast _ hran

/-- Four nodes: two parallel links and a weightless one leave the first, only
a weightless one the second, and none the third. -/
def tangledLinks : List (Link ℚ 4) := [⟨0, 1, 2⟩, ⟨0, 1, 1⟩, ⟨0, 0, 0⟩, ⟨1, 2, 0⟩, ⟨3, 0, 1 / 2⟩]

theorem iteration_conserves_mass_sample :
    (∀ l ∈ tangledLinks, 0 ≤ l.weight)
      ∧ ∑ v : Fin 4, (ranks tangledLinks [0, 3, 0, 1]).get v = 1
      ∧ 3 / 20 * (3 / 4) ≤ (ranks tangledLinks [0, 3, 0, 1]).get 1 := by
  have hweights : ∀ l ∈ tangledLinks, 0 ≤ l.weight := by decide +kernel
  have hpersonalization : ∀ x ∈ ([0, 3, 0, 1] : List ℚ), 0 ≤ x := by decide +kernel
  obtain ⟨-, ⟨hmass, hleast⟩, -⟩ :=
    iteration_conserves_mass (by decide) hweights hpersonalization
  refine ⟨hweights, hmass.total, le_of_eq_of_le ?_ (hleast 1)⟩
  rw [damping_eq]
  norm_num [normalized]

end PageRank

end CodeMap
