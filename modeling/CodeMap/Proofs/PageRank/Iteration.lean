/-
One iteration of the ranking in exact arithmetic, and where iterating ends.

An iteration scatters rank link by link, in the order of links, and spreads
the rank of nodes that no weight leaves. All of that is one step of a random
walk: `transition u v` is the share of the rank of `u` that goes to `v`, and an
iteration mixes the teleport weights with the ranks moved along it
(`step_get`). The matrix is row stochastic (`transition_mem`) and knows the
links only through the weight `between` each pair of nodes. Whatever is proved
about the ranking starts from these two facts.

# Exact arithmetic

The arithmetic of ranks is that of any ordered field here, such as the rational
or the real numbers. `Exact` makes it the arithmetic of the definitions; for
rational numbers that is the arithmetic they have anyway.

# Sums

Every sum over links is one of a factor that depends on the ends of a link,
times the weight of the link. `sum_links` regroups such a sum by pairs of
nodes; it is the only place where a list of links is taken apart.
-/
import Mathlib.Algebra.BigOperators.Fin
import Mathlib.Algebra.BigOperators.Ring.List
import Mathlib.Algebra.Order.BigOperators.Group.List
import Mathlib.Data.List.GetD
import Mathlib.LinearAlgebra.Matrix.Stochastic
import Mathlib.Tactic.FieldSimp
import Mathlib.Tactic.Linarith
import Mathlib.Tactic.NormNum
import Mathlib.Tactic.Ring
import CodeMap.PageRank

namespace CodeMap

namespace Exact

/-- The arithmetic of an ordered field. -/
scoped instance (priority := low) rankNumber (K : Type) [Field K] [LinearOrder K] :
    RankNumber K where
  ofNat k := (k : K)
  below a b := a < b

example : rankNumber ℚ = inferInstanceAs (RankNumber ℚ) := rfl

end Exact

open Exact

-- ================================================================== entries

namespace Vector

variable {α β : Type} {n : ℕ}

/-- From here on entries are read by `get`, which needs no bound. -/
theorem getElem_eq_get (xs : Vector α n) (v : Fin n) : getElem xs v v.isLt = xs.get v := rfl

theorem get_ofFn (f : Fin n → α) (v : Fin n) : (Vector.ofFn f).get v = f v :=
  Vector.getElem_ofFn v.isLt

theorem get_replicate (a : α) (v : Fin n) : (Vector.replicate n a).get v = a :=
  Vector.getElem_replicate v.isLt

theorem get_map (f : α → β) (xs : Vector α n) (v : Fin n) : (xs.map f).get v = f (xs.get v) :=
  Vector.getElem_map f v.isLt

theorem ext_get {xs ys : Vector α n} (h : ∀ v, xs.get v = ys.get v) : xs = ys :=
  Vector.ext fun i hi => h ⟨i, hi⟩

end Vector

-- =============================================================== arithmetic

section Arithmetic

variable {K : Type} [Field K] [LinearOrder K]

namespace RankNumber

@[simp]
theorem ofNat_eq (k : ℕ) : (ofNat k : K) = k := rfl

@[simp]
theorem below_eq (a b : K) : below a b = decide (a < b) := rfl

@[simp]
theorem zero_eq : (zero : K) = 0 := Nat.cast_zero

@[simp]
theorem ratio_eq (a b : ℕ) : (ratio a b : K) = a / b := rfl

@[simp]
theorem sum_eq (xs : List K) : sum xs = xs.sum := by
  unfold sum
  rw [zero_eq, List.sum_eq_foldl]

theorem distance_eq [IsStrictOrderedRing K] (a b : K) : distance a b = |a - b| := by
  unfold distance
  rw [below_eq]
  by_cases h : a < b
  · rw [if_pos (decide_eq_true h), abs_sub_comm, abs_of_pos (sub_pos.mpr h)]
  · rw [if_neg (mt of_decide_eq_true h), abs_of_nonneg (sub_nonneg.mpr (not_lt.mp h))]

end RankNumber

variable {α : Type}

/-- Summing what a filter keeps. -/
theorem sum_map_filter (p : α → Prop) [DecidablePred p] (f : α → K) (xs : List α) :
    ((xs.filter (p ·)).map f).sum = (xs.map fun x => if p x then f x else 0).sum := by
  rw [List.sum_map_ite, List.map_const', List.sum_replicate, smul_zero, add_zero]

/-- Summing onto a number. -/
theorem foldl_add (f : α → K) (b : K) (xs : List α) :
    xs.foldl (fun acc x => acc + f x) b = b + (xs.map f).sum := by
  induction xs generalizing b with
  | nil => simp
  | cons x rest ih => rw [List.foldl_cons, ih, List.map_cons, List.sum_cons, add_assoc]

theorem sum_finRange {n : ℕ} (f : Fin n → K) : ((List.finRange n).map f).sum = ∑ v, f v := by
  rw [← List.ofFn_eq_map, List.sum_ofFn]

end Arithmetic

namespace PageRank

open RankNumber

variable {n : ℕ}

-- ================================================================= the loop

section Loop

variable {α : Type} [RankNumber α]

/-- One iteration. -/
def step (links : List (Link α n)) (personalization : List α) : Vector α n → Vector α n :=
  next (teleport n personalization) (outWeights links) (arrivals links)

/-- The ranks after a number of iterations. -/
def after (links : List (Link α n)) (personalization : List α) (k : ℕ) : Vector α n :=
  (step links personalization)^[k] (Vector.replicate n (ratio 1 n))

theorem after_succ (links : List (Link α n)) (personalization : List α) (k : ℕ) :
    after links personalization (k + 1)
      = step links personalization (after links personalization k) :=
  Function.iterate_succ_apply' _ _ _

/-- The test that ends the loop. -/
def Settled (ranks' ranks : Vector α n) : Prop :=
  below (change ranks' ranks) (ofNat n * tolerance) = true

/-- An iteration stops as soon as a step settles, or with its fuel. -/
theorem iterate_cases (f : Vector α n → Vector α n) (fuel done : ℕ) (ranks : Vector α n) :
    (∃ k < fuel, iterate f fuel done ranks = ⟨f^[k + 1] ranks, done + (k + 1), true⟩
        ∧ Settled (f^[k + 1] ranks) (f^[k] ranks)
        ∧ ∀ j < k, ¬Settled (f^[j + 1] ranks) (f^[j] ranks))
      ∨ iterate f fuel done ranks = ⟨f^[fuel] ranks, done + fuel, false⟩
        ∧ ∀ j < fuel, ¬Settled (f^[j + 1] ranks) (f^[j] ranks) := by
  induction fuel generalizing done ranks with
  | zero => exact .inr ⟨rfl, fun j hj => absurd hj (Nat.not_lt_zero j)⟩
  | succ fuel ih =>
      by_cases hnow : Settled (f ranks) ranks
      · refine .inl ⟨0, Nat.succ_pos fuel, if_pos hnow, hnow, fun j hj => ?_⟩
        exact absurd hj (Nat.not_lt_zero j)
      · have hnext : iterate f (fuel + 1) done ranks = iterate f fuel (done + 1) (f ranks) :=
          if_neg hnow
        rw [hnext]
        -- the first step has not settled, so what holds from then on holds from the start
        have hlater : ∀ k, (∀ j < k, ¬Settled (f^[j + 1] (f ranks)) (f^[j] (f ranks))) →
            ∀ j < k + 1, ¬Settled (f^[j + 1] ranks) (f^[j] ranks) := by
          intro k hk j hj
          cases j with
          | zero => exact hnow
          | succ j => exact hk j (Nat.lt_of_succ_lt_succ hj)
        rcases ih (done + 1) (f ranks) with ⟨k, hk, hstop, hsettled, hbefore⟩ | ⟨hstop, hnever⟩
        · refine .inl ⟨k + 1, Nat.succ_lt_succ hk, ?_, hsettled, hlater k hbefore⟩
          rw [hstop, Nat.add_assoc, Nat.add_comm 1]
          rfl
        · refine .inr ⟨?_, hlater fuel hnever⟩
          rw [hstop, Nat.add_assoc, Nat.add_comm 1]
          rfl

/-- The result of the loop is the ranks after as many iterations as it made,
of which there is at least one. -/
theorem ranks_eq_after (links : List (Link α n)) (personalization : List α) :
    ranks links personalization = after links personalization (run links personalization).iterations
      ∧ 0 < (run links personalization).iterations := by
  unfold ranks run
  rcases iterate_cases (step links personalization) maxIterations 0
      (Vector.replicate n (ratio 1 n)) with ⟨k, -, hstop, -, -⟩ | ⟨hstop, -⟩
  · unfold step at hstop
    rw [hstop, Nat.zero_add]
    exact ⟨rfl, Nat.succ_pos k⟩
  · unfold step at hstop
    rw [hstop, Nat.zero_add]
    exact ⟨rfl, Nat.succ_pos 99⟩

end Loop

variable {K : Type} [Field K] [LinearOrder K]

theorem damping_eq [IsStrictOrderedRing K] : (damping : K) = 17 / 20 := by
  unfold damping
  rw [ratio_eq]
  norm_num

theorem tolerance_eq [IsStrictOrderedRing K] : (tolerance : K) = 1 / 1000000 := by
  unfold tolerance
  rw [ratio_eq]
  norm_num

-- =========================================================== pairs of nodes

/-- The weight of all links from one node to another. -/
def between (links : List (Link K n)) (u v : Fin n) : K :=
  ((links.filter fun l => l.source = u ∧ l.target = v).map (·.weight)).sum

/-- A link adds its weight between its ends only. -/
theorem between_cons (l : Link K n) (rest : List (Link K n)) (u v : Fin n) :
    between (l :: rest) u v
      = (if l.source = u ∧ l.target = v then l.weight else 0) + between rest u v := by
  unfold between
  rw [sum_map_filter, sum_map_filter, List.map_cons, List.sum_cons]

theorem between_nonneg [IsStrictOrderedRing K] {links : List (Link K n)}
    (h : ∀ l ∈ links, 0 ≤ l.weight) (u v : Fin n) : 0 ≤ between links u v := by
  refine List.sum_nonneg fun x hx => ?_
  obtain ⟨l, hl, rfl⟩ := List.mem_map.mp hx
  exact h l (List.mem_filter.mp hl).1

/-- Regroups a sum over links by the ends of the links. -/
theorem sum_links (f : Fin n → Fin n → K) (links : List (Link K n)) :
    (links.map fun l => f l.source l.target * l.weight).sum
      = ∑ u, ∑ v, f u v * between links u v := by
  induction links with
  | nil => simp [between]
  | cons l rest ih =>
      have hone : ∑ u, ∑ v, f u v * (if l.source = u ∧ l.target = v then l.weight else 0)
          = f l.source l.target * l.weight := by
        rw [Finset.sum_eq_single l.source, Finset.sum_eq_single l.target]
        · rw [if_pos ⟨rfl, rfl⟩]
        · intro v _ hv
          rw [if_neg fun h => hv h.2.symm, mul_zero]
        · exact fun h => absurd (Finset.mem_univ _) h
        · intro u _ hu
          refine Finset.sum_eq_zero fun v _ => ?_
          rw [if_neg fun h => hu h.1.symm, mul_zero]
        · exact fun h => absurd (Finset.mem_univ _) h
      rw [List.map_cons, List.sum_cons, ih, ← hone, ← Finset.sum_add_distrib]
      refine Finset.sum_congr rfl fun u _ => ?_
      rw [← Finset.sum_add_distrib]
      refine Finset.sum_congr rfl fun v _ => ?_
      rw [between_cons, mul_add]

/-- What leaves a node goes to some node. -/
theorem outWeights_get (links : List (Link K n)) (u : Fin n) :
    (outWeights links).get u = ∑ v, between links u v := by
  have hlinks := sum_links (fun a _ => if a = u then 1 else 0) links
  simp only [ite_mul, one_mul, zero_mul] at hlinks
  unfold outWeights
  rw [Vector.get_ofFn, sum_eq, sum_map_filter, hlinks, Finset.sum_eq_single u]
  · simp
  · intro a _ ha
    simp [ha]
  · exact fun h => absurd (Finset.mem_univ _) h

-- ============================================================ distributions

/-- Numbers that are not negative and sum to one. -/
structure Distribution (ranks : Vector K n) : Prop where
  nonneg : ∀ v : Fin n, 0 ≤ ranks.get v
  total : ∑ v : Fin n, ranks.get v = 1

/-- Equal shares are a distribution. -/
theorem distribution_replicate [IsStrictOrderedRing K] (hn : 0 < n) :
    Distribution (Vector.replicate n (ratio 1 n : K)) := by
  have hpos : (0 : K) < n := Nat.cast_pos.mpr hn
  refine ⟨fun v => ?_, ?_⟩
  · rw [Vector.get_replicate, ratio_eq]
    positivity
  · simp only [Vector.get_replicate, ratio_eq, Finset.sum_const, Finset.card_univ, Fintype.card_fin,
      nsmul_eq_mul, Nat.cast_one]
    field_simp

/-- The normalized weight of a node: its share of the given weights if there is
one for each node and not all of them are zero, else the same as any other. -/
def normalized (personalization : List K) (v : Fin n) : K :=
  if personalization.length = n ∧ 0 < personalization.sum then
    personalization.getD v 0 / personalization.sum
  else 1 / n

/-- The teleport weights are the normalized ones, node by node. -/
theorem teleport_get (personalization : List K) (v : Fin n) :
    (teleport n personalization).get v = normalized personalization v := by
  unfold normalized
  by_cases hgiven : personalization.length = n ∧ 0 < personalization.sum
  · have htake : personalization.take n = personalization :=
      List.take_of_length_le hgiven.1.le
    have hteleport : teleport n personalization
        = Vector.ofFn fun v => personalization.getD v zero / sum personalization := by
      unfold teleport
      dsimp only
      rw [htake, sum_eq, zero_eq]
      exact if_pos ⟨hgiven.1, decide_eq_true hgiven.2⟩
    rw [if_pos hgiven, hteleport, Vector.get_ofFn, sum_eq, zero_eq]
  · have hteleport : teleport n personalization = Vector.replicate n (ratio 1 n) := by
      unfold teleport
      refine if_neg fun h => hgiven ⟨h.1, ?_⟩
      have hpos := h.2
      rw [List.take_of_length_le h.1.le, sum_eq, zero_eq] at hpos
      exact of_decide_eq_true hpos
    rw [if_neg hgiven, hteleport, Vector.get_replicate, ratio_eq, Nat.cast_one]

/-- Weights that are not negative give a distribution, and without usable weights
all shares are equal. -/
theorem distribution_teleport [IsStrictOrderedRing K] (hn : 0 < n) {personalization : List K}
    (h : ∀ x ∈ personalization, 0 ≤ x) : Distribution (teleport n personalization) := by
  have hpos : (0 : K) < n := Nat.cast_pos.mpr hn
  refine ⟨fun v => ?_, ?_⟩
  · rw [teleport_get]
    unfold normalized
    split
    next hgiven =>
      refine div_nonneg ?_ hgiven.2.le
      rw [List.getD_eq_getElem _ _ (hgiven.1 ▸ v.isLt)]
      exact h _ (List.getElem_mem _)
    next => positivity
  · simp only [teleport_get]
    unfold normalized
    split
    next hgiven =>
      obtain ⟨rfl, hsum⟩ := hgiven
      rw [← Finset.sum_div]
      simp only [List.getD_eq_getElem _ _ (Fin.isLt _), Fin.sum_univ_getElem]
      exact div_self hsum.ne'
    next =>
      rw [Finset.sum_const, Finset.card_univ, Fintype.card_fin, nsmul_eq_mul]
      field_simp

-- ============================================================= random walk

/-- The share of a node's rank that goes to another node: that of the weight
between them, or the teleport weight if no weight leaves the first. -/
def transition (links : List (Link K n)) (p : Vector K n) : Matrix (Fin n) (Fin n) K :=
  .of fun u v =>
    if 0 < ∑ w, between links u w then between links u v / ∑ w, between links u w else p.get v

/-- All of a node's rank goes somewhere. -/
theorem transition_mem [IsStrictOrderedRing K] {links : List (Link K n)}
    (h : ∀ l ∈ links, 0 ≤ l.weight) {p : Vector K n} (hp : Distribution p) :
    transition links p ∈ Matrix.rowStochastic K (Fin n) := by
  refine Matrix.mem_rowStochastic_iff_sum.mpr ⟨fun u v => ?_, fun u => ?_⟩
  · unfold transition
    rw [Matrix.of_apply]
    split
    next hout => exact div_nonneg (between_nonneg h u v) hout.le
    next => exact hp.nonneg v
  · unfold transition
    simp only [Matrix.of_apply]
    split
    next hout => rw [← Finset.sum_div, div_self hout.ne']
    next => exact hp.total

/-- The rank that links carry to a node comes from the nodes that weight
leaves. -/
theorem sum_carried (links : List (Link K n)) (out ranks : Vector K n) (v : Fin n) :
    ((((arrivals links).get v).filter fun l => below zero (out.get l.source)).map
        (carried out ranks)).sum
      = damping * ∑ u : Fin n,
        if (0 : K) < out.get u then ranks.get u * (between links u v / out.get u) else 0 := by
  have hkept : ((arrivals links).get v).filter (fun l => below zero (out.get l.source))
      = links.filter fun l => l.target = v ∧ (0 : K) < out.get l.source := by
    unfold arrivals
    rw [Vector.get_ofFn, List.filter_filter]
    refine List.filter_congr fun l _ => ?_
    simp [Bool.and_comm]
  have hfactor : ∀ l : Link K n,
      (if l.target = v ∧ (0 : K) < out.get l.source then carried out ranks l else 0)
        = (if l.target = v ∧ (0 : K) < out.get l.source then
            damping * ranks.get l.source / out.get l.source else 0) * l.weight := by
    intro l
    unfold carried
    rw [Vector.getElem_eq_get, Vector.getElem_eq_get]
    split
    · ring
    · ring
  have hlinks := sum_links
    (fun a b => if b = v ∧ (0 : K) < out.get a then damping * ranks.get a / out.get a else 0) links
  rw [hkept, sum_map_filter]
  simp only [hfactor]
  rw [hlinks, Finset.mul_sum]
  refine Finset.sum_congr rfl fun u _ => ?_
  rw [Finset.sum_eq_single v]
  · by_cases h : (0 : K) < out.get u
    · rw [if_pos ⟨rfl, h⟩, if_pos h]
      ring
    · rw [if_neg (fun hb => h hb.2), if_neg h]
      ring
  · intro w _ hw
    rw [if_neg (fun hb => hw hb.1), zero_mul]
  · exact fun h => absurd (Finset.mem_univ _) h

/-- The rank that no link carries on is that of the nodes without weight to spend.
-/
theorem danglingRank_eq (out ranks : Vector K n) :
    danglingRank out ranks = ∑ u : Fin n, if (0 : K) < out.get u then 0 else ranks.get u := by
  have hkept : (List.finRange n).filter (fun v => !below zero (out.get v))
      = (List.finRange n).filter fun v => ¬(0 : K) < out.get v := by
    refine List.filter_congr fun v _ => ?_
    rw [zero_eq, below_eq, decide_not]
  unfold danglingRank
  simp only [Vector.getElem_eq_get]
  rw [sum_eq, hkept, sum_map_filter, sum_finRange]
  simp only [ite_not]

/-- An iteration moves rank along the transitions and mixes in the teleport
weights. -/
theorem step_get (links : List (Link K n)) (personalization : List K) (ranks : Vector K n)
    (v : Fin n) :
    (step links personalization ranks).get v
      = (1 - (damping : K)) * (teleport n personalization).get v
        + damping * ∑ u : Fin n,
          ranks.get u * transition links (teleport n personalization) u v := by
  -- a node's rank leaves it along links or, if it is dangling, by teleport
  have hsplit : ∀ u : Fin n, ranks.get u * transition links (teleport n personalization) u v
      = (if (0 : K) < (outWeights links).get u then
          ranks.get u * (between links u v / (outWeights links).get u) else 0)
        + (if (0 : K) < (outWeights links).get u then 0 else ranks.get u)
          * (teleport n personalization).get v := by
    intro u
    rw [outWeights_get]
    unfold transition
    rw [Matrix.of_apply]
    split
    · ring
    · ring
  simp only [hsplit]
  rw [Finset.sum_add_distrib, ← Finset.sum_mul, ← danglingRank_eq, mul_add, ← sum_carried]
  unfold step next
  rw [Vector.get_ofFn]
  simp only [Vector.getElem_eq_get]
  rw [foldl_add, ofNat_eq, Nat.cast_one]
  ring

end PageRank

end CodeMap
