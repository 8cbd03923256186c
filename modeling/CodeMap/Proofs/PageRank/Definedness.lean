/-
The ranking never divides by zero.

A field gives a quotient by zero some value, so a ranking over a field says
nothing about its divisions. Here it is run over `Checked` numbers instead,
where a quotient by zero is undefined and so is all that is computed from it.
Since the definitions of the ranking are the same for all number types, a run
over checked numbers does what a run over the field does, and the two agree
after every iteration (`after_checked`) and in the end (`run_checked`): nothing
was ever undefined.

All divisors but the constant ones are tested before they are used, the
personalization by its sum and the links of a node by their weight, so that
this needs at least one node and nothing else.
-/
import CodeMap.Proofs.PageRank.Iteration

namespace CodeMap

open Exact

/-- A number, or the undefined result of a division by zero. -/
inductive Checked (K : Type) where
  | number (a : K)
  | undefined

namespace Checked

variable {K : Type} [Field K] [LinearOrder K]

/-- What is computed from something undefined is undefined. -/
def lift (f : K → K → K) : Checked K → Checked K → Checked K
  | number a, number b => number (f a b)
  | _, _ => undefined

/-- A quotient of numbers, defined unless the divisor is zero. -/
def divide : Checked K → Checked K → Checked K
  | number a, number b => if b = 0 then undefined else number (a / b)
  | _, _ => undefined

/-- Nothing is smaller or larger than something undefined. -/
def smaller : Checked K → Checked K → Bool
  | number a, number b => a < b
  | _, _ => false

instance : RankNumber (Checked K) where
  add := lift (· + ·)
  sub := lift (· - ·)
  mul := lift (· * ·)
  div := divide
  ofNat k := number k
  below := smaller

-- ================================================================= numbers

@[simp]
theorem number_add (a b : K) : number a + number b = number (a + b) := rfl

@[simp]
theorem number_sub (a b : K) : number a - number b = number (a - b) := rfl

@[simp]
theorem number_mul (a b : K) : number a * number b = number (a * b) := rfl

/-- The one operation on numbers that asks for something. -/
theorem number_div (a : K) {b : K} (h : b ≠ 0) : number a / number b = number (a / b) := if_neg h

@[simp]
theorem below_number (a b : K) :
    RankNumber.below (number a) (number b) = RankNumber.below a b := rfl

@[simp]
theorem ofNat_number (k : ℕ) : (RankNumber.ofNat k : Checked K) = number (RankNumber.ofNat k) := rfl

@[simp]
theorem zero_number : (RankNumber.zero : Checked K) = number RankNumber.zero := rfl

/-- A ratio of whole numbers is defined if its divisor is not zero. -/
theorem ratio_number [CharZero K] (a : ℕ) {b : ℕ} (h : b ≠ 0) :
    (RankNumber.ratio a b : Checked K) = number (RankNumber.ratio a b) :=
  number_div _ (Nat.cast_ne_zero.mpr h)

/-- A distance takes one of two differences, both defined. -/
@[simp]
theorem distance_number (a b : K) :
    RankNumber.distance (number a) (number b) = number (RankNumber.distance a b) := by
  unfold RankNumber.distance
  rw [below_number, number_sub, number_sub]
  exact (apply_ite number _ _ _).symm

/-- Adding up what is defined, in any terms. -/
theorem foldl_number {β γ : Type} (g : β → γ) (f : β → K) (f' : γ → Checked K) (xs : List β)
    (h : ∀ x ∈ xs, f' (g x) = number (f x)) (a : K) :
    (xs.map g).foldl (fun acc x => acc + f' x) (number a)
      = number (xs.foldl (fun acc x => acc + f x) a) := by
  induction xs generalizing a with
  | nil => rfl
  | cons x rest ih =>
      rw [List.map_cons, List.foldl_cons, List.foldl_cons, h x List.mem_cons_self, number_add]
      exact ih (fun y hy => h y (List.mem_cons_of_mem x hy)) (a + f x)

/-- A sum of numbers is the number of the sum. -/
@[simp]
theorem sum_number (xs : List K) :
    RankNumber.sum (xs.map number) = number (RankNumber.sum xs) :=
  foldl_number number id id xs (fun _ _ => rfl) RankNumber.zero

end Checked

-- ============================================================= the ranking

/-- A link whose weight is checked. -/
def Link.checked {K : Type} {n : ℕ} (l : Link K n) : Link (Checked K) n :=
  ⟨l.source, l.target, .number l.weight⟩

namespace PageRank

open RankNumber Checked

variable {K : Type} {n : ℕ}

/-- An outcome whose ranks are checked. -/
def Outcome.checked (o : Outcome K n) : Outcome (Checked K) n :=
  ⟨o.ranks.map number, o.iterations, o.converged⟩

/-- Checking weights leaves it alone where links arrive. -/
theorem arrivals_checked (links : List (Link K n)) (v : Fin n) :
    (arrivals (links.map Link.checked)).get v = ((arrivals links).get v).map Link.checked := by
  unfold arrivals
  rw [Vector.get_ofFn, Vector.get_ofFn, List.filter_map]
  rfl

variable [Field K] [LinearOrder K]

/-- Total weights are sums, so they are defined. -/
theorem outWeights_checked (links : List (Link K n)) :
    outWeights (links.map Link.checked) = (outWeights links).map number := by
  unfold outWeights
  rw [Vector.map_ofFn]
  congr 1
  funext v
  rw [List.filter_map, List.map_map, Function.comp_apply, ← sum_number, List.map_map]
  rfl

/-- The ranks of the jump are defined: shares of the personalization are taken only
of a positive sum, and equal shares only of a graph with nodes. -/
theorem teleport_checked [CharZero K] (hn : 0 < n) (personalization : List K) :
    teleport n (personalization.map number) = (teleport n personalization).map number := by
  unfold teleport
  dsimp only
  rw [← List.map_take, sum_number, zero_number, below_number, List.length_map]
  split
  next hgiven =>
    -- the sum is divided by only after it was found to be positive
    have hne : sum (personalization.take n) ≠ 0 := by
      have hpos := hgiven.2
      rw [zero_eq, below_eq] at hpos
      exact (of_decide_eq_true hpos).ne'
    rw [Vector.map_ofFn]
    congr 1
    funext v
    rw [Function.comp_apply, ← number_div _ hne, List.getD_map]
  next => rw [Vector.map_replicate, ratio_number 1 hn.ne']

/-- The rank of the dangling nodes is a sum as well. -/
theorem danglingRank_checked (out ranks : Vector K n) :
    danglingRank (out.map number) (ranks.map number) = number (danglingRank out ranks) := by
  unfold danglingRank
  rw [← sum_number, List.map_map]
  simp only [Vector.getElem_eq_get, Vector.get_map, zero_number, below_number]
  rfl

/-- The damping is a ratio of constants. -/
theorem damping_checked [CharZero K] : (damping : Checked K) = number damping :=
  ratio_number 85 (by decide)

/-- What a link carries is defined if weight leaves its source. -/
theorem carried_checked [CharZero K] {out ranks : Vector K n} {l : Link K n}
    (h : below zero (out.get l.source) = true) :
    carried (out.map number) (ranks.map number) l.checked = number (carried out ranks l) := by
  rw [zero_eq, below_eq] at h
  unfold carried Link.checked
  simp only [Vector.getElem_eq_get]
  rw [Vector.get_map, Vector.get_map, damping_checked, number_mul, number_mul,
    number_div _ (of_decide_eq_true h).ne']

/-- A round divides by the total weight that leaves the source of a link, and only
where it is positive. -/
theorem step_checked [CharZero K] (hn : 0 < n) (links : List (Link K n)) (personalization : List K)
    (ranks : Vector K n) :
    step (links.map Link.checked) (personalization.map number) (ranks.map number)
      = (step links personalization ranks).map number := by
  unfold step next
  rw [outWeights_checked, teleport_checked hn, danglingRank_checked, Vector.map_ofFn]
  simp only [Vector.getElem_eq_get]
  congr 1
  funext v
  have hkept : (((arrivals (links.map Link.checked)).get v).filter fun l =>
        below zero (((outWeights links).map number).get l.source))
      = (((arrivals links).get v).filter fun l => below zero ((outWeights links).get l.source)).map
          Link.checked := by
    rw [arrivals_checked, List.filter_map]
    simp only [Vector.get_map, zero_number]
    rfl
  rw [Function.comp_apply, hkept, Vector.get_map, damping_checked, ofNat_number, number_sub,
    number_mul, number_mul, number_mul, number_add]
  exact foldl_number _ _ _ _ (fun l hl => carried_checked (List.mem_filter.mp hl).2) _

/-- The ranks at the start are equal shares of a graph with nodes. -/
theorem replicate_checked [CharZero K] (hn : 0 < n) :
    Vector.replicate n (ratio 1 n : Checked K)
      = (Vector.replicate n (ratio 1 n : K)).map number := by
  rw [Vector.map_replicate, ratio_number 1 hn.ne']

/-- By induction on the rounds, each of them being defined. -/
theorem after_checked [CharZero K] (hn : 0 < n) (links : List (Link K n))
    (personalization : List K) (k : ℕ) :
    after (links.map Link.checked) (personalization.map number) k
      = (after links personalization k).map number := by
  induction k with
  | zero => exact replicate_checked hn
  | succ k ih => rw [after_succ, after_succ, ih, step_checked hn]

/-- The change that a round makes is a sum of distances. -/
theorem change_checked (a b : Vector K n) :
    change (a.map number) (b.map number) = number (change a b) := by
  unfold change
  rw [← sum_number, List.map_map]
  simp only [Vector.getElem_eq_get, Vector.get_map, distance_number]
  rfl

/-- The loop makes the same decisions over checked numbers, so it stops in the same
round. -/
theorem iterate_checked [CharZero K] {f : Vector K n → Vector K n}
    {f' : Vector (Checked K) n → Vector (Checked K) n}
    (h : ∀ ranks : Vector K n, f' (ranks.map number) = (f ranks).map number) (fuel done : ℕ)
    (ranks : Vector K n) :
    iterate f' fuel done (ranks.map number) = (iterate f fuel done ranks).checked := by
  induction fuel generalizing done ranks with
  | zero => rfl
  | succ fuel ih =>
      have htolerance : (tolerance : Checked K) = number tolerance := ratio_number 1 (by decide)
      rw [iterate, iterate, h, change_checked, htolerance, ofNat_number, number_mul, below_number]
      split
      next => rfl
      next => exact ih (done + 1) (f ranks)

/-- A run over checked numbers is a run over the field. -/
theorem run_checked [CharZero K] (hn : 0 < n) (links : List (Link K n)) (personalization : List K) :
    run (links.map Link.checked) (personalization.map number)
      = (run links personalization).checked := by
  unfold run
  rw [replicate_checked hn]
  exact iterate_checked (step_checked hn links personalization) maxIterations 0 _

end PageRank

end CodeMap
