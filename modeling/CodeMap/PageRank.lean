/-
Personalized PageRank by power iteration, over any number type that has the
arithmetic it needs. Programs run it on floating point numbers; on rational
numbers the same definitions can be reasoned about exactly.

Sums are taken from left to right in the order of nodes or links, which
fixes the result also where addition is not associative.
-/
namespace CodeMap

/-- The arithmetic of ranks. -/
class RankNumber (α : Type) extends Add α, Sub α, Mul α, Div α where
  ofNat : Nat → α
  /-- Strictly smaller. -/
  below : α → α → Bool

instance : RankNumber Float where
  ofNat := Float.ofNat
  below a b := a < b

instance : RankNumber Rat where
  ofNat n := (n : Rat)
  below a b := a < b

namespace RankNumber

variable {α : Type} [RankNumber α]

/-- A quotient of whole numbers. -/
def ratio (a b : Nat) : α := ofNat a / ofNat b

def zero : α := ofNat 0

/-- The distance of two numbers. -/
def distance (a b : α) : α := if below a b then b - a else a - b

/-- The sum of a list, from left to right. -/
def sum (xs : List α) : α := xs.foldl (· + ·) zero

/-- Larger numbers first; numbers that cannot be told apart are equal. -/
def orderDescending (a b : α) : Ordering :=
  if below b a then .lt else if below a b then .gt else .eq

end RankNumber

/-- A weighted link between two of `n` nodes. -/
structure Link (α : Type) (n : Nat) where
  source : Fin n
  target : Fin n
  weight : α

namespace PageRank

open RankNumber

variable {α : Type} [RankNumber α] {n : Nat}

/-- Share of a node's rank that follows its links. -/
def damping : α := ratio 85 100

/-- Change per node below which the iteration has converged. -/
def tolerance : α := ratio 1 1000000

/-- Most iterations ever made. -/
def maxIterations : Nat := 100

/-- The weight of all links that leave each node. -/
def outWeights (links : List (Link α n)) : Vector α n :=
  Vector.ofFn fun v => sum ((links.filter (·.source = v)).map (·.weight))

/-- The links that arrive at each node. -/
def arrivals (links : List (Link α n)) : Vector (List (Link α n)) n :=
  Vector.ofFn fun v => links.filter (·.target = v)

/-- One weight per node, summing to one: the given weights if there is one per
node and not all are zero, else the same weight everywhere. -/
def teleport (n : Nat) (personalization : List α) : Vector α n :=
  let total := sum (personalization.take n)
  if personalization.length = n ∧ below zero total then
    Vector.ofFn fun v => personalization.getD v zero / total
  else Vector.replicate n (ratio 1 n)

/-- The rank of nodes that no weight leaves. -/
def danglingRank (out ranks : Vector α n) : α :=
  sum (((List.finRange n).filter fun v => !below zero out[v]).map fun v => ranks[v])

/-- The rank a link carries. -/
def carried (out ranks : Vector α n) (l : Link α n) : α :=
  damping * ranks[l.source] * l.weight / out[l.source]

/-- The ranks after one more iteration. -/
def next (p out : Vector α n) (arriving : Vector (List (Link α n)) n) (ranks : Vector α n) :
    Vector α n :=
  let dangling := danglingRank out ranks
  Vector.ofFn fun v =>
    let base := (ofNat 1 - damping) * p[v] + damping * dangling * p[v]
    (arriving[v].filter fun l => below zero out[l.source]).foldl
      (fun acc l => acc + carried out ranks l) base

/-- How far two rank vectors are apart. -/
def change (a b : Vector α n) : α :=
  sum ((List.finRange n).map fun v => distance a[v] b[v])

/-- Where an iteration ended. -/
structure Outcome (α : Type) (n : Nat) where
  ranks : Vector α n
  iterations : Nat
  converged : Bool

/-- At most `fuel` further iterations, the first of them numbered `done`. -/
def iterate (step : Vector α n → Vector α n) : Nat → Nat → Vector α n → Outcome α n
  | 0, done, ranks => ⟨ranks, done, false⟩
  | fuel + 1, done, ranks =>
    let ranks' := step ranks
    if below (change ranks' ranks) (ofNat n * tolerance) then ⟨ranks', done + 1, true⟩
    else iterate step fuel (done + 1) ranks'

/-- The iteration from equal ranks. -/
def run (links : List (Link α n)) (personalization : List α) : Outcome α n :=
  iterate (next (teleport n personalization) (outWeights links) (arrivals links))
    maxIterations 0 (Vector.replicate n (ratio 1 n))

/-- The ranks of `n` nodes. -/
def ranks (links : List (Link α n)) (personalization : List α) : Vector α n :=
  (run links personalization).ranks

end PageRank

end CodeMap
