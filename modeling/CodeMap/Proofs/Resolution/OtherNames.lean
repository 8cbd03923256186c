/-
Definitions of other names do not matter.

Definitions are known by their positions, and those that are put in somewhere
move the positions of all that follow. A move in which order is kept
(`shifted`) takes every list of candidates along as it is: the candidates of a
name keep their order, their scores and which of them is the definition around
the reference (`candidates_placed`, `best_placed`). So what a reference is
resolved to is the same definition at its new place, as long as none of the
others has the name of the reference (`resolve_insert`).
-/
import CodeMap.Proofs.Resolution.Choice
import Mathlib.Order.Monotone.Basic

namespace CodeMap

-- ================================================================ positions

/-- The place of position `i` after `count` elements were put in at `start`. -/
def shifted (start count i : Nat) : Nat := if i < start then i else i + count

theorem shifted_of_lt {start i : Nat} (h : i < start) (count : Nat) :
    shifted start count i = i := if_pos h

theorem shifted_of_le {start i : Nat} (h : start ≤ i) (count : Nat) :
    shifted start count i = i + count := if_neg (Nat.not_lt.mpr h)

/-- Putting elements in keeps the order of the others. -/
theorem strictMono_shifted (start count : Nat) : StrictMono (shifted start count) := by
  intro i j hij
  unfold shifted
  split <;> split <;> omega

/-- Every element is found at its new place. -/
theorem getElem?_shifted {α : Type} (as xs bs : List α) (i : Nat) :
    (as ++ (xs ++ bs))[shifted as.length xs.length i]? = (as ++ bs)[i]? := by
  by_cases hi : i < as.length
  · rw [shifted_of_lt hi, List.getElem?_append_left hi, List.getElem?_append_left hi]
  · rw [Nat.not_lt] at hi
    rw [shifted_of_le hi, List.getElem?_append_right (by omega), List.getElem?_append_right (by omega),
      List.getElem?_append_right hi]
    congr 1
    omega

namespace Resolution

-- =============================================================== candidates

/-- A candidate at another place. -/
def Candidate.placed (σ : Nat → Nat) (c : Candidate) : Candidate := ⟨σ c.position, c.definition⟩

/-- Candidates are numbered on through a longer list. -/
theorem named_append (name : String) (n : Nat) (as bs : List Definition) :
    named name n (as ++ bs) = named name n as ++ named name (n + as.length) bs := by
  induction as generalizing n with
  | nil => rfl
  | cons d as ih =>
      have hlength : n + 1 + as.length = n + (d :: as).length := by
        rw [List.length_cons]
        omega
      rw [List.cons_append, named, named, ih, hlength]
      split <;> rfl

/-- Definitions of other names are no candidates. -/
theorem named_eq_nil {name : String} {xs : List Definition} (h : ∀ x ∈ xs, x.name ≠ name)
    (n : Nat) : named name n xs = [] := by
  induction xs generalizing n with
  | nil => rfl
  | cons x xs ih =>
      rw [named, if_neg (h x (by simp)), ih fun y hy => h y (by simp [hy])]

/-- Numbering from another start on moves every candidate. -/
theorem named_add (name : String) (n count : Nat) (defs : List Definition) :
    named name (n + count) defs = (named name n defs).map (Candidate.placed (· + count)) := by
  induction defs generalizing n with
  | nil => rfl
  | cons d defs ih =>
      have hnext : n + count + 1 = n + 1 + count := by omega
      rw [named, named, hnext, ih]
      split <;> rfl

section Insert

variable {as xs bs : List Definition} {r : Reference} {own : Option Nat} {σ : Nat → Nat}

/-- With other names put in, the same candidates stand at shifted places. -/
theorem named_insert {name : String} (h : ∀ x ∈ xs, x.name ≠ name) :
    named name 0 (as ++ (xs ++ bs))
      = (named name 0 (as ++ bs)).map (Candidate.placed (shifted as.length xs.length)) := by
  rw [named_append, named_append, named_append, named_eq_nil h, List.nil_append, Nat.zero_add,
    named_add, List.map_append]
  congr 1
  · refine (List.map_id _).symm.trans (List.map_congr_left fun c hc => ?_)
    obtain ⟨-, hat, -⟩ := mem_named.mp hc
    have hlt : c.position < as.length := (List.getElem?_eq_some_iff.mp hat).1
    rw [Candidate.placed, shifted_of_lt hlt]
    rfl
  · refine List.map_congr_left fun c hc => ?_
    have hle : as.length ≤ c.position := (mem_named.mp hc).1
    rw [Candidate.placed, Candidate.placed, shifted_of_le hle]

/-- A move in which order is kept does not change the order of candidates. -/
theorem order_placed (hσ : StrictMono σ) (c d : Candidate) :
    (c.placed σ).order (d.placed σ) = c.order d := by
  have hposition : compare (σ c.position) (σ d.position) = compare c.position d.position := by
    show compareOfLessAndEq _ _ = compareOfLessAndEq _ _
    simp only [compareOfLessAndEq, hσ.lt_iff_lt, hσ.injective.eq_iff]
  show _ = (c.definition.path.order d.definition.path).then _
  rw [← hposition]
  rfl

/-- Since their order is kept, moved candidates are sorted like the others. -/
theorem candidates_placed (hσ : StrictMono σ) {defs defs' : List Definition} {name : String}
    (h : named name 0 defs' = (named name 0 defs).map (Candidate.placed σ)) :
    candidates defs' name = (candidates defs name).map (Candidate.placed σ) := by
  rw [candidates, candidates, h]
  exact (List.map_mergeSort fun c _ d _ => by rw [order_placed hσ]).symm

/-- A step of the scan compares scores and asks for the own position, which move
along. -/
theorem keep_placed (hσ : StrictMono σ) (found : Option (Nat × Nat)) (c : Candidate) :
    keep r (own.map σ) (found.map fun p => (σ p.1, p.2)) (c.placed σ)
      = (keep r own found c).map fun p => (σ p.1, p.2) := by
  have hown : some (c.placed σ).position = own.map σ ↔ some c.position = own := by
    show (some c.position).map σ = own.map σ ↔ _
    rw [(Option.map_injective hσ.injective).eq_iff]
  have hscore : (found.map fun p => (σ p.1, p.2)).map (·.2) = found.map (·.2) := by
    rw [Option.map_map]
    rfl
  have hwins : (some (c.placed σ).position ≠ own.map σ
        ∧ ((found.map fun p => (σ p.1, p.2)).map (·.2)).getD 0
          < matchScore r (c.placed σ).definition)
      ↔ some c.position ≠ own ∧ (found.map (·.2)).getD 0 < matchScore r c.definition :=
    and_congr (not_congr hown) (by rw [hscore]; rfl)
  unfold keep
  by_cases h : some c.position ≠ own ∧ (found.map (·.2)).getD 0 < matchScore r c.definition
  · rw [if_pos h, if_pos (hwins.mpr h)]
    rfl
  · rw [if_neg h, if_neg (mt hwins.mp h)]

/-- The scan finds the same candidate at its new place. -/
theorem best_placed (hσ : StrictMono σ) (cs : List Candidate) :
    ∀ found : Option (Nat × Nat),
      best r (own.map σ) (found.map fun p => (σ p.1, p.2)) (cs.map (Candidate.placed σ))
        = (best r own found cs).map σ := by
  induction cs with
  | nil =>
      intro found
      cases found <;> rfl
  | cons c cs ih =>
      intro found
      rw [List.map_cons, best_cons, best_cons, keep_placed hσ]
      exact ih _

/-- What a reference is resolved to moves along with the candidates. -/
theorem resolve_placed (hσ : StrictMono σ) {defs defs' : List Definition}
    (h : named r.name 0 defs' = (named r.name 0 defs).map (Candidate.placed σ)) :
    resolve defs' r (own.map σ) = (resolve defs r own).map σ := by
  unfold resolve
  rw [candidates_placed hσ h]
  match candidates defs r.name with
  | [] => rfl
  | [only] => rfl
  | c :: d :: rest => exact best_placed hσ (c :: d :: rest) none

/-- Definitions of other names that are put in somewhere do not change what a
reference is resolved to. -/
theorem resolve_insert (h : ∀ x ∈ xs, x.name ≠ r.name) :
    resolve (as ++ (xs ++ bs)) r (own.map (shifted as.length xs.length))
      = (resolve (as ++ bs) r own).map (shifted as.length xs.length) :=
  resolve_placed (strictMono_shifted _ _) (named_insert h)

end Insert

end Resolution

end CodeMap
