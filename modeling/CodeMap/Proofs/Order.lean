/-
The orders by which paths and rows are listed.

Paths are compared component by component, and two paths compare equal exactly
if they have the same components, whatever their spelling (`order_eq_eq_iff`).
Rows are compared by file, first line and qualified name. Each comparison is a
lexicographic combination of simpler ones, so that its laws are those of its
parts.

Sorting by such a comparison gives a sorted list (`pairwise_sort`), and where
no two elements compare equal it forgets in which order they came
(`sort_eq_of_perm`). In a sorted list repetitions are neighbours, and dropping
repeated neighbours drops no element (`mem_eraseReps`) and leaves a strict order
(`pairwise_eraseReps`). A list in strict order is settled by its elements
(`eq_of_pairwise_lt`).
-/
import CodeMap.Path
import CodeMap.Store
import Mathlib.Data.List.Nodup

namespace CodeMap

open Std

-- ================================================================== sorting

section Sorting

variable {α β : Type} {cmp : β → β → Ordering} [TransCmp cmp]

/-- Two elements that are both at most the other compare equal. -/
theorem eq_of_isLE_of_isLE {a b : β} (hab : (cmp a b).isLE) (hba : (cmp b a).isLE) :
    cmp a b = .eq := by
  rw [@OrientedCmp.eq_swap β cmp _ b a] at hba
  cases h : cmp a b with
  | lt =>
      rw [h] at hba
      cases hba
  | eq => rfl
  | gt =>
      rw [h] at hab
      cases hab

theorem lt_of_isLE_of_ne {o : Ordering} (hle : o.isLE) (hne : o ≠ .eq) : o = .lt :=
  (Ordering.isLE_iff_eq_lt_or_eq_eq.mp hle).resolve_right hne

/-- Elements sorted by a key are in the order of their keys. -/
theorem pairwise_sort (key : α → β) (xs : List α) :
    (xs.mergeSort fun a b => (cmp (key a) (key b)).isLE).Pairwise
      fun a b => (cmp (key a) (key b)).isLE := by
  refine List.pairwise_mergeSort (fun a b c => TransCmp.isLE_trans) (fun a b => ?_) xs
  rw [@OrientedCmp.eq_swap β cmp _ (key b) (key a)]
  cases cmp (key a) (key b) <;> rfl

/-- If no two elements have keys that compare equal, sorting forgets in which
order they came. -/
theorem sort_eq_of_perm {key : α → β} {xs ys : List α} (hperm : xs.Perm ys)
    (hkeys : ∀ a ∈ xs, ∀ b ∈ xs, cmp (key a) (key b) = .eq → a = b) :
    (xs.mergeSort fun a b => (cmp (key a) (key b)).isLE)
      = ys.mergeSort fun a b => (cmp (key a) (key b)).isLE := by
  refine List.Perm.eq_of_pairwise (fun a b ha hb hab hba => ?_) (pairwise_sort key xs)
    (pairwise_sort key ys) ?_
  · have hb' : b ∈ xs := hperm.mem_iff.mpr (List.mem_mergeSort.mp hb)
    exact hkeys a (List.mem_mergeSort.mp ha) b hb' (eq_of_isLE_of_isLE hab hba)
  · exact (List.mergeSort_perm xs _).trans (hperm.trans (List.mergeSort_perm ys _).symm)

end Sorting

-- ====================================================== repeated neighbours

/-- What was kept so far stands in front of what is kept of the rest. -/
theorem loop_eraseReps {α : Type} (r : α → α → Bool) (a : α) (as acc : List α) :
    List.eraseRepsBy.loop r a as acc = acc.reverse ++ List.eraseRepsBy.loop r a as [] := by
  induction as generalizing a acc with
  | nil => simp [List.eraseRepsBy.loop]
  | cons b as ih =>
      unfold List.eraseRepsBy.loop
      split
      · exact ih a acc
      · rw [ih b (a :: acc), ih b [a], List.reverse_cons, List.append_assoc]
        rfl

/-- Dropping repeated neighbours adds and moves nothing. -/
theorem eraseRepsBy_sublist {α : Type} (r : α → α → Bool) (xs : List α) :
    (xs.eraseRepsBy r).Sublist xs := by
  cases xs with
  | nil => exact .slnil
  | cons a as =>
      show (List.eraseRepsBy.loop r a as []).Sublist (a :: as)
      induction as generalizing a with
      | nil => exact List.Sublist.refl _
      | cons b as ih =>
          rw [List.eraseRepsBy.loop]
          split
          · exact (ih a).trans ((List.sublist_cons_self b as).cons_cons a)
          · rw [loop_eraseReps]
            exact (ih b).cons_cons a

/-- Of two equal neighbours the first is kept. -/
theorem eraseReps_cons_cons {α : Type} [BEq α] (a b : α) (as : List α) :
    (a :: b :: as).eraseReps
      = if a == b then (a :: as).eraseReps else a :: (b :: as).eraseReps := by
  show List.eraseRepsBy.loop (· == ·) a (b :: as) [] = _
  cases hab : a == b with
  | true =>
      rw [if_pos rfl, List.eraseRepsBy.loop, hab]
      rfl
  | false =>
      rw [if_neg Bool.false_ne_true, List.eraseRepsBy.loop, hab]
      exact loop_eraseReps _ b as [a]

/-- Of equal neighbours one is kept. -/
theorem mem_eraseReps {α : Type} [BEq α] [LawfulBEq α] {x : α} (xs : List α) :
    x ∈ xs.eraseReps ↔ x ∈ xs := by
  cases xs with
  | nil => exact Iff.rfl
  | cons a as =>
      induction as generalizing a with
      | nil => exact Iff.rfl
      | cons b as ih =>
          rw [eraseReps_cons_cons]
          by_cases hab : a = b
          · subst hab
            rw [if_pos (beq_self_eq_true a), ih a]
            simp
          · rw [if_neg (by rwa [beq_iff_eq]), List.mem_cons, ih b, ← List.mem_cons]

/-- Of a sorted list it leaves one element of each kind, in order. -/
theorem pairwise_eraseReps {α : Type} [BEq α] [LawfulBEq α] {cmp : α → α → Ordering}
    [TransCmp cmp] [LawfulEqCmp cmp] {xs : List α}
    (h : xs.Pairwise fun a b => (cmp a b).isLE) :
    xs.eraseReps.Pairwise fun a b => cmp a b = .lt := by
  cases xs with
  | nil => exact .nil
  | cons a as =>
      induction as generalizing a with
      | nil => exact List.pairwise_singleton _ _
      | cons b as ih =>
          rw [eraseReps_cons_cons]
          by_cases hab : a = b
          · subst hab
            rw [if_pos (beq_self_eq_true a)]
            exact ih a h.of_cons
          · rw [if_neg (by rwa [beq_iff_eq])]
            refine List.pairwise_cons.mpr ⟨fun x hx => ?_, ih b h.of_cons⟩
            have hlt : cmp a b = .lt := lt_of_isLE_of_ne (List.rel_of_pairwise_cons h (by simp))
              fun heq => hab (LawfulEqCmp.eq_of_compare heq)
            rcases List.mem_cons.mp ((mem_eraseReps _).mp hx) with rfl | hx
            · exact hlt
            · exact TransCmp.lt_of_lt_of_isLE hlt (List.rel_of_pairwise_cons h.of_cons hx)

/-- Two lists in strict order are the same if they have the same elements. -/
theorem eq_of_pairwise_lt {α β : Type} {cmp : β → β → Ordering} [OrientedCmp cmp] {key : α → β}
    {xs ys : List α} (hxs : xs.Pairwise fun a b => cmp (key a) (key b) = .lt)
    (hys : ys.Pairwise fun a b => cmp (key a) (key b) = .lt) (h : ∀ x, x ∈ xs ↔ x ∈ ys) :
    xs = ys := by
  have hasymm : ∀ a b : α, cmp (key a) (key b) = .lt → cmp (key b) (key a) ≠ .lt := by
    intro a b hab hba
    rw [@OrientedCmp.eq_swap β cmp _ (key b) (key a), hab] at hba
    cases hba
  have hnodup : ∀ {zs : List α}, (zs.Pairwise fun a b => cmp (key a) (key b) = .lt) → zs.Nodup := by
    intro zs hzs
    refine hzs.imp fun {a b} hab heq => ?_
    subst heq
    exact hasymm a a hab hab
  exact List.Perm.eq_of_pairwise (fun a b _ _ hab hba => absurd hba (hasymm a b hab)) hxs hys
    ((List.perm_ext_iff_of_nodup (hnodup hxs) (hnodup hys)).mpr h)

-- ==================================================================== paths

namespace Component

/-- Components are compared by kind, and names among themselves as texts. -/
theorem order_eq : order = compareLex (compareOn rank) (compareOn word) := by
  funext a b
  cases a <;> cases b <;> rfl

instance : TransCmp order := order_eq ▸ inferInstance

instance : LawfulEqCmp order where
  compare_self {a} := by
    cases a with
    | name text => exact ReflOrd.compare_self
    | root | here | up => rfl
  eq_of_compare {a b} h := by
    rw [order_eq, compareLex, Ordering.then_eq_eq] at h
    have hrank : a.rank = b.rank := LawfulEqOrd.eq_of_compare h.1
    have hword : a.word = b.word := LawfulEqOrd.eq_of_compare h.2
    cases a <;> cases b <;> simp_all [rank, word]

end Component

namespace Path

theorem orderComponents_eq : orderComponents = List.compareLex Component.order := by
  funext as bs
  induction as generalizing bs with
  | nil => cases bs <;> rfl
  | cons a as ih =>
      cases bs with
      | nil => rfl
      | cons b bs => rw [orderComponents, List.compareLex_cons_cons, ih]

instance : TransCmp orderComponents := orderComponents_eq ▸ inferInstance

instance : LawfulEqCmp orderComponents := orderComponents_eq ▸ inferInstance

instance : TransCmp order where
  eq_swap {a b} := @OrientedCmp.eq_swap _ orderComponents _ a.components b.components
  isLE_trans {a b c} :=
    @TransCmp.isLE_trans _ orderComponents _ a.components b.components c.components

/-- Paths that compare equal are spellings of the same components. -/
theorem order_eq_eq_iff {a b : Path} : a.order b = .eq ↔ a.components = b.components :=
  @LawfulEqCmp.compare_eq_iff_eq _ orderComponents _ _ _

end Path

-- ===================================================================== rows

namespace NodeRow

theorem orderLine_eq : orderLine = compare := by
  funext a b
  cases a <;> cases b <;> rfl

theorem order_eq : order = compareLex (compareOn filePath)
    (compareLex (compareOn startLine) (compareOn qualifiedName)) := by
  funext a b
  rw [order, orderLine_eq]
  rfl

instance : TransCmp order := order_eq ▸ inferInstance

end NodeRow

theorem pairwise_sortRows (rows : List NodeRow) :
    (sortRows rows).Pairwise fun a b => (a.order b).isLE :=
  pairwise_sort id rows

end CodeMap
