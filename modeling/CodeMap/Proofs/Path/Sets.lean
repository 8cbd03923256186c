/-
Lists of paths as sets.

Paths are the same if their components are, so a set of paths may hold any
spelling of its members. There are two ways to keep one spelling of each: in
path order, which drops neighbours from a sorted list, and in the order of
first occurrence. Both keep only paths that were there, keep some spelling of
every path, and never keep two spellings of one.
-/
import CodeMap.Proofs.Order

namespace CodeMap

open Std

-- ========================================================= first occurrences

section FirstOccurrences

variable {α : Type} {r : α → α → Bool}

/-- Induction as repetitions are dropped: from the rest without the spellings
of the first element to the whole list. -/
theorem eraseDupsBy_induction (r : α → α → Bool) {motive : List α → Prop} (nil : motive [])
    (cons : ∀ a as, motive (as.filter fun b => decide (r b a = false)) → motive (a :: as)) :
    ∀ xs, motive xs
  | [] => nil
  | a :: as => cons a as (eraseDupsBy_induction r nil cons _)
  termination_by xs => xs.length
  decreasing_by
    have := List.length_filter_le (fun b => decide (r b a = false)) as
    simp only [List.length_cons]
    omega

/-- Of spellings of one element the first is kept. -/
theorem eraseDupsBy_sublist (r : α → α → Bool) (xs : List α) : (xs.eraseDupsBy r).Sublist xs := by
  induction xs using eraseDupsBy_induction r with
  | nil => exact .slnil
  | cons a as ih =>
      rw [List.eraseDupsBy_cons]
      exact (ih.trans List.filter_sublist).cons_cons a

/-- No element that is kept is a spelling of an earlier one. -/
theorem pairwise_eraseDupsBy (r : α → α → Bool) (xs : List α) :
    (xs.eraseDupsBy r).Pairwise fun a b => r b a = false := by
  induction xs using eraseDupsBy_induction r with
  | nil => exact .nil
  | cons a as ih =>
      rw [List.eraseDupsBy_cons]
      refine List.pairwise_cons.mpr ⟨fun b hb => ?_, ih⟩
      have hmem := (eraseDupsBy_sublist r _).subset hb
      exact of_decide_eq_true (List.mem_filter.mp hmem).2

/-- Every element has a spelling among those that are kept. -/
theorem exists_mem_eraseDupsBy (hrefl : ∀ a, r a a = true) {x : α} {xs : List α} (h : x ∈ xs) :
    ∃ y ∈ xs.eraseDupsBy r, r x y = true := by
  induction xs using eraseDupsBy_induction r with
  | nil => cases h
  | cons a as ih =>
      rw [List.eraseDupsBy_cons]
      cases hxa : r x a with
      | true => exact ⟨a, List.mem_cons_self, hxa⟩
      | false =>
          have hx : x ∈ as := by
            rcases List.mem_cons.mp h with rfl | hx
            · rw [hrefl] at hxa
              cases hxa
            · exact hx
          obtain ⟨y, hy, hxy⟩ := ih (List.mem_filter.mpr ⟨hx, decide_eq_true hxa⟩)
          exact ⟨y, List.mem_cons_of_mem a hy, hxy⟩

/-- What is appended to a list leaves the first occurrences of the list alone. -/
theorem eraseDupsBy_prefix (r : α → α → Bool) (xs : List α) :
    ∀ ys, xs.eraseDupsBy r <+: (xs ++ ys).eraseDupsBy r := by
  induction xs using eraseDupsBy_induction r with
  | nil =>
      intro ys
      exact List.nil_prefix
  | cons a as ih =>
      intro ys
      rw [List.cons_append, List.eraseDupsBy_cons, List.eraseDupsBy_cons, List.filter_append]
      exact (List.prefix_cons_inj a).mpr (ih _)

/-- One element more is a first occurrence if no spelling of it came before. -/
theorem mem_eraseDupsBy_concat (htrans : ∀ a b c, r a b = true → r b c = true → r a c = true)
    (xs : List α) {x y : α} :
    y ∈ (xs ++ [x]).eraseDupsBy r
      ↔ y ∈ xs.eraseDupsBy r ∨ y = x ∧ ∀ z ∈ xs, r x z = false := by
  induction xs using eraseDupsBy_induction r with
  | nil => simp [List.eraseDupsBy_cons]
  | cons a as ih =>
      rw [List.cons_append, List.eraseDupsBy_cons, List.eraseDupsBy_cons, List.filter_append,
        List.filter_singleton, List.mem_cons, List.mem_cons]
      cases hxa : r x a with
      | true =>
          have hno : ¬ (y = x ∧ ∀ z ∈ a :: as, r x z = false) := by
            rintro ⟨-, h⟩
            rw [h a List.mem_cons_self] at hxa
            cases hxa
          rw [or_iff_left hno, decide_eq_false (by decide), cond_false, List.append_nil]
      | false =>
          -- what is dropped with the first element is no spelling of the last one
          have hdropped : (∀ z ∈ as.filter fun b => decide (r b a = false), r x z = false)
              ↔ ∀ z ∈ a :: as, r x z = false := by
            constructor
            · intro h z hz
              rcases List.mem_cons.mp hz with rfl | hz
              · exact hxa
              · cases hza : r z a with
                | false => exact h z (List.mem_filter.mpr ⟨hz, decide_eq_true hza⟩)
                | true =>
                    refine Bool.eq_false_iff.mpr fun hxz => ?_
                    rw [htrans x z a hxz hza] at hxa
                    cases hxa
            · exact fun h z hz => h z (List.mem_cons_of_mem a (List.mem_filter.mp hz).1)
          rw [decide_eq_true rfl, cond_true, ih, hdropped, or_assoc]

end FirstOccurrences

-- ================================================================ neighbours

section Neighbours

variable {α β : Type} {cmp : β → β → Ordering} [TransCmp cmp] {key : α → β} {r : α → α → Bool}

/-- In a sorted list the spellings of an element are neighbours, so that looking at
neighbours only finds all of them. -/
theorem eraseRepsBy_eq_eraseDupsBy (hr : ∀ a b, r a b = true ↔ cmp (key a) (key b) = .eq)
    {xs : List α} (h : xs.Pairwise fun a b => (cmp (key a) (key b)).isLE) :
    xs.eraseRepsBy r = xs.eraseDupsBy r := by
  cases xs with
  | nil => rfl
  | cons a as =>
      show List.eraseRepsBy.loop r a as [] = (a :: as).eraseDupsBy r
      induction as generalizing a with
      | nil => rfl
      | cons b as ih =>
          rw [List.eraseDupsBy_cons, List.eraseRepsBy.loop]
          cases hab : r a b with
          | true =>
              have hba : r b a = true := by
                rw [hr, OrientedCmp.eq_comm]
                exact (hr a b).mp hab
              have hskip : (a :: as).Pairwise fun a b => (cmp (key a) (key b)).isLE :=
                h.sublist ((List.sublist_cons_self b as).cons_cons a)
              rw [List.filter_cons_of_neg (by rw [hba]; decide), ← List.eraseDupsBy_cons]
              exact ih a hskip
          | false =>
              -- whatever comes later is above the first element
              have hlt : cmp (key a) (key b) = .lt := by
                refine lt_of_isLE_of_ne (List.rel_of_pairwise_cons h List.mem_cons_self) ?_
                exact fun heq => Bool.eq_false_iff.mp hab ((hr a b).mpr heq)
              have hkept : (b :: as).filter (fun x => decide (r x a = false)) = b :: as := by
                refine List.filter_eq_self.mpr fun x hx => decide_eq_true ?_
                refine Bool.eq_false_iff.mpr fun hxa => ?_
                have hax : cmp (key a) (key x) = .lt := by
                  rcases List.mem_cons.mp hx with rfl | hx
                  · exact hlt
                  · exact TransCmp.lt_of_lt_of_isLE hlt (List.rel_of_pairwise_cons h.of_cons hx)
                rw [OrientedCmp.eq_comm.mp ((hr x a).mp hxa)] at hax
                cases hax
              dsimp only
              rw [hkept, loop_eraseReps, ih b h.of_cons]
              rfl

end Neighbours

namespace Path

/-- Paths are the same if their components are. -/
theorem same_iff {p q : Path} : p.same q = true ↔ p.components = q.components := beq_iff_eq

theorem same_refl (p : Path) : p.same p = true := same_iff.mpr rfl

/-- A path is among others if one of them has its components. -/
theorem among_iff {p : Path} {ps : List Path} :
    p.among ps = true ↔ ∃ q ∈ ps, q.components = p.components := by
  rw [among, List.any_eq_true]
  exact exists_congr fun q => and_congr_right fun _ => same_iff.trans eq_comm

/-- Which paths a list holds is a matter of components. -/
theorem among_congr {p q : Path} (h : p.components = q.components) (ps : List Path) :
    p.among ps = q.among ps := by
  unfold among same
  rw [h]

/-- No path is used for the first time twice. -/
theorem pairwise_firstUses (ps : List Path) :
    (firstUses ps).Pairwise fun p q => p.components ≠ q.components := by
  refine (pairwise_eraseDupsBy same ps).imp fun {p q} h heq => ?_
  rw [same_iff.mpr heq.symm] at h
  cases h

/-- First uses are uses. -/
theorem mem_of_mem_firstUses {ps : List Path} {p : Path} (h : p ∈ firstUses ps) : p ∈ ps :=
  (eraseDupsBy_sublist same ps).subset h

/-- Every path has a first use, in some spelling. -/
theorem exists_mem_firstUses {ps : List Path} {p : Path} (h : p ∈ ps) :
    ∃ q ∈ firstUses ps, q.components = p.components := by
  obtain ⟨q, hq, hsame⟩ := exists_mem_eraseDupsBy same_refl h
  exact ⟨q, hq, (same_iff.mp hsame).symm⟩

/-- One path more is used for the first time if no spelling of it was used. -/
theorem mem_firstUses_concat {ps : List Path} {p q : Path} :
    q ∈ firstUses (ps ++ [p])
      ↔ q ∈ firstUses ps ∨ q = p ∧ ∀ r ∈ ps, r.components ≠ p.components := by
  have hnone : (∀ r ∈ ps, p.same r = false) ↔ ∀ r ∈ ps, r.components ≠ p.components := by
    refine forall₂_congr fun r _ => ?_
    rw [Bool.eq_false_iff, ne_eq, same_iff, eq_comm]
  have htrans : ∀ a b c : Path, a.same b = true → b.same c = true → a.same c = true :=
    fun a b c h h' => same_iff.mpr ((same_iff.mp h).trans (same_iff.mp h'))
  rw [firstUses, mem_eraseDupsBy_concat (r := same) htrans, hnone]
  rfl

/-- Later paths leave the first uses of earlier ones where they are. -/
theorem firstUses_prefix {ps qs : List Path} (h : ps <+: qs) : firstUses ps <+: firstUses qs := by
  obtain ⟨rest, rfl⟩ := h
  exact eraseDupsBy_prefix same ps rest

-- =============================================================== path order

/-- Dropping repetitions adds and moves nothing. -/
theorem dropRepeated_sublist (ps : List Path) : (dropRepeated ps).Sublist ps := by
  fun_induction dropRepeated ps with
  | case1 => exact List.Sublist.refl _
  | case2 p => exact List.Sublist.refl _
  | case3 p q rest hsame ih => exact ih.cons p
  | case4 p q rest hdiffer ih => exact ih.cons_cons p

/-- Some spelling of every path is kept. -/
theorem exists_mem_dropRepeated (ps : List Path) :
    ∀ p ∈ ps, ∃ q ∈ dropRepeated ps, q.components = p.components := by
  fun_induction dropRepeated ps with
  | case1 =>
      intro p h
      cases h
  | case2 a =>
      intro p h
      exact ⟨p, h, rfl⟩
  | case3 a b rest hsame ih =>
      intro p h
      rcases List.mem_cons.mp h with rfl | h
      · -- the path goes, and its neighbour is a spelling of it
        obtain ⟨q, hq, hqb⟩ := ih b List.mem_cons_self
        exact ⟨q, hq, hqb.trans (same_iff.mp hsame).symm⟩
      · exact ih p h
  | case4 a b rest hdiffer ih =>
      intro p h
      rcases List.mem_cons.mp h with rfl | h
      · exact ⟨p, List.mem_cons_self, rfl⟩
      · obtain ⟨q, hq, hqp⟩ := ih p h
        exact ⟨q, List.mem_cons_of_mem a hq, hqp⟩

/-- Where spellings of one path stand together, one of them is kept. -/
theorem pairwise_dropRepeated {ps : List Path} (h : ps.Pairwise fun p q => (p.order q).isLE) :
    (dropRepeated ps).Pairwise fun p q => p.order q = .lt := by
  fun_induction dropRepeated ps with
  | case1 => exact .nil
  | case2 p => exact List.pairwise_singleton _ _
  | case3 p q rest hsame ih => exact ih h.of_cons
  | case4 p q rest hdiffer ih =>
      refine List.pairwise_cons.mpr ⟨fun x hx => ?_, ih h.of_cons⟩
      have hne : p.order q ≠ .eq := fun heq => hdiffer (same_iff.mpr (order_eq_eq_iff.mp heq))
      have hpq : p.order q = .lt := lt_of_isLE_of_ne (List.rel_of_pairwise_cons h (by simp)) hne
      rcases List.mem_cons.mp ((dropRepeated_sublist _).subset hx) with rfl | hx
      · exact hpq
      · exact TransCmp.lt_of_lt_of_isLE hpq (List.rel_of_pairwise_cons h.of_cons hx)

/-- The set holds only paths of the list. -/
theorem mem_of_mem_sortedSet {ps : List Path} {p : Path} (h : p ∈ sortedSet ps) : p ∈ ps :=
  List.mem_mergeSort.mp ((dropRepeated_sublist _).subset h)

/-- The set holds every path of the list in some spelling. -/
theorem exists_mem_sortedSet {ps : List Path} {p : Path} (h : p ∈ ps) :
    ∃ q ∈ sortedSet ps, q.components = p.components :=
  exists_mem_dropRepeated _ p (List.mem_mergeSort.mpr h)

/-- The set is in path order, without repetitions. -/
theorem pairwise_sortedSet (ps : List Path) :
    (sortedSet ps).Pairwise fun p q => p.order q = .lt :=
  pairwise_dropRepeated (pairwise_sort id ps)

-- ============================================================ one spelling

/-- The list holds one spelling of every path. -/
def SpelledOnce (ps : List Path) : Prop :=
  ∀ p ∈ ps, ∀ q ∈ ps, p.components = q.components → p = q

/-- A part of a list with one spelling of every path is such a list. -/
theorem SpelledOnce.subset {ps qs : List Path} (h : SpelledOnce ps) (hsub : qs ⊆ ps) :
    SpelledOnce qs :=
  fun p hp q hq heq => h p (hsub hp) q (hsub hq) heq

/-- With one spelling of every path the set holds exactly the paths of the list. -/
theorem SpelledOnce.mem_sortedSet_iff {ps : List Path} (h : SpelledOnce ps) {p : Path} :
    p ∈ sortedSet ps ↔ p ∈ ps := by
  refine ⟨mem_of_mem_sortedSet, fun hp => ?_⟩
  obtain ⟨q, hq, heq⟩ := exists_mem_sortedSet hp
  exact h q (mem_of_mem_sortedSet hq) p hp heq ▸ hq

/-- Where every path has one spelling, the part of a set that passes a test
depends on the members that pass it only. -/
theorem SpelledOnce.filter_sortedSet {ps qs : List Path} (hps : SpelledOnce ps)
    (hqs : SpelledOnce qs) {test : Path → Bool}
    (h : ∀ p, test p = true → (p ∈ ps ↔ p ∈ qs)) :
    (sortedSet ps).filter test = (sortedSet qs).filter test := by
  refine @eq_of_pairwise_lt _ _ order _ id _ _ ((pairwise_sortedSet ps).filter test)
    ((pairwise_sortedSet qs).filter test) fun p => ?_
  rw [List.mem_filter, List.mem_filter, hps.mem_sortedSet_iff, hqs.mem_sortedSet_iff]
  exact and_congr_left fun htest => h p htest

/-- With one spelling of every path the set is settled by the members of the list.
-/
theorem SpelledOnce.sortedSet_eq {ps qs : List Path} (hps : SpelledOnce ps)
    (h : ∀ p, p ∈ ps ↔ p ∈ qs) : sortedSet ps = sortedSet qs := by
  have hall : (sortedSet ps).filter (fun _ => true) = (sortedSet qs).filter (fun _ => true) :=
    hps.filter_sortedSet (hps.subset fun p => (h p).mpr) fun p _ => h p
  rwa [List.filter_true, List.filter_true] at hall

/-- Which paths a list holds is a matter of its members. -/
theorem among_eq_of_mem_iff {ps qs : List Path} (h : ∀ p, p ∈ ps ↔ p ∈ qs) (p : Path) :
    p.among ps = p.among qs := by
  rw [Bool.eq_iff_iff, among_iff, among_iff]
  exact exists_congr fun q => and_congr_left fun _ => h q

end Path

end CodeMap
