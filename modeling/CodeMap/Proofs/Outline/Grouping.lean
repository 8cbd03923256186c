/-
Entries grouped by file.

An outline puts one entry after the other into the section of its file. What it
comes to is said of all entries at once: there is a section for every file that
has an entry, in path order and in the spelling of its first entry, and it holds
the rows of all entries of the file (`sections_eq`). `Grouped` says this of the
sections at every point of the loop. One entry more changes the section of its
file and no other, and files in path order can be told apart, so that is all that
a step has to say (`Grouped.step`).
-/
import CodeMap.Outline
import CodeMap.Proofs.Excerpt.Loops
import CodeMap.Proofs.Path.Sets
import Mathlib.Data.List.Sort

namespace CodeMap

open Std

namespace Path

/-- Paths in path order, each in one spelling. -/
theorem pairwise_sort_firstUses (ps : List Path) :
    ((firstUses ps).mergeSort fun a b => (a.order b).isLE).Pairwise
      fun p q => p.order q = .lt := by
  have hsorted := @pairwise_sort _ _ order _ id (firstUses ps)
  have hdiffer : ((firstUses ps).mergeSort fun a b => (a.order b).isLE).Pairwise
      fun p q => p.components ≠ q.components :=
    (List.Perm.pairwise_iff (fun h => h.symm) (List.mergeSort_perm _ _)).mpr
      (pairwise_firstUses ps)
  refine (hsorted.and hdiffer).imp fun {p q} h => ?_
  exact lt_of_isLE_of_ne h.1 fun heq => h.2 (order_eq_eq_iff.mp heq)

theorem components_ne_of_order_lt {p q : Path} (h : p.order q = .lt) :
    p.components ≠ q.components := by
  intro heq
  rw [order_eq_eq_iff.mpr heq] at h
  cases h

end Path

namespace Outline

-- ============================================================ all at once

/-- The section of a file, from all entries. -/
def sectionOf (items : List RankedItem) (p : Path) : Section :=
  let rows := (items.filter fun item => item.path.same p).filterMap row?
  ⟨p, if rows.isEmpty then none else some (sortedRows rows)⟩

/-- The entries that an outline is about. -/
def inView (items : List RankedItem) (focus : List Path) : List RankedItem :=
  items.filter fun item => !item.path.among focus

theorem path_addRow (item : RankedItem) (s : Section) : (addRow item s).path = s.path := by
  unfold addRow
  cases row? item <;> rfl

/-- An entry of another file adds nothing to the section of a file. -/
theorem sectionOf_append_of_not_same (done : List RankedItem) {item : RankedItem} {p : Path}
    (h : item.path.same p = false) : sectionOf (done ++ [item]) p = sectionOf done p := by
  have hfilter : (done ++ [item]).filter (fun item => item.path.same p)
      = done.filter fun item => item.path.same p := by
    rw [List.filter_append, List.filter_singleton, h]
    exact List.append_nil _
  unfold sectionOf
  rw [hfilter]

/-- An entry of a file adds its row. -/
theorem sectionOf_append_of_same (done : List RankedItem) {item : RankedItem} {p : Path}
    (h : item.path.same p = true) :
    sectionOf (done ++ [item]) p = addRow item (sectionOf done p) := by
  have hfilter : ((done ++ [item]).filter fun item => item.path.same p).filterMap row?
      = (done.filter fun item => item.path.same p).filterMap row? ++ (row? item).toList := by
    rw [List.filter_append, List.filter_singleton, h, List.filterMap_append]
    cases hrow : row? item <;> simp [hrow]
  unfold sectionOf addRow
  dsimp only
  rw [hfilter]
  generalize (done.filter fun item => item.path.same p).filterMap row? = rows
  cases row? item with
  | none => simp only [Option.toList_none, List.append_nil]
  | some row =>
      have hrows : insertRow row ((if rows.isEmpty then none else some (sortedRows rows)).getD [])
          = sortedRows (rows ++ [row]) := by
        cases rows with
        | nil => rfl
        | cons first rest =>
            refine (pairwise_insertRow (pairwise_sortedRows _) row).eq_of_mem_iff
              (pairwise_sortedRows _) fun r => ?_
            show r ∈ insertRow row (sortedRows (first :: rest)) ↔ _
            rw [mem_insertRow, mem_sortedRows, mem_sortedRows, List.mem_append,
              List.mem_singleton]
      dsimp only
      rw [hrows, Option.toList_some, if_neg (by simp)]

-- ============================================================== one by one

/-- An entry goes to the section of its file. -/
theorem mem_putItem (item : RankedItem) {found : List Section}
    (h : found.Pairwise fun s t => s.path.order t.path = .lt) (t : Section) :
    t ∈ putItem item found ↔
      (t ∈ found ∧ item.path.components ≠ t.path.components)
        ∨ (∃ s ∈ found, item.path.components = s.path.components ∧ t = addRow item s)
        ∨ (∀ s ∈ found, item.path.components ≠ s.path.components)
          ∧ t = addRow item ⟨item.path, none⟩ := by
  induction found with
  | nil => simp [putItem]
  | cons s rest ih =>
      obtain ⟨hfirst, hrest⟩ := List.pairwise_cons.mp h
      rw [putItem]
      cases horder : item.path.order s.path with
      | lt =>
          -- the file comes before all that have a section
          have hnone : ∀ u ∈ s :: rest, item.path.components ≠ u.path.components := by
            intro u hu
            rcases List.mem_cons.mp hu with rfl | hu
            · exact Path.components_ne_of_order_lt horder
            · exact Path.components_ne_of_order_lt (TransCmp.lt_trans horder (hfirst u hu))
          dsimp only
          rw [List.mem_cons]
          constructor
          · rintro (rfl | ht)
            · exact .inr (.inr ⟨hnone, rfl⟩)
            · exact .inl ⟨ht, hnone t ht⟩
          · rintro (⟨ht, -⟩ | ⟨u, hu, hsame, -⟩ | ⟨-, rfl⟩)
            · exact .inr ht
            · exact absurd hsame (hnone u hu)
            · exact .inl rfl
      | eq =>
          have hsame := Path.order_eq_eq_iff.mp horder
          have hnone : ∀ u ∈ rest, item.path.components ≠ u.path.components := by
            intro u hu
            rw [hsame]
            exact Path.components_ne_of_order_lt (hfirst u hu)
          dsimp only
          rw [List.mem_cons]
          constructor
          · rintro (rfl | ht)
            · exact .inr (.inl ⟨s, List.mem_cons_self, hsame, rfl⟩)
            · exact .inl ⟨List.mem_cons_of_mem s ht, hnone t ht⟩
          · rintro (⟨ht, hdiffer⟩ | ⟨u, hu, husame, rfl⟩ | ⟨hall, -⟩)
            · rcases List.mem_cons.mp ht with rfl | ht
              · exact absurd hsame hdiffer
              · exact .inr ht
            · rcases List.mem_cons.mp hu with rfl | hu
              · exact .inl rfl
              · exact absurd husame (hnone u hu)
            · exact absurd hsame (hall s List.mem_cons_self)
      | gt =>
          have hdiffer : item.path.components ≠ s.path.components := by
            intro hsame
            rw [Path.order_eq_eq_iff.mpr hsame] at horder
            cases horder
          dsimp only
          rw [List.mem_cons, ih hrest, List.mem_cons]
          simp only [List.mem_cons, exists_eq_or_imp, forall_eq_or_imp]
          constructor
          · rintro (rfl | ⟨ht, hother⟩ | hsame | ⟨hnone, rfl⟩)
            · exact .inl ⟨.inl rfl, hdiffer⟩
            · exact .inl ⟨.inr ht, hother⟩
            · exact .inr (.inl (.inr hsame))
            · exact .inr (.inr ⟨⟨hdiffer, hnone⟩, rfl⟩)
          · rintro (⟨rfl | ht, hother⟩ | (⟨hsame, -⟩ | hsame) | ⟨⟨-, hnone⟩, rfl⟩)
            · exact .inl rfl
            · exact .inr (.inl ⟨ht, hother⟩)
            · exact absurd hsame hdiffer
            · exact .inr (.inr (.inl hsame))
            · exact .inr (.inr (.inr ⟨hnone, rfl⟩))

theorem path_of_mem_putItem (item : RankedItem) {found : List Section}
    (h : found.Pairwise fun s t => s.path.order t.path = .lt) {t : Section}
    (ht : t ∈ putItem item found) : (∃ s ∈ found, s.path = t.path) ∨ t.path = item.path := by
  rcases (mem_putItem item h t).mp ht with ⟨ht, -⟩ | ⟨s, hs, -, rfl⟩ | ⟨-, rfl⟩
  · exact .inl ⟨t, ht, rfl⟩
  · exact .inl ⟨s, hs, (path_addRow item s).symm⟩
  · exact .inr (path_addRow item _)

theorem pairwise_putItem (item : RankedItem) {found : List Section}
    (h : found.Pairwise fun s t => s.path.order t.path = .lt) :
    (putItem item found).Pairwise fun s t => s.path.order t.path = .lt := by
  induction found with
  | nil => exact List.pairwise_singleton _ _
  | cons s rest ih =>
      obtain ⟨hfirst, hrest⟩ := List.pairwise_cons.mp h
      rw [putItem]
      cases horder : item.path.order s.path with
      | lt =>
          refine List.pairwise_cons.mpr ⟨fun t ht => ?_, h⟩
          rw [path_addRow]
          rcases List.mem_cons.mp ht with rfl | ht
          · exact horder
          · exact TransCmp.lt_trans horder (hfirst t ht)
      | eq =>
          refine List.pairwise_cons.mpr ⟨fun t ht => ?_, hrest⟩
          rw [path_addRow]
          exact hfirst t ht
      | gt =>
          refine List.pairwise_cons.mpr ⟨fun t ht => ?_, ih hrest⟩
          rcases path_of_mem_putItem item hrest ht with ⟨u, hu, hpath⟩ | hpath
          · rw [← hpath]
            exact hfirst u hu
          · rw [hpath]
            exact OrientedCmp.lt_of_gt horder

/-- The sections of the entries so far. -/
structure Grouped (done : List RankedItem) (found : List Section) : Prop where
  ordered : found.Pairwise fun s t => s.path.order t.path = .lt
  files : ∀ p, (∃ s ∈ found, s.path = p) ↔ p ∈ Path.firstUses (done.map (·.path))
  whole : ∀ s ∈ found, s = sectionOf done s.path

namespace Grouped

variable {done : List RankedItem} {found : List Section}

/-- A file that has an entry has a section, under one of its spellings. -/
theorem exists_section (h : Grouped done found) {item : RankedItem} (hitem : item ∈ done) :
    ∃ s ∈ found, s.path.components = item.path.components := by
  obtain ⟨q, hq, hsame⟩ := Path.exists_mem_firstUses (List.mem_map_of_mem hitem)
  obtain ⟨s, hs, rfl⟩ := (h.files q).mpr hq
  exact ⟨s, hs, hsame⟩

/-- One entry more. -/
theorem step (h : Grouped done found) (item : RankedItem) :
    Grouped (done ++ [item]) (putItem item found) where
  ordered := pairwise_putItem item h.ordered
  files p := by
    rw [List.map_append, List.map_singleton, Path.mem_firstUses_concat, ← h.files p]
    constructor
    · rintro ⟨t, ht, rfl⟩
      rcases (mem_putItem item h.ordered t).mp ht with ⟨ht, -⟩ | ⟨s, hs, -, rfl⟩ | ⟨hnone, rfl⟩
      · exact .inl ⟨t, ht, rfl⟩
      · exact .inl ⟨s, hs, (path_addRow item s).symm⟩
      · refine .inr ⟨path_addRow item _, fun q hq hsame => ?_⟩
        obtain ⟨other, hother, rfl⟩ := List.mem_map.mp hq
        obtain ⟨s, hs, hpath⟩ := h.exists_section hother
        exact hnone s hs (hsame.symm.trans hpath.symm)
    · rintro (⟨s, hs, rfl⟩ | ⟨rfl, hnone⟩)
      · by_cases hsame : item.path.components = s.path.components
        · exact ⟨_, (mem_putItem item h.ordered _).mpr (.inr (.inl ⟨s, hs, hsame, rfl⟩)),
            path_addRow item s⟩
        · exact ⟨s, (mem_putItem item h.ordered s).mpr (.inl ⟨hs, hsame⟩), rfl⟩
      · refine ⟨_, (mem_putItem item h.ordered _).mpr (.inr (.inr ⟨fun s hs hsame => ?_, rfl⟩)),
          path_addRow item _⟩
        have hused := (h.files s.path).mp ⟨s, hs, rfl⟩
        exact hnone s.path (Path.mem_of_mem_firstUses hused) hsame.symm
  whole t ht := by
    rcases (mem_putItem item h.ordered t).mp ht with ⟨ht, hdiffer⟩ | ⟨s, hs, hsame, rfl⟩ |
      ⟨hnone, rfl⟩
    · have hother : item.path.same t.path = false :=
        Bool.eq_false_iff.mpr fun hsame => hdiffer (Path.same_iff.mp hsame)
      rw [sectionOf_append_of_not_same done hother]
      exact h.whole t ht
    · rw [path_addRow, sectionOf_append_of_same done (Path.same_iff.mpr hsame), ← h.whole s hs]
    · -- no entry of the file came before
      have hfilter : (done.filter fun other => other.path.same item.path) = [] := by
        refine List.filter_eq_nil_iff.mpr fun other hother hsame => ?_
        obtain ⟨s, hs, hpath⟩ := h.exists_section hother
        exact hnone s hs ((Path.same_iff.mp hsame).symm.trans hpath.symm)
      have hempty : sectionOf done item.path = ⟨item.path, none⟩ := by
        unfold sectionOf
        rw [hfilter]
        rfl
      rw [path_addRow, sectionOf_append_of_same done (Path.same_refl _), hempty]

theorem run (h : Grouped done found) (items : List RankedItem) :
    Grouped (done ++ items) (items.foldl (fun found item => putItem item found) found) := by
  induction items generalizing done found with
  | nil => rwa [List.append_nil]
  | cons item rest ih =>
      rw [List.append_cons]
      exact ih (h.step item)

/-- The sections are settled by the entries. -/
theorem eq_map (h : Grouped done found) :
    found = ((Path.firstUses (done.map (·.path))).mergeSort fun a b => (a.order b).isLE).map
      (sectionOf done) := by
  have hpaths : found.map (·.path)
      = (Path.firstUses (done.map (·.path))).mergeSort fun a b => (a.order b).isLE := by
    refine @eq_of_pairwise_lt _ _ Path.order _ id _ _ (List.pairwise_map.mpr h.ordered)
      (Path.pairwise_sort_firstUses _) fun p => ?_
    rw [List.mem_map, List.mem_mergeSort]
    exact h.files p
  rw [← hpaths, List.map_map]
  exact (List.map_id found).symm.trans (List.map_congr_left h.whole)

end Grouped

/-- The loop over the entries comes to one section for each file that has an entry
and is not in focus, in path order, with the rows of all entries of the file. -/
theorem sections_eq (items : List RankedItem) (focus : List Path) :
    sections items focus
      = ((Path.firstUses ((inView items focus).map (·.path))).mergeSort
          fun a b => (a.order b).isLE).map (sectionOf (inView items focus)) := by
  have hloop : sections items focus
      = (inView items focus).foldl (fun found item => putItem item found) [] := by
    rw [inView, List.foldl_filter]
    unfold sections
    congr 1
    funext found item
    cases item.path.among focus <;> rfl
  have hnone : Grouped [] [] := ⟨.nil, fun p => by simp [Path.firstUses], by simp⟩
  rw [hloop]
  exact (hnone.run (inView items focus)).eq_map

end Outline

end CodeMap
