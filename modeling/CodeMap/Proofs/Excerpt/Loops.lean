/-
What the loops of an excerpt come to.

An excerpt is made by loops that keep a little state: a stack of trees, a set of
rows that grows, a flag. Each of them has a description without the state, and
the properties of excerpts are proved of the descriptions. The scopes of a file are
those of a node and then those of its children, last child first
(`rowRanges_node`). A row is shown once gaps are closed if it is shown, lies
between two shown rows, or is blank below a row of text for which one of these
holds (`mem_closeGaps`). Text is printed line by line, and all that matters of the
lines above is whether the last one was elided (`render_eq_print`).
-/
import CodeMap.Excerpt
import Mathlib.Data.List.Basic

namespace CodeMap

-- ==================================================================== trees

namespace Syntax.Tree

/-- The stack takes the last of several nodes on top. -/
theorem pushEach_eq (stack ts : List Tree) : pushEach stack ts = ts.reverse ++ stack := by
  rw [pushEach, List.foldl_flip_cons_eq_append, List.map_id']

/-- The ranges of the trees on the stack come behind those collected before, tree
by tree. The induction is over the nodes that are left on the stack. -/
theorem collectRanges_eq (test : String → Bool) (stack : List Tree) (ranges : List (Nat × Nat)) :
    collectRanges test stack ranges = ranges ++ stack.flatMap (rowRanges test) := by
  induction hcount : nodeCountOf stack using Nat.strongRecOn generalizing stack ranges with
  | ind count ih =>
      cases stack with
      | nil => rw [collectRanges, List.flatMap_nil, List.append_nil]
      | cons t stack =>
          rw [nodeCountOf, nodeCount_eq] at hcount
          -- what the tree on top adds is what it adds alone
          have hbelow : nodeCountOf (pushEach stack t.children) < count := by
            rw [nodeCountOf_pushEach]
            omega
          have halone : nodeCountOf (pushEach [] t.children) < count := by
            rw [nodeCountOf_pushEach, nodeCountOf]
            omega
          rw [collectRanges, ih _ hbelow _ _ rfl, List.flatMap_cons, rowRanges, collectRanges,
            ih _ halone _ _ rfl, pushEach_eq, pushEach_eq, List.flatMap_append, List.append_nil,
            List.nil_append]
          split <;> simp only [List.append_assoc, List.nil_append]

/-- A node comes before its children, and of these the last one comes first. -/
theorem rowRanges_node (test : String → Bool) (k : String) (f : Option String) (e : Extent)
    (cs : List Tree) : rowRanges test (node k f e cs)
      = (if test k then [(e.start.row, e.stop.row)] else [])
        ++ cs.reverse.flatMap (rowRanges test) := by
  rw [rowRanges, collectRanges, collectRanges_eq, pushEach_eq, List.append_nil]
  rfl

end Syntax.Tree

-- ===================================================================== rows

theorem mem_insertRow {row new : Nat} {rows : List Nat} :
    row ∈ insertRow new rows ↔ row ∈ rows ∨ row = new := by
  induction rows with
  | nil => simp [insertRow]
  | cons first rest ih =>
      rw [insertRow]
      split
      · rw [List.mem_cons, or_comm]
      · split
        next hsame =>
          subst hsame
          exact ⟨.inl, fun h => h.elim id fun h => h ▸ List.mem_cons_self⟩
        next => rw [List.mem_cons, ih, List.mem_cons, or_assoc]

theorem pairwise_insertRow {rows : List Nat} (h : rows.Pairwise (· < ·)) (new : Nat) :
    (insertRow new rows).Pairwise (· < ·) := by
  induction rows with
  | nil => exact List.pairwise_singleton _ _
  | cons first rest ih =>
      obtain ⟨hfirst, hrest⟩ := List.pairwise_cons.mp h
      rw [insertRow]
      split
      next hbefore =>
        refine List.pairwise_cons.mpr ⟨fun row hrow => ?_, h⟩
        rcases List.mem_cons.mp hrow with rfl | hrow
        · exact hbefore
        · exact Nat.lt_trans hbefore (hfirst row hrow)
      next hbefore =>
        split
        next => exact h
        next hdiffer =>
          refine List.pairwise_cons.mpr ⟨fun row hrow => ?_, ih hrest⟩
          rcases mem_insertRow.mp hrow with hrow | rfl
          · exact hfirst row hrow
          · omega

theorem mem_sortedRows {rows : List Nat} {row : Nat} : row ∈ sortedRows rows ↔ row ∈ rows := by
  induction rows with
  | nil => exact Iff.rfl
  | cons first rest ih =>
      rw [sortedRows, List.foldr_cons, ← sortedRows, mem_insertRow, ih, List.mem_cons, or_comm]

/-- The rows of a set are listed in order. -/
theorem pairwise_sortedRows (rows : List Nat) : (sortedRows rows).Pairwise (· < ·) := by
  induction rows with
  | nil => exact .nil
  | cons first rest ih => exact pairwise_insertRow ih first

/-- Two rows with none between them follow each other. -/
theorem mem_zip_tail {rows : List Nat} (h : rows.Pairwise (· < ·)) {a b : Nat} (ha : a ∈ rows)
    (hb : b ∈ rows) (hlt : a < b) (hnone : ∀ row ∈ rows, ¬ (a < row ∧ row < b)) :
    (a, b) ∈ rows.zip rows.tail := by
  induction rows with
  | nil => cases ha
  | cons first rest ih =>
      obtain ⟨hfirst, hrest⟩ := List.pairwise_cons.mp h
      have hbrest : b ∈ rest := by
        rcases List.mem_cons.mp hb with rfl | hb
        · rcases List.mem_cons.mp ha with rfl | ha
          · exact absurd hlt (Nat.lt_irrefl a)
          · exact absurd (hfirst a ha) (by omega)
        · exact hb
      rcases rest with _ | ⟨second, rest⟩
      · cases hbrest
      · rcases List.mem_cons.mp ha with rfl | ha
        · -- the next row is not before the other one, and none is in between
          have hnext := hfirst second List.mem_cons_self
          have hsame : b = second := by
            rcases List.mem_cons.mp hbrest with rfl | hbrest
            · rfl
            · have hbefore := List.rel_of_pairwise_cons hrest hbrest
              exact absurd ⟨hnext, hbefore⟩
                (hnone second (List.mem_cons_of_mem _ List.mem_cons_self))
          rw [hsame]
          exact List.mem_cons_self
        · exact List.mem_cons_of_mem _ (ih hrest ha hbrest fun row hrow =>
            hnone row (List.mem_cons_of_mem _ hrow))

namespace Excerpt

-- ===================================================================== gaps

section Adding

variable {α : Type} {step : List Nat → α → List Nat}

/-- A loop that adds rows to a set, by what each round adds. -/
theorem mem_foldl_adding {adds : α → Nat → Prop}
    (h : ∀ closed x row, row ∈ step closed x ↔ row ∈ closed ∨ adds x row) (xs : List α) :
    ∀ {closed : List Nat} {row : Nat},
      row ∈ xs.foldl step closed ↔ row ∈ closed ∨ ∃ x ∈ xs, adds x row := by
  induction xs with
  | nil => simp
  | cons x xs ih =>
      intro closed row
      rw [List.foldl_cons, ih, h, or_assoc]
      simp only [List.mem_cons, exists_eq_or_imp]

theorem pairwise_foldl_adding
    (h : ∀ closed x, closed.Pairwise (· < ·) → (step closed x).Pairwise (· < ·)) (xs : List α) :
    ∀ {closed : List Nat}, closed.Pairwise (· < ·) → (xs.foldl step closed).Pairwise (· < ·) := by
  induction xs with
  | nil => exact id
  | cons x xs ih =>
      intro closed hclosed
      exact ih (h closed x hclosed)

end Adding

/-- A row is shown, or the rows above and below it are. -/
def ClosesGap (shown : List Nat) (row : Nat) : Prop :=
  row ∈ shown ∨ 0 < row ∧ row - 1 ∈ shown ∧ row + 1 ∈ shown

theorem mem_closeSingle (closed : List Nat) (pair : Nat × Nat) (row : Nat) :
    row ∈ closeSingle closed pair
      ↔ row ∈ closed ∨ pair.2 - pair.1 = 2 ∧ row = pair.1 + 1 := by
  unfold closeSingle
  split
  next htwo => rw [mem_insertRow, and_iff_right htwo]
  next htwo => exact ⟨.inl, fun h => h.resolve_right fun h => htwo h.1⟩

theorem mem_keepBlank (lines : Array String) (closed : List Nat) (above row : Nat) :
    row ∈ keepBlank lines closed above
      ↔ row ∈ closed ∨ blankBelow lines above = true ∧ row = above + 1 := by
  unfold keepBlank
  split
  next hblank => rw [mem_insertRow, and_iff_right hblank]
  next hblank => exact ⟨.inl, fun h => h.resolve_right fun h => hblank h.1⟩

/-- The gaps of one row are those between neighbours: where a row is missing
between two shown ones, nothing stands between these. -/
theorem mem_closedSingles {shown : List Nat} {row : Nat} :
    row ∈ ((sortedRows shown).zip (sortedRows shown).tail).foldl closeSingle (sortedRows shown)
      ↔ ClosesGap shown row := by
  rw [mem_foldl_adding mem_closeSingle, mem_sortedRows]
  constructor
  · rintro (hrow | ⟨⟨a, b⟩, hpair, htwo, rfl⟩)
    · exact .inl hrow
    · obtain ⟨ha, hb⟩ := List.of_mem_zip hpair
      have hb := List.mem_of_mem_tail hb
      rw [mem_sortedRows] at ha hb
      have hnext : b = a + 1 + 1 := by
        dsimp only at htwo
        omega
      exact .inr ⟨Nat.succ_pos a, ha, hnext ▸ hb⟩
  · rintro (hrow | ⟨hpos, habove, hbelow⟩)
    · exact .inl hrow
    · by_cases hrow : row ∈ shown
      · exact .inl hrow
      · refine .inr ⟨(row - 1, row + 1), ?_, by dsimp only; omega, by dsimp only; omega⟩
        refine mem_zip_tail (pairwise_sortedRows shown) (mem_sortedRows.mpr habove)
          (mem_sortedRows.mpr hbelow) (by omega) fun between hbetween hin => hrow ?_
        have hsame : between = row := by omega
        exact hsame ▸ mem_sortedRows.mp hbetween

/-- The rows that are shown after both kinds of gaps are closed. -/
theorem mem_closeGaps {lines : Array String} {shown : List Nat} {row : Nat} :
    row ∈ closeGaps lines shown ↔ ClosesGap shown row
      ∨ ∃ above, ClosesGap shown above ∧ blankBelow lines above = true ∧ row = above + 1 := by
  unfold closeGaps
  dsimp only
  rw [mem_foldl_adding (mem_keepBlank lines), mem_closedSingles]
  simp only [mem_closedSingles]

/-- Shown rows come out in order, each once. -/
theorem pairwise_closeGaps (lines : Array String) (shown : List Nat) :
    (closeGaps lines shown).Pairwise (· < ·) := by
  refine pairwise_foldl_adding (fun closed row hclosed => ?_) _
    (pairwise_foldl_adding (fun closed pair hclosed => ?_) _ (pairwise_sortedRows shown))
  · unfold keepBlank
    split
    · exact pairwise_insertRow hclosed _
    · exact hclosed
  · unfold closeSingle
    split
    · exact pairwise_insertRow hclosed _
    · exact hclosed

-- ================================================================= printing

/-- Prints lines from row `row` on. `elided` says whether the row above was elided
too, in which case its elision stands for this run as well. -/
def print (shown : List Nat) (elided : Bool) (row : Nat) : List String → String
  | [] => ""
  | line :: rest =>
    if shown.contains row then
      lineMark ++ line ++ "\n" ++ print shown false (row + 1) rest
    else if elided then print shown true (row + 1) rest
    else elision ++ "\n" ++ print shown true (row + 1) rest

/-- The loop prints line by line. No elision is due below an elided row. -/
theorem foldl_printLine (shown : List Nat) (lines : List String) :
    ∀ (dots : Bool) (out : String) (row : Nat),
      ((lines.zipIdx row).foldl (printLine shown) (dots, out)).2
        = out ++ print shown (!dots) row lines := by
  induction lines with
  | nil =>
      intro dots out row
      exact String.append_empty.symm
  | cons line rest ih =>
      intro dots out row
      rw [List.zipIdx_cons, List.foldl_cons, printLine, print]
      split
      · rw [ih]
        simp only [Bool.not_true, String.append_assoc]
      · cases dots with
        | true =>
            rw [if_pos rfl, ih, Bool.not_true, if_neg Bool.false_ne_true]
            simp only [Bool.not_false, String.append_assoc]
        | false => rw [if_neg Bool.false_ne_true, ih, Bool.not_false, if_pos rfl]

/-- Before the first row nothing is elided. If that row is shown, the flag says
that no elision is due, which makes no difference to it. -/
theorem render_eq_print (path : Path) (content : String) (rows : List Nat) :
    render path content rows
      = print (shownRows path content rows) false 0 (Text.lines content) := by
  unfold render
  dsimp only
  generalize shownRows path content rows = shown
  rw [foldl_printLine, String.empty_append, Bool.not_not]
  cases Text.lines content with
  | nil => rfl
  | cons line rest =>
      cases hfirst : shown.contains 0 with
      | true => rw [print, print, if_pos hfirst, if_pos hfirst]
      | false => rfl

end Excerpt

end CodeMap
