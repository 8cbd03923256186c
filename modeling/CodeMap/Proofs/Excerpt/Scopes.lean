/-
One pass over the scopes of a file shows all headers that have to be shown.

# Why one pass is enough

A header that is added may lie in a scope that was passed already, and nothing
goes back to it. It does not have to. Scopes come parents first and later
siblings first, so of two scopes the one that comes first either encloses the
other or starts where the other has ended, at the earliest (`Behind`). Let a
header be added for the later one because of some shown row. In the first case
that row lay in the earlier scope as well, whose header is therefore there. In
the second case the new header can lie in the earlier scope only if the other
scope begins and ends on the row on which the earlier one starts, and that row
is the header in question.

The argument is about ranges in a list, so it is made there
(`Closed.addHeader` for one range, `closed_addHeaders` for a list of them), and
the order of the scopes of a tree is a lemma about trees (`pairwise_rowRanges`).
Only rows count: a tree is `Nested` if its extents nest as far as rows can tell.
-/
import CodeMap.Proofs.Excerpt.Loops
import CodeMap.Proofs.Syntax.Nodes
import Mathlib.Order.Bounds.Basic

namespace CodeMap

-- ==================================================================== trees

namespace Syntax.Tree

/-- The row ranges are those of the nodes that pass the test. -/
theorem mem_rowRanges {test : String → Bool} {r : Nat × Nat} (t : Tree) :
    r ∈ rowRanges test t ↔
      ∃ n ∈ t.nodes, test n.kind = true ∧ r = (n.startRow, n.stopRow) := by
  induction t using induction with
  | node k f e cs ih =>
      have hbelow : r ∈ cs.reverse.flatMap (rowRanges test) ↔
          ∃ n ∈ cs.flatMap nodes, test n.kind = true ∧ r = (n.startRow, n.stopRow) := by
        rw [List.mem_flatMap]
        constructor
        · rintro ⟨c, hc, hr⟩
          have hc' := List.mem_reverse.mp hc
          obtain ⟨n, hn, hrest⟩ := (ih c hc').mp hr
          exact ⟨n, List.mem_flatMap.mpr ⟨c, hc', hn⟩, hrest⟩
        · rintro ⟨n, hn, hrest⟩
          obtain ⟨c, hc, hn⟩ := List.mem_flatMap.mp hn
          exact ⟨c, List.mem_reverse.mpr hc, (ih c hc).mpr ⟨n, hn, hrest⟩⟩
      rw [rowRanges_node, nodes_node, List.mem_append, hbelow]
      simp only [List.mem_cons, or_and_right, exists_or, exists_eq_left]
      refine or_congr_left ?_
      cases htest : test k with
      | true => simp [kind, startRow, stopRow, extent, htest]
      | false => simp [kind, htest]

/-- Children lie inside their parent and follow one another without overlap,
by their rows. -/
inductive Nested : Tree → Prop where
  | node {k : String} {f : Option String} {e : Extent} {cs : List Tree}
      (inside : ∀ c ∈ cs, e.start.row ≤ c.startRow ∧ c.stopRow ≤ e.stop.row)
      (ordered : cs.Pairwise fun a b => a.stopRow ≤ b.startRow)
      (below : ∀ c ∈ cs, Nested c) : Nested (node k f e cs)

/-- All nodes of a tree lie in its rows. -/
theorem Nested.inside_root {t : Tree} (h : t.Nested) :
    ∀ n ∈ t.nodes, t.startRow ≤ n.startRow ∧ n.stopRow ≤ t.stopRow := by
  induction h with
  | @node k f e cs inside ordered below ih =>
      intro n hn
      rw [nodes_node] at hn
      rcases List.mem_cons.mp hn with rfl | hn
      · exact ⟨Nat.le_refl _, Nat.le_refl _⟩
      · obtain ⟨c, hc, hn⟩ := List.mem_flatMap.mp hn
        obtain ⟨hstart, hstop⟩ := inside c hc
        obtain ⟨hstart', hstop'⟩ := ih c hc n hn
        exact ⟨Nat.le_trans hstart hstart', Nat.le_trans hstop' hstop⟩

end Syntax.Tree

namespace Excerpt

open Syntax

/-- A range that comes later lies in the earlier one or ends where that one
starts, at the latest. -/
def Behind (earlier later : Nat × Nat) : Prop :=
  earlier.1 ≤ later.1 ∧ later.2 ≤ earlier.2 ∨ later.2 ≤ earlier.1

/-- The order in which the scopes of a tree come. -/
theorem pairwise_rowRanges (test : String → Bool) {t : Tree} (h : t.Nested) :
    (t.rowRanges test).Pairwise Behind := by
  have hrows : ∀ {c : Tree}, c.Nested → ∀ r ∈ c.rowRanges test,
      c.startRow ≤ r.1 ∧ r.2 ≤ c.stopRow := by
    intro c hc r hr
    obtain ⟨n, hn, -, rfl⟩ := (Tree.mem_rowRanges c).mp hr
    exact hc.inside_root n hn
  induction h with
  | @node k f e cs inside ordered below ih =>
      rw [Tree.rowRanges_node]
      refine List.pairwise_append.mpr ⟨?_, List.pairwise_flatMap.mpr ⟨?_, ?_⟩, ?_⟩
      · -- a node has one range of its own, or none
        split
        · exact List.pairwise_singleton _ _
        · exact .nil
      · intro c hc
        exact ih c (List.mem_reverse.mp hc)
      · refine List.pairwise_reverse.mpr (ordered.imp_of_mem fun {a b} ha hb hab => ?_)
        intro x hx y hy
        refine .inr ?_
        calc y.2 ≤ a.stopRow := (hrows (below a ha) y hy).2
          _ ≤ b.startRow := hab
          _ ≤ x.1 := (hrows (below b hb) x hx).1
      · intro x hx y hy
        obtain ⟨c, hc, hy⟩ := List.mem_flatMap.mp hy
        have hc' := List.mem_reverse.mp hc
        obtain ⟨hstart, hstop⟩ := inside c hc'
        obtain ⟨hstart', hstop'⟩ := hrows (below c hc') y hy
        split at hx
        · rw [List.mem_singleton.mp hx]
          exact .inl ⟨Nat.le_trans hstart hstart', Nat.le_trans hstop' hstop⟩
        · cases hx

-- =================================================================== ranges

/-- Some of the rows lie in a range. -/
def Meets (rows : Set Nat) (range : Nat × Nat) : Prop :=
  ∃ row ∈ rows, range.1 ≤ row ∧ row ≤ range.2

/-- The header of every range that holds one of the rows is one of the rows. -/
def Closed (ranges : List (Nat × Nat)) (rows : Set Nat) : Prop :=
  ∀ r ∈ ranges, Meets rows r → r.1 ∈ rows

theorem mem_addHeader {shown : List Nat} {r : Nat × Nat} {row : Nat} :
    row ∈ addHeader shown r ↔ row ∈ shown ∨ row = r.1 ∧ Meets {x | x ∈ shown} r := by
  have hany : (shown.any fun row => decide (r.1 ≤ row) && decide (row ≤ r.2)) = true
      ↔ Meets {x | x ∈ shown} r := by
    simp [Meets]
  unfold addHeader
  split
  next hmeets =>
    rw [mem_insertRow]
    exact or_congr_right (iff_self_and.mpr fun _ => hany.mp hmeets)
  next hmeets => exact ⟨.inl, fun h => h.resolve_right fun h => hmeets (hany.mpr h.2)⟩

/-- One range more, behind all ranges before it. -/
theorem Closed.addHeader {done : List (Nat × Nat)} {shown : List Nat} {r : Nat × Nat}
    (h : Closed done {x | x ∈ shown}) (hbehind : ∀ d ∈ done, Behind d r) :
    Closed (done ++ [r]) {x | x ∈ addHeader shown r} := by
  rintro d hd ⟨row, hrow, hstart, hstop⟩
  refine mem_addHeader.mpr ?_
  rcases mem_addHeader.mp hrow with hrow | ⟨rfl, hmeets⟩
  · -- the row was shown before
    rcases List.mem_append.mp hd with hd | hd
    · exact .inl (h d hd ⟨row, hrow, hstart, hstop⟩)
    · rw [List.mem_singleton.mp hd] at hstart hstop ⊢
      exact .inr ⟨rfl, row, hrow, hstart, hstop⟩
  · -- the row is the new header
    rcases List.mem_append.mp hd with hd | hd
    · obtain ⟨x, hx, hx1, hx2⟩ := hmeets
      rcases hbehind d hd with ⟨hinside, hinside'⟩ | hbefore
      · exact .inl (h d hd ⟨x, hx, Nat.le_trans hinside hx1, Nat.le_trans hx2 hinside'⟩)
      · have hsame : d.1 = r.1 := by omega
        exact .inr ⟨hsame, x, hx, hx1, hx2⟩
    · rw [List.mem_singleton.mp hd]
      exact .inr ⟨rfl, hmeets⟩

/-- One pass over ranges in their order leaves no header out. -/
theorem closed_addHeaders {ranges : List (Nat × Nat)} (hordered : ranges.Pairwise Behind) :
    ∀ (done : List (Nat × Nat)) {shown : List Nat}, Closed done {x | x ∈ shown} →
      (∀ d ∈ done, ∀ r ∈ ranges, Behind d r) →
      Closed (done ++ ranges) {x | x ∈ addHeaders ranges shown} := by
  induction hordered with
  | nil =>
      intro done shown hclosed hbehind
      rw [List.append_nil]
      exact hclosed
  | @cons r rest hfirst hrest ih =>
      intro done shown hclosed hbehind
      rw [List.append_cons]
      refine ih (done ++ [r]) (hclosed.addHeader fun d hd => hbehind d hd r List.mem_cons_self) ?_
      intro d hd x hx
      rcases List.mem_append.mp hd with hd | hd
      · exact hbehind d hd x (List.mem_cons_of_mem r hx)
      · rw [List.mem_singleton.mp hd]
        exact hfirst x hx

theorem subset_addHeaders (ranges : List (Nat × Nat)) :
    ∀ {shown : List Nat} {row : Nat}, row ∈ shown → row ∈ addHeaders ranges shown := by
  induction ranges with
  | nil =>
      intro shown row h
      exact h
  | cons r rest ih =>
      intro shown row h
      exact ih (mem_addHeader.mpr (.inl h))

/-- Nothing is added that does not have to be. -/
theorem addHeaders_subset {S : Set Nat} (ranges : List (Nat × Nat)) :
    ∀ {shown : List Nat}, Closed ranges S → (∀ row ∈ shown, row ∈ S) →
      ∀ row ∈ addHeaders ranges shown, row ∈ S := by
  induction ranges with
  | nil =>
      intro shown hclosed hshown
      exact hshown
  | cons r rest ih =>
      intro shown hclosed hshown
      refine ih (fun x hx => hclosed x (List.mem_cons_of_mem r hx)) fun row hrow => ?_
      rcases mem_addHeader.mp hrow with hrow | ⟨rfl, x, hx, hinside⟩
      · exact hshown row hrow
      · exact hclosed r List.mem_cons_self ⟨x, hshown x hx, hinside⟩

-- =================================================================== scopes

/-- A function or class that holds one of the rows starts on one of them. -/
def ShowsHeaders (l : Language) (tree : Tree) (rows : Set Nat) : Prop :=
  ∀ n ∈ tree.nodes, (l.categoryOfKind? n.kind).isSome → Meets rows (n.startRow, n.stopRow) →
    n.startRow ∈ rows

theorem showsHeaders_iff {l : Language} {tree : Tree} {rows : Set Nat} :
    ShowsHeaders l tree rows
      ↔ Closed (tree.rowRanges fun kind => (l.categoryOfKind? kind).isSome) rows := by
  constructor
  · intro h r hr
    obtain ⟨n, hn, hscope, rfl⟩ := (Tree.mem_rowRanges tree).mp hr
    exact h n hn hscope
  · intro h n hn hscope
    exact h (n.startRow, n.stopRow) ((Tree.mem_rowRanges tree).mpr ⟨n, hn, hscope, rfl⟩)

/-- The rows of an excerpt in two steps, headers and gaps. -/
theorem shownRows_eq (path : Path) (content : String) (rows : List Nat) :
    shownRows path content rows
      = closeGaps (Text.lines content).toArray (addHeaders (scopeRanges path content)
          (rows.filter (· < (Text.lines content).length))) := by
  unfold shownRows
  dsimp only
  rw [List.size_toArray]

/-- One pass over the scopes of a file closes the set of shown rows: what is
shown after it is the least set of rows that holds the rows of interest in range
and, with any row of a function or class, the row on which that starts. In
particular all headers around a row of interest are shown. Excerpts are made
from this set by closing gaps. -/
theorem scope_pass_reaches_closure (l : Language) (tree : Tree) (hnested : tree.Nested)
    (rows : List Nat) (size : Nat) :
    let shown := addHeaders (tree.rowRanges fun kind => (l.categoryOfKind? kind).isSome)
      (rows.filter (· < size))
    IsLeast {S : Set Nat | (∀ row ∈ rows, row < size → row ∈ S) ∧ ShowsHeaders l tree S}
        {row | row ∈ shown}
      ∧ (∀ n ∈ tree.nodes, (l.categoryOfKind? n.kind).isSome →
          ∀ row ∈ rows, row < size → n.startRow ≤ row → row ≤ n.stopRow → n.startRow ∈ shown)
      ∧ ∀ path content, Language.ofPath path = l → l.parse? content = some tree →
          (Text.lines content).length = size →
          shownRows path content rows = closeGaps (Text.lines content).toArray shown := by
  intro shown
  have hrows : ∀ row ∈ rows, row < size → row ∈ shown := fun row hrow hlt =>
    subset_addHeaders _ (List.mem_filter.mpr ⟨hrow, decide_eq_true hlt⟩)
  have hclosed : ShowsHeaders l tree {row | row ∈ shown} :=
    showsHeaders_iff.mpr (closed_addHeaders (pairwise_rowRanges _ hnested) []
      (by simp [Closed]) (by simp))
  refine ⟨⟨⟨hrows, hclosed⟩, ?_⟩, ?_, ?_⟩
  · rintro S ⟨hS, hheaders⟩
    refine addHeaders_subset _ (showsHeaders_iff.mp hheaders) fun row hrow => ?_
    obtain ⟨hrow, hlt⟩ := List.mem_filter.mp hrow
    exact hS row hrow (of_decide_eq_true hlt)
  · intro n hn hscope row hrow hlt hstart hstop
    exact hclosed n hn hscope ⟨row, hrows row hrow hlt, hstart, hstop⟩
  · rintro path content rfl hparse rfl
    rw [shownRows_eq, scopeRanges, hparse]

/-- A function, and a class that starts on the row on which the function ends. -/
def sharedRow : Tree :=
  .node "program" none ⟨⟨0, 0⟩, ⟨28, 2⟩⟩
    [.node "function_declaration" none ⟨⟨0, 0⟩, ⟨16, 1⟩⟩ [],
      .node "class_declaration" none ⟨⟨17, 1⟩, ⟨28, 2⟩⟩ []]

theorem nested_sharedRow : sharedRow.Nested := by
  refine .node (by decide) (by decide) fun c hc => ?_
  simp only [List.mem_cons, List.not_mem_nil, or_false] at hc
  rcases hc with rfl | rfl
  · exact .node (by simp) .nil (by simp)
  · exact .node (by simp) .nil (by simp)

/-- The last row shows the header of the class, and that row shows the header of
the function. -/
theorem scope_pass_over_shared_row :
    addHeaders (sharedRow.rowRanges fun kind => (Language.javascript.categoryOfKind? kind).isSome)
        ([2, 9].filter (· < 3)) = [0, 1, 2]
      ∧ IsLeast {S : Set Nat | (∀ row ∈ [2, 9], row < 3 → row ∈ S)
          ∧ ShowsHeaders .javascript sharedRow S} {row | row ∈ [0, 1, 2]} := by
  have hshown : addHeaders (sharedRow.rowRanges fun kind =>
      (Language.javascript.categoryOfKind? kind).isSome) ([2, 9].filter (· < 3)) = [0, 1, 2] := by
    decide +kernel
  have hleast := (scope_pass_reaches_closure .javascript sharedRow nested_sharedRow [2, 9] 3).1
  rw [hshown] at hleast
  exact ⟨hshown, hleast⟩

end Excerpt

end CodeMap
