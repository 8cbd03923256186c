/-
Which single lines an excerpt elides.

Gaps of one row are closed first, and the blank rows that follow shown text are
added after that. Such a blank row can come to stand two rows above a shown row,
and the gap between the two is not looked at again: its row gets an elision of
its own, which is as long as the line. `lone_elision_iff` says that this is the
only way, and `lone_line_elided` is a file where it happens.
-/
import CodeMap.Proofs.Excerpt.Elision

namespace CodeMap.Excerpt

-- =================================================================== layout

section Layout

variable {shown : List Nat} {text : String} {row : Nat}

/-- A shown line parts a layout. -/
theorem layout_append (h : row ∈ shown) (front rest : List (String × Nat)) :
    layout shown (front ++ (text, row) :: rest)
      = layout shown front ++ layout shown ((text, row) :: rest) := by
  induction front with
  | nil => rfl
  | cons x front ih =>
      obtain ⟨text', row'⟩ := x
      rw [List.cons_append]
      by_cases hrow' : row' ∈ shown
      · rw [layout_shown hrow', layout_shown hrow', ih, List.cons_append]
      · rw [layout_hidden hrow', layout_hidden hrow', ih, layout_shown h]
        rcases layout shown front with _ | ⟨text'' | run, entries⟩ <;> rfl

/-- Where a line between two shown ones is elided, it has an entry to itself. -/
theorem exists_lone_gap_iff (lines : List String) :
    (∃ above line below, [.line above row, .gap [(line, row + 1)], .line below (row + 2)]
        <:+: layout shown lines.zipIdx)
      ↔ row ∈ shown ∧ row + 1 ∉ shown ∧ row + 2 ∈ shown ∧ row + 2 < lines.length := by
  constructor
  · rintro ⟨above, line, below, hinfix⟩
    have hentry : ∀ e ∈ [.line above row, .gap [(line, row + 1)], .line below (row + 2)],
        e ∈ layout shown lines.zipIdx := fun e he => hinfix.subset he
    obtain ⟨-, habove⟩ := line_mem_layout_iff.mp (hentry (.line above row) (by simp))
    obtain ⟨hline, hbelow⟩ := line_mem_layout_iff.mp (hentry (.line below (row + 2)) (by simp))
    have hgap := (isLayout_layout shown lines.zipIdx).fits _
      (hentry (.gap [(line, row + 1)]) (by simp))
    exact ⟨habove, hgap.2 _ List.mem_cons_self, hbelow, List.snd_lt_of_mem_zipIdx hline⟩
  · rintro ⟨habove, hhidden, hbelow, hlt⟩
    have hsplit : lines = lines.take row
        ++ lines[row] :: lines[row + 1] :: lines[row + 2] :: lines.drop (row + 3) := by
      rw [← List.drop_eq_getElem_cons, ← List.drop_eq_getElem_cons, ← List.drop_eq_getElem_cons,
        List.take_append_drop]
    have hlines : lines.zipIdx = (lines.take row).zipIdx
        ++ (lines[row], row) :: (lines[row + 1], row + 1) :: (lines[row + 2], row + 2)
          :: (lines.drop (row + 3)).zipIdx (row + 3) := by
      have hlength : (lines.take row).length = row := List.length_take_of_le (by omega)
      conv_lhs => rw [hsplit]
      rw [List.zipIdx_append, hlength, Nat.zero_add]
      rfl
    refine ⟨lines[row], lines[row + 1], lines[row + 2], layout shown (lines.take row).zipIdx,
      layout shown ((lines.drop (row + 3)).zipIdx (row + 3)), ?_⟩
    rw [hlines, layout_append habove, layout_shown habove, layout_hidden hhidden,
      layout_shown hbelow, List.append_assoc]
    rfl

end Layout

-- =============================================================== shown rows

section Rows

variable {lines : List String} {headers : List Nat}

theorem blankBelow_iff {row : Nat} :
    blankBelow lines.toArray row = true
      ↔ row + 2 < lines.length ∧ Text.isBlankText (lines.getD row "") = false
        ∧ Text.isBlankText (lines.getD (row + 1) "") = true := by
  simp [blankBelow, and_assoc]

/-- A row of text is shown and the row after it is blank, neither that one nor
the one below is shown for itself, but the next one is. -/
structure LeavesGap (lines : List String) (headers : List Nat) (row : Nat) : Prop where
  shown : row ∈ headers
  text : Text.isBlankText (lines.getD row "") = false
  blank : Text.isBlankText (lines.getD (row + 1) "") = true
  below : row + 1 ∉ headers
  gap : row + 2 ∉ headers
  next : row + 3 ∈ headers

/-- The blank row is added, and the row below it stays alone. -/
theorem LeavesGap.lone {row : Nat} (h : LeavesGap lines headers row)
    (hrange : ∀ r ∈ headers, r < lines.length) :
    row + 1 ∈ closeGaps lines.toArray headers ∧ row + 2 ∉ closeGaps lines.toArray headers
      ∧ row + 3 ∈ closeGaps lines.toArray headers := by
  have hlt : row + 3 < lines.length := hrange _ h.next
  have hblank : blankBelow lines.toArray row = true :=
    blankBelow_iff.mpr ⟨by omega, h.text, h.blank⟩
  refine ⟨mem_closeGaps.mpr (.inr ⟨row, .inl h.shown, hblank, rfl⟩), fun hgap => ?_,
    mem_closeGaps.mpr (.inl (.inl h.next))⟩
  rcases mem_closeGaps.mp hgap with hcloses | ⟨above, hcloses, -, habove⟩
  · rcases hcloses with hrow | ⟨-, habove, -⟩
    · exact h.gap hrow
    · exact h.below habove
  · obtain rfl := Nat.succ.inj habove
    rcases hcloses with hrow | ⟨-, -, hbelow⟩
    · exact h.below hrow
    · exact h.gap hbelow

/-- A row that stays alone lies below a blank row that was added. -/
theorem leavesGap_of_lone {row : Nat} (habove : row ∈ closeGaps lines.toArray headers)
    (hgap : row + 1 ∉ closeGaps lines.toArray headers)
    (hbelow : row + 2 ∈ closeGaps lines.toArray headers) :
    ∃ first, row = first + 1 ∧ LeavesGap lines headers first := by
  have hnot : ¬ ClosesGap headers (row + 1) := fun hcloses =>
    hgap (mem_closeGaps.mpr (.inl hcloses))
  have hgapRow : row + 1 ∉ headers := fun hrow => hnot (.inl hrow)
  -- the row below is shown for itself, since all other ways go through the gap
  have hnext : row + 2 ∈ headers := by
    rcases mem_closeGaps.mp hbelow with hcloses | ⟨above, hcloses, -, heq⟩
    · exact hcloses.resolve_right fun h => hgapRow h.2.1
    · obtain rfl := Nat.succ.inj heq
      exact absurd hcloses hnot
  -- so the row above is not, or the gap between the two would have been closed
  have hrow : row ∉ headers := fun hrow => hnot (.inr ⟨Nat.succ_pos row, hrow, hnext⟩)
  have hplain : ¬ ClosesGap headers row := fun hcloses =>
    hgapRow (hcloses.resolve_left hrow).2.2
  obtain ⟨first, hfirst, hblank, rfl⟩ := (mem_closeGaps.mp habove).resolve_left hplain
  obtain ⟨-, htext, hblank⟩ := blankBelow_iff.mp hblank
  exact ⟨first, rfl, hfirst.resolve_right fun h => hrow h.2.2, htext, hblank, hrow, hgapRow,
    hnext⟩

end Rows

-- ================================================================= excerpts

theorem lt_of_mem_headers {path : Path} {content : String} {rows : List Nat} {size row : Nat}
    (h : row ∈ addHeaders (scopeRanges path content) (rows.filter (· < size))) : row < size := by
  refine addHeaders_subset (S := {row | row < size}) (scopeRanges path content) ?_ ?_ row h
  · rintro r - ⟨x, hx, hstart, -⟩
    exact Nat.lt_of_le_of_lt hstart hx
  · intro x hx
    exact of_decide_eq_true (List.mem_filter.mp hx).2

/-- An excerpt spends an elision on a single line between two shown ones exactly
where a blank row was added below a row of text and the next row but one is shown:
nowhere else is a gap of one row left open. -/
theorem lone_elision_iff (path : Path) (content : String) (rows : List Nat) (row : Nat) :
    let lines := Text.lines content
    let headers := addHeaders (scopeRanges path content) (rows.filter (· < lines.length))
    (∃ entries, IsLayout (shownRows path content rows) lines.zipIdx entries
        ∧ Text.wholeLines (render path content rows) = entries.map Entry.print
        ∧ ∃ above line below,
          [.line above row, .gap [(line, row + 1)], .line below (row + 2)] <:+: entries)
      ↔ ∃ first, row = first + 1 ∧ LeavesGap lines headers first := by
  intro lines headers
  have hrange : ∀ r ∈ headers, r < lines.length := fun r hr => lt_of_mem_headers hr
  have hshown : shownRows path content rows = closeGaps lines.toArray headers :=
    shownRows_eq path content rows
  constructor
  · rintro ⟨entries, hlayout, -, hlone⟩
    rw [hlayout.eq_layout, exists_lone_gap_iff, hshown] at hlone
    exact leavesGap_of_lone hlone.1 hlone.2.1 hlone.2.2.1
  · rintro ⟨first, rfl, hgap⟩
    obtain ⟨habove, hhidden, hbelow⟩ := hgap.lone hrange
    refine ⟨entries path content rows, isLayout_layout _ _, wholeLines_render path content rows,
      exists_lone_gap_iff lines |>.mpr ?_⟩
    rw [hshown]
    exact ⟨habove, hhidden, hbelow, hrange _ hgap.next⟩

/-- Below the blank row a single line is elided, and the elision is longer than
the line. -/
theorem lone_line_elided :
    render ⟨"notes.txt"⟩ "a\n\nb\nc\nd\n" [0, 3]
        = "\u2502a\n\u2502\n\u22ee...\n\u2502c\n\u22ee...\n"
      ∧ ¬ ∀ (path : Path) (content : String) (rows : List Nat) (entries : List Entry),
        IsLayout (shownRows path content rows) (Text.lines content).zipIdx entries →
          ∀ above row run below row',
            [.line above row, .gap run, .line below row'] <:+: entries → run.length ≠ 1 := by
  have hlayout : IsLayout (shownRows ⟨"notes.txt"⟩ "a\n\nb\nc\nd\n" [0, 3])
      (Text.lines "a\n\nb\nc\nd\n").zipIdx
      [.line "a" 0, .line "" 1, .gap [("b", 2)], .line "c" 3, .gap [("d", 4)]] :=
    isLayout_iff.mpr (by decide +kernel)
  refine ⟨by decide +kernel, fun hclaim => ?_⟩
  exact hclaim _ _ _ _ hlayout "" 1 [("b", 2)] "c" 3
    ⟨[.line "a" 0], [.gap [("d", 4)]], rfl⟩ rfl

end CodeMap.Excerpt
