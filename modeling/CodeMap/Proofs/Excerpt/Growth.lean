/-
What happens to an excerpt when more rows are of interest.

The rows that are shown stay shown (`shownRows_mono`), since each of the steps
that make up the set of shown rows only ever adds to it. The text may become
shorter all the same: where a whole stretch of elided lines is shown, the
elision that stood for it goes, and the lines may be shorter than it. That is
the only way (`cost_print_le`).

Lengths are compared stretch by stretch. While a stretch is elided in the first
excerpt, the second one either has printed the lines of it so far, or it has an
elision of its own in it and owes nothing. So the two are walked over together,
with the lines that the second has printed of the current stretch. What is
counted need not be characters: any cost will do that adds up over texts that
end with a line.
-/
import CodeMap.Proofs.Excerpt.Scopes
import CodeMap.Proofs.Text.Lines
import Mathlib.Algebra.GroupWithZero.Nat
import Mathlib.Data.List.Sort

namespace CodeMap.Excerpt

-- =============================================================== shown rows

section Monotone

variable {shown shown' : List Nat}

theorem ClosesGap.mono (h : shown ⊆ shown') {row : Nat} (hcloses : ClosesGap shown row) :
    ClosesGap shown' row := by
  rcases hcloses with hrow | ⟨hpos, habove, hbelow⟩
  · exact .inl (h hrow)
  · exact .inr ⟨hpos, h habove, h hbelow⟩

theorem closeGaps_mono (lines : Array String) (h : shown ⊆ shown') :
    closeGaps lines shown ⊆ closeGaps lines shown' := by
  intro row hrow
  rcases mem_closeGaps.mp hrow with hcloses | ⟨above, hcloses, hblank, rfl⟩
  · exact mem_closeGaps.mpr (.inl (hcloses.mono h))
  · exact mem_closeGaps.mpr (.inr ⟨above, hcloses.mono h, hblank, rfl⟩)

/-- Closed gaps come out in the order of the rows. -/
theorem closeGaps_congr (lines : Array String) (h : shown ⊆ shown') (h' : shown' ⊆ shown) :
    closeGaps lines shown = closeGaps lines shown' :=
  (pairwise_closeGaps lines shown).eq_of_mem_iff (pairwise_closeGaps lines shown') fun _ =>
    ⟨fun hrow => closeGaps_mono lines h hrow, fun hrow => closeGaps_mono lines h' hrow⟩

theorem addHeaders_mono (ranges : List (Nat × Nat)) :
    ∀ {shown shown' : List Nat}, shown ⊆ shown' →
      addHeaders ranges shown ⊆ addHeaders ranges shown' := by
  induction ranges with
  | nil =>
      intro shown shown' h
      exact h
  | cons r rest ih =>
      intro shown shown' h
      refine ih fun row hrow => mem_addHeader.mpr ?_
      rcases mem_addHeader.mp hrow with hrow | ⟨rfl, x, hx, hinside⟩
      · exact .inl (h hrow)
      · exact .inr ⟨rfl, x, h hx, hinside⟩

end Monotone

/-- More rows of interest never hide a row. -/
theorem shownRows_mono (path : Path) (content : String) {rows rows' : List Nat}
    (h : rows ⊆ rows') : shownRows path content rows ⊆ shownRows path content rows' := by
  rw [shownRows_eq, shownRows_eq]
  exact closeGaps_mono _ (addHeaders_mono _ (List.filter_subset _ h))

/-- Which rows are shown depends on which rows in range are of interest, and on
nothing else. -/
theorem shownRows_congr (path : Path) (content : String) {rows rows' : List Nat}
    (h : ∀ row < (Text.lines content).length, row ∈ rows ↔ row ∈ rows') :
    shownRows path content rows = shownRows path content rows' := by
  have hinRange : ∀ row, row ∈ rows.filter (· < (Text.lines content).length)
      ↔ row ∈ rows'.filter (· < (Text.lines content).length) := by
    intro row
    rw [List.mem_filter, List.mem_filter]
    exact and_congr_left fun hlt => h row (of_decide_eq_true hlt)
  rw [shownRows_eq, shownRows_eq]
  exact closeGaps_congr _ (addHeaders_mono _ fun row => (hinRange row).mp)
    (addHeaders_mono _ fun row => (hinRange row).mpr)

/-- Rows of interest in range are shown. -/
theorem mem_shownRows_of_mem (path : Path) {content : String} {rows : List Nat} {row : Nat}
    (h : row ∈ rows) (hlt : row < (Text.lines content).length) :
    row ∈ shownRows path content rows := by
  have hinRange : row ∈ rows.filter (· < (Text.lines content).length) :=
    List.mem_filter.mpr ⟨h, decide_eq_true hlt⟩
  rw [shownRows_eq]
  exact mem_closeGaps.mpr (.inl (.inl (subset_addHeaders _ hinRange)))

-- ================================================================ stretches

/-- The line that stands for a stretch of elided lines. -/
def markLine : String := elision ++ "\n"

/-- Lines as they are shown. -/
def shownText (lines : List String) : String :=
  String.join (lines.map fun line => lineMark ++ line ++ "\n")

/-- Lines with their rows, cut at the shown ones: every piece is a longest
stretch of elided lines, or empty where two shown lines follow each other. -/
def stretches (shown : List Nat) (lines : List (String × Nat)) : List (List (String × Nat)) :=
  lines.splitOnP fun x => shown.contains x.2

/-- Those of some stretches of which all lines are shown. -/
def inFull (shown : List Nat) (pieces : List (List (String × Nat))) : List (List String) :=
  (pieces.filter fun piece => !piece.isEmpty && piece.all fun x => shown.contains x.2).map
    (·.map Prod.fst)

/-- The stretches of elided lines that a second excerpt of a file shows in
full. -/
def revealed (shown shown' : List Nat) (lines : List String) : List (List String) :=
  inFull shown' (stretches shown lines.zipIdx)

/-- What is gained where stretches are shown that cost less than the line that
stood for each of them. -/
def gain (cost : String → Nat) (pieces : List (List String)) : Nat :=
  (pieces.map fun piece => cost markLine - cost (shownText piece)).sum

section Gain

variable (cost : String → Nat) (shown : List Nat) (pieces : List (List (String × Nat)))

theorem gain_inFull_nil_cons : gain cost (inFull shown ([] :: pieces))
    = gain cost (inFull shown pieces) := rfl

theorem le_gain_inFull_cons (piece : List (String × Nat)) :
    gain cost (inFull shown pieces) ≤ gain cost (inFull shown (piece :: pieces)) := by
  unfold inFull
  rw [List.filter_cons]
  split
  · exact Nat.le_add_left _ _
  · exact Nat.le_refl _

/-- A stretch that is shown in full costs what its line did, the gain included. -/
theorem mark_le_gain {piece : List (String × Nat)} (hpiece : piece ≠ [])
    (hshown : ∀ x ∈ piece, x.2 ∈ shown) :
    cost markLine + gain cost (inFull shown pieces)
      ≤ cost (shownText (piece.map Prod.fst)) + gain cost (inFull shown (piece :: pieces)) := by
  have hall : (!piece.isEmpty && piece.all fun x => shown.contains x.2) = true := by
    simp only [Bool.and_eq_true, Bool.not_eq_true', List.isEmpty_eq_false_iff, List.all_eq_true,
      List.contains_iff_mem]
    exact ⟨hpiece, hshown⟩
  have hgain : gain cost (inFull shown (piece :: pieces))
      = cost markLine - cost (shownText (piece.map Prod.fst)) + gain cost (inFull shown pieces) := by
    unfold inFull
    rw [List.filter_cons, if_pos hall]
    rfl
  omega

end Gain

-- ================================================================= printing

theorem print_ended (shown : List Nat) (lines : List String) :
    ∀ (elided : Bool) (row : Nat), Text.Ended (print shown elided row lines) := by
  induction lines with
  | nil =>
      intro elided row
      exact .empty
  | cons line rest ih =>
      intro elided row
      unfold print
      split
      · exact (Text.Ended.line _).append (ih false (row + 1))
      · split
        · exact ih true (row + 1)
        · exact (Text.Ended.line _).append (ih true (row + 1))

/-- An elided line below an elided line leaves no trace. -/
theorem print_elided {shown : List Nat} {row : Nat} (h : row ∉ shown) (line : String)
    (rest : List String) :
    print shown true row (line :: rest) = print shown true (row + 1) rest := by
  rw [print, if_neg (by rwa [List.contains_iff_mem]), if_pos rfl]

/-- The cost adds up over texts that end with a line. -/
def AddsUp (cost : String → Nat) : Prop :=
  ∀ a b, Text.Ended a → cost (a ++ b) = cost a + cost b

/-- What a line costs as it is shown. -/
def lineCost (cost : String → Nat) (line : String) : Nat := cost (lineMark ++ line ++ "\n")

section Cost

variable {cost : String → Nat} (hcost : AddsUp cost) {shown : List Nat} {row : Nat}

include hcost

theorem AddsUp.empty : cost "" = 0 := by
  have h := hcost "" "" .empty
  rw [String.append_empty] at h
  omega

theorem AddsUp.join {texts : List String} (h : ∀ t ∈ texts, Text.Ended t) :
    cost (String.join texts) = (texts.map cost).sum := by
  induction texts with
  | nil => exact hcost.empty
  | cons t rest ih =>
      rw [String.join_cons, hcost _ _ (h t List.mem_cons_self), List.map_cons, List.sum_cons,
        ih fun t' ht' => h t' (List.mem_cons_of_mem t ht')]

theorem cost_shownText (lines : List String) :
    cost (shownText lines) = (lines.map (lineCost cost)).sum := by
  unfold shownText
  rw [hcost.join, List.map_map]
  · rfl
  · intro t ht
    obtain ⟨line, -, rfl⟩ := List.mem_map.mp ht
    exact .line _

theorem cost_print_shown (h : row ∈ shown) (elided : Bool) (line : String) (rest : List String) :
    cost (print shown elided row (line :: rest))
      = lineCost cost line + cost (print shown false (row + 1) rest) := by
  rw [print, if_pos (List.contains_iff_mem.mpr h), hcost _ _ (.line _), lineCost]

theorem cost_print_first (h : row ∉ shown) (line : String) (rest : List String) :
    cost (print shown false row (line :: rest))
      = cost markLine + cost (print shown true (row + 1) rest) := by
  rw [print, if_neg (by rwa [List.contains_iff_mem]), if_neg Bool.false_ne_true,
    hcost _ _ (.line _), markLine]

theorem cost_print_hidden_le (h : row ∉ shown) (elided : Bool) (line : String)
    (rest : List String) :
    cost (print shown true (row + 1) rest) ≤ cost (print shown elided row (line :: rest)) := by
  cases elided with
  | true => rw [print_elided h]
  | false =>
      rw [cost_print_first hcost h]
      exact Nat.le_add_left _ _

end Cost

-- =============================================================== comparison

/-- Stretches of which the first has begun with some lines before. -/
def begun (piece : List (String × Nat)) (pieces : List (List (String × Nat))) :
    List (List (String × Nat)) :=
  pieces.modifyHead (piece ++ ·)

section Stretches

variable {shown : List Nat} {line : String} {row : Nat} (rest : List (String × Nat))

theorem stretches_shown (h : row ∈ shown) :
    stretches shown ((line, row) :: rest) = [] :: stretches shown rest := by
  unfold stretches
  rw [List.splitOnP_cons_eq_if_modifyHead, if_pos (List.contains_iff_mem.mpr h)]

theorem stretches_hidden (h : row ∉ shown) :
    stretches shown ((line, row) :: rest) = begun [(line, row)] (stretches shown rest) := by
  unfold stretches
  rw [List.splitOnP_cons_eq_if_modifyHead, if_neg (by rwa [List.contains_iff_mem])]
  rfl

theorem begun_begun (piece piece' : List (String × Nat)) (pieces : List (List (String × Nat))) :
    begun piece (begun piece' pieces) = begun (piece ++ piece') pieces := by
  cases pieces with
  | nil => rfl
  | cons first pieces =>
      show (piece ++ (piece' ++ first)) :: pieces = (piece ++ piece' ++ first) :: pieces
      rw [List.append_assoc]

theorem begun_nil_cons (piece : List (String × Nat)) (pieces : List (List (String × Nat))) :
    begun piece ([] :: pieces) = piece :: pieces := by
  show (piece ++ []) :: pieces = piece :: pieces
  rw [List.append_nil]

end Stretches

/-- How two excerpts compare from a row on, by where the first one stands. -/
structure Compared (cost : String → Nat) (shown shown' : List Nat) (row : Nat)
    (lines : List String) : Prop where
  /-- The row above is shown. -/
  outside : cost (print shown false row lines)
    ≤ cost (print shown' false row lines)
      + gain cost (inFull shown' (stretches shown (lines.zipIdx row)))
  /-- The rows above are elided, and the second excerpt has shown all of them. -/
  ahead : ∀ piece, piece ≠ [] → (∀ x ∈ piece, x.2 ∈ shown') →
    cost (print shown true row lines) + cost markLine
      ≤ cost (print shown' false row lines) + cost (shownText (piece.map Prod.fst))
        + gain cost (inFull shown' (begun piece (stretches shown (lines.zipIdx row))))
  /-- The rows above are elided, and the second excerpt has an elision there
  too. -/
  even : ∀ piece elided,
    cost (print shown true row lines)
      ≤ cost (print shown' elided row lines)
        + gain cost (inFull shown' (begun piece (stretches shown (lines.zipIdx row))))

section Comparison

variable {cost : String → Nat} (hcost : AddsUp cost) {shown shown' : List Nat} {row : Nat}
  {line : String} {rest : List String}

include hcost

theorem compared_nil (row : Nat) : Compared cost shown shown' row [] where
  outside := Nat.le_add_right _ _
  ahead piece hpiece hshown := by
    have hmark := mark_le_gain cost shown' [] hpiece hshown
    have hbegun : begun piece (stretches shown (([] : List String).zipIdx row)) = [piece] :=
      begun_nil_cons piece []
    rw [hbegun]
    show cost "" + cost markLine ≤ cost "" + _ + _
    rw [hcost.empty]
    omega
  even piece elided := Nat.le_add_right _ _

/-- Both excerpts show the line: a stretch that the first has elided ends. -/
theorem Compared.cons_shown (h : Compared cost shown shown' (row + 1) rest) (hrow : row ∈ shown)
    (hrow' : row ∈ shown') : Compared cost shown shown' row (line :: rest) := by
  have houtside := h.outside
  refine ⟨?_, fun piece hpiece hshown => ?_, fun piece elided => ?_⟩
  all_goals rw [List.zipIdx_cons, stretches_shown _ hrow, cost_print_shown hcost hrow,
    cost_print_shown hcost hrow']
  · rw [gain_inFull_nil_cons]
    omega
  · rw [begun_nil_cons]
    have hmark := mark_le_gain cost shown' (stretches shown (rest.zipIdx (row + 1))) hpiece hshown
    omega
  · rw [begun_nil_cons]
    have hgain := le_gain_inFull_cons cost shown' (stretches shown (rest.zipIdx (row + 1))) piece
    omega

/-- Only the second excerpt shows the line. -/
theorem Compared.cons_added (h : Compared cost shown shown' (row + 1) rest) (hrow : row ∉ shown)
    (hrow' : row ∈ shown') : Compared cost shown shown' row (line :: rest) := by
  have hpaid : ∀ piece : List (String × Nat),
      cost (shownText ((piece ++ [(line, row)]).map Prod.fst))
        = cost (shownText (piece.map Prod.fst)) + lineCost cost line := by
    intro piece
    rw [cost_shownText hcost, cost_shownText hcost]
    simp
  refine ⟨?_, fun piece hpiece hshown => ?_, fun piece elided => ?_⟩
  all_goals rw [List.zipIdx_cons, stretches_hidden _ hrow, cost_print_shown hcost hrow']
  · have hahead := h.ahead [(line, row)] (List.cons_ne_nil _ _) (by simpa using hrow')
    have hline : cost (shownText ([(line, row)].map Prod.fst)) = lineCost cost line := by
      rw [cost_shownText hcost]
      simp
    rw [cost_print_first hcost hrow]
    omega
  · have hahead := h.ahead (piece ++ [(line, row)]) (by simp) (by
      intro x hx
      rcases List.mem_append.mp hx with hx | hx
      · exact hshown x hx
      · rw [List.mem_singleton.mp hx]
        exact hrow')
    rw [print_elided hrow, begun_begun]
    rw [hpaid] at hahead
    omega
  · have heven := h.even (piece ++ [(line, row)]) false
    rw [print_elided hrow, begun_begun]
    omega

/-- No excerpt shows the line: the second one gets an elision at the latest
here. -/
theorem Compared.cons_hidden (h : Compared cost shown shown' (row + 1) rest) (hrow : row ∉ shown)
    (hrow' : row ∉ shown') : Compared cost shown shown' row (line :: rest) := by
  refine ⟨?_, fun piece hpiece hshown => ?_, fun piece elided => ?_⟩
  all_goals rw [List.zipIdx_cons, stretches_hidden _ hrow]
  · have heven := h.even [(line, row)] true
    rw [cost_print_first hcost hrow, cost_print_first hcost hrow']
    omega
  · have heven := h.even (piece ++ [(line, row)]) true
    rw [print_elided hrow, cost_print_first hcost hrow', begun_begun]
    omega
  · have heven := h.even (piece ++ [(line, row)]) true
    have hle := cost_print_hidden_le hcost hrow' elided line rest
    rw [print_elided hrow, begun_begun]
    omega

theorem compared (h : shown ⊆ shown') (lines : List String) :
    ∀ row, Compared cost shown shown' row lines := by
  induction lines with
  | nil =>
      intro row
      exact compared_nil hcost row
  | cons line rest ih =>
      intro row
      by_cases hrow : row ∈ shown
      · exact (ih (row + 1)).cons_shown hcost hrow (h hrow)
      · by_cases hrow' : row ∈ shown'
        · exact (ih (row + 1)).cons_added hcost hrow hrow'
        · exact (ih (row + 1)).cons_hidden hcost hrow hrow'

/-- An excerpt that shows more costs less by no more than the stretches gain
that it shows in full. -/
theorem cost_print_le (h : shown ⊆ shown') (lines : List String) :
    cost (print shown false 0 lines)
      ≤ cost (print shown' false 0 lines) + gain cost (revealed shown shown' lines) :=
  (compared hcost h lines 0).outside

end Comparison

end CodeMap.Excerpt
