/-
What the lines of an excerpt stand for.

A line of an excerpt either repeats a line of the file or stands for a run of
lines that are left out. `IsLayout` says when a list of such entries is true to
a file: together the entries stand for all of its lines in order, those that
repeat a line are about shown rows, the others about elided ones, and no two of
the others are neighbours, so that their runs are as long as they can be. That
leaves one choice only (`isLayout_iff`), and an excerpt is that choice in print,
entry by entry (`wholeLines_render`).

Printing goes over the lines once and remembers of the rows above no more than
whether the last one was elided. What it prints below an elided row is therefore
the layout of the rows that are left, without its first entry if that is a run,
since the line for it is there already (`print_eq`).
-/
import CodeMap.Proofs.Excerpt.Growth
import Mathlib.Data.List.Chain

namespace CodeMap.Excerpt

-- ================================================================== entries

/-- What a line of an excerpt stands for. -/
inductive Entry where
  /-- A shown line, with its row. -/
  | line (text : String) (row : Nat)
  /-- Elided lines, with their rows. -/
  | gap (run : List (String × Nat))
  deriving DecidableEq

namespace Entry

/-- The lines of the file for which an entry stands. -/
def covers : Entry → List (String × Nat)
  | line text row => [(text, row)]
  | gap run => run

/-- An entry in print. -/
def print : Entry → String
  | line text _ => lineMark ++ text ++ "\n"
  | gap _ => markLine

def isGap : Entry → Bool
  | line _ _ => false
  | gap _ => true

/-- The entry repeats a shown line, or it stands for some lines of which none is
shown. -/
def Fits (shown : List Nat) : Entry → Prop
  | line _ row => row ∈ shown
  | gap run => run ≠ [] ∧ ∀ x ∈ run, x.2 ∉ shown

/-- The mark tells a shown line from an elision, whatever the line holds. -/
theorem print_eq_markLine_iff (e : Entry) : e.print = markLine ↔ e.isGap = true := by
  cases e with
  | gap run => exact ⟨fun _ => rfl, fun _ => rfl⟩
  | line text row =>
      refine ⟨fun h => ?_, fun h => by cases h⟩
      have hfirst := congrArg (fun s : String => s.toList.head?) h
      simp [print, markLine, lineMark, elision, String.toList_append] at hfirst

end Entry

/-- The entries are what an excerpt of these lines has to print, line by line. -/
structure IsLayout (shown : List Nat) (lines : List (String × Nat)) (entries : List Entry) :
    Prop where
  /-- The entries stand for the lines in their order, each line once. -/
  whole : entries.flatMap Entry.covers = lines
  fits : ∀ e ∈ entries, e.Fits shown
  /-- No run ends where another one begins. -/
  apart : entries.IsChain fun e f => ¬ (e.isGap = true ∧ f.isGap = true)

/-- Entries with one elided line more in front. -/
def hide (x : String × Nat) : List Entry → List Entry
  | .gap run :: rest => .gap (x :: run) :: rest
  | entries => .gap [x] :: entries

/-- The layout of some lines. -/
def layout (shown : List Nat) : List (String × Nat) → List Entry
  | [] => []
  | (text, row) :: rest =>
    if shown.contains row then .line text row :: layout shown rest
    else hide (text, row) (layout shown rest)

section Layout

variable {shown : List Nat} {text : String} {row : Nat} {lines : List (String × Nat)}
  {entries : List Entry}

theorem layout_shown (h : row ∈ shown) :
    layout shown ((text, row) :: lines) = .line text row :: layout shown lines := by
  rw [layout, if_pos (List.contains_iff_mem.mpr h)]

theorem layout_hidden (h : row ∉ shown) :
    layout shown ((text, row) :: lines) = hide (text, row) (layout shown lines) := by
  rw [layout, if_neg (by rwa [List.contains_iff_mem])]

theorem IsLayout.nil : IsLayout shown [] [] := ⟨rfl, by simp, .nil⟩

theorem IsLayout.cons_line (h : IsLayout shown lines entries) (hrow : row ∈ shown) :
    IsLayout shown ((text, row) :: lines) (.line text row :: entries) where
  whole := by rw [List.flatMap_cons, h.whole]; rfl
  fits e he := by
    rcases List.mem_cons.mp he with rfl | he
    · exact hrow
    · exact h.fits e he
  apart := h.apart.cons (by simp [Entry.isGap])

/-- Nothing before the line is elided, so a run of its own begins. -/
theorem IsLayout.cons_gap (h : IsLayout shown lines entries) (hrow : row ∉ shown)
    (hfirst : ∀ f ∈ entries.head?, f.isGap = false) :
    IsLayout shown ((text, row) :: lines) (.gap [(text, row)] :: entries) where
  whole := by rw [List.flatMap_cons, h.whole]; rfl
  fits e he := by
    rcases List.mem_cons.mp he with rfl | he
    · exact ⟨List.cons_ne_nil _ _, fun x hx => by rwa [List.mem_singleton.mp hx]⟩
    · exact h.fits e he
  apart := h.apart.cons fun f hf hgaps => by simp [hfirst f hf] at hgaps

theorem IsLayout.cons_hide (h : IsLayout shown lines entries) (hrow : row ∉ shown) :
    IsLayout shown ((text, row) :: lines) (hide (text, row) entries) := by
  rcases entries with _ | ⟨text' | run, rest⟩
  · exact h.cons_gap hrow (by simp)
  · exact h.cons_gap hrow (by simp [Entry.isGap])
  · -- the run that follows gets longer
    refine ⟨?_, fun e he => ?_, h.apart.tail.cons fun f hf hgaps => h.apart.rel_head? hf hgaps⟩
    · rw [← h.whole]
      rfl
    · rcases List.mem_cons.mp he with rfl | he
      · refine ⟨List.cons_ne_nil _ _, fun x hx => ?_⟩
        rcases List.mem_cons.mp hx with rfl | hx
        · exact hrow
        · exact (h.fits _ List.mem_cons_self).2 x hx
      · exact h.fits e (List.mem_cons_of_mem _ he)

theorem isLayout_layout (shown : List Nat) (lines : List (String × Nat)) :
    IsLayout shown lines (layout shown lines) := by
  induction lines with
  | nil => exact .nil
  | cons x rest ih =>
      obtain ⟨text, row⟩ := x
      by_cases hrow : row ∈ shown
      · rw [layout_shown hrow]
        exact ih.cons_line hrow
      · rw [layout_hidden hrow]
        exact ih.cons_hide hrow

/-- Below an entry for one line. -/
theorem IsLayout.below {x : String × Nat} {e : Entry}
    (h : IsLayout shown (x :: lines) (e :: entries)) (he : e.covers = [x]) :
    IsLayout shown lines entries where
  whole := by
    have hwhole := h.whole
    rw [List.flatMap_cons, he] at hwhole
    exact List.tail_eq_of_cons_eq hwhole
  fits f hf := h.fits f (List.mem_cons_of_mem e hf)
  apart := h.apart.tail

/-- A layout of no lines has no entries, since every entry stands for some. -/
theorem IsLayout.eq_nil (h : IsLayout shown [] entries) : entries = [] := by
  rcases entries with _ | ⟨text | run, rest⟩
  · rfl
  · cases h.whole
  · have hnone := List.append_eq_nil_iff.mp h.whole
    exact absurd hnone.1 (h.fits _ List.mem_cons_self).1

/-- A run begins with an elided line. -/
theorem IsLayout.head_gap {x y : String × Nat} {run : List (String × Nat)}
    (h : IsLayout shown (x :: lines) (.gap (y :: run) :: entries)) : y = x ∧ x.2 ∉ shown := by
  obtain rfl : y = x := List.head_eq_of_cons_eq h.whole
  exact ⟨rfl, (h.fits _ List.mem_cons_self).2 y List.mem_cons_self⟩

/-- Without its first line a longer run is a run still. -/
theorem IsLayout.shorter {x y : String × Nat} {run : List (String × Nat)}
    (h : IsLayout shown (x :: lines) (.gap (x :: y :: run) :: entries)) :
    IsLayout shown lines (.gap (y :: run) :: entries) where
  whole := List.tail_eq_of_cons_eq h.whole
  fits e he := by
    rcases List.mem_cons.mp he with rfl | he
    · exact ⟨List.cons_ne_nil _ _, fun z hz =>
        (h.fits _ List.mem_cons_self).2 z (List.mem_cons_of_mem x hz)⟩
    · exact h.fits e (List.mem_cons_of_mem _ he)
  apart := h.apart.tail.cons fun _ hf hgaps => h.apart.rel_head? hf hgaps

/-- A layout is settled line by line. -/
theorem IsLayout.eq_layout (h : IsLayout shown lines entries) : entries = layout shown lines := by
  induction lines generalizing entries with
  | nil => exact h.eq_nil
  | cons x lines ih =>
      rcases entries with _ | ⟨text | run, rest⟩
      · cases h.whole
      · -- a shown line is an entry of its own
        obtain rfl : _ = x := List.head_eq_of_cons_eq h.whole
        rw [layout_shown (h.fits _ List.mem_cons_self), ih (h.below rfl)]
      · rcases run with _ | ⟨y, _ | ⟨z, run⟩⟩
        · exact absurd rfl (h.fits _ List.mem_cons_self).1
        · -- the line is a run of its own, so the next entry is none
          obtain ⟨rfl, hrow⟩ := h.head_gap
          rw [layout_hidden hrow, ← ih (h.below rfl)]
          rcases rest with _ | ⟨text | run, rest⟩
          · rfl
          · rfl
          · exact absurd ⟨rfl, rfl⟩ h.apart.rel
        · obtain ⟨rfl, hrow⟩ := h.head_gap
          rw [layout_hidden hrow, ← ih h.shorter]
          rfl

/-- There is one way to lay out an excerpt. -/
theorem isLayout_iff : IsLayout shown lines entries ↔ entries = layout shown lines :=
  ⟨IsLayout.eq_layout, fun h => h ▸ isLayout_layout shown lines⟩

/-- The entries that repeat a line are about the shown lines, in their order. -/
theorem filter_layout (shown : List Nat) (lines : List (String × Nat)) :
    (layout shown lines).filter (!·.isGap)
      = (lines.filter fun x => shown.contains x.2).map fun x => .line x.1 x.2 := by
  induction lines with
  | nil => rfl
  | cons x rest ih =>
      obtain ⟨text, row⟩ := x
      have hhide : ∀ entries, (hide (text, row) entries).filter (!·.isGap)
          = entries.filter (!·.isGap) := by
        intro entries
        rcases entries with _ | ⟨text' | run, rest⟩ <;> rfl
      by_cases hrow : row ∈ shown
      · rw [layout_shown hrow, List.filter_cons_of_pos (by rfl), ih,
          List.filter_cons_of_pos (by rwa [List.contains_iff_mem]), List.map_cons]
      · rw [layout_hidden hrow, hhide, ih,
          List.filter_cons_of_neg (by rwa [List.contains_iff_mem])]

theorem line_mem_layout_iff :
    .line text row ∈ layout shown lines ↔ (text, row) ∈ lines ∧ row ∈ shown := by
  have hline : .line text row ∈ layout shown lines
      ↔ .line text row ∈ (layout shown lines).filter (!·.isGap) := by
    simp [Entry.isGap]
  rw [hline, filter_layout]
  simp

end Layout

-- ================================================================= printing

/-- The entries that are left to print below an elided row: a run that reaches
up to it has its line already. -/
def belowElided : List Entry → List Entry
  | .gap _ :: rest => rest
  | entries => entries

theorem belowElided_hide (x : String × Nat) (entries : List Entry) :
    belowElided (hide x entries) = belowElided entries := by
  rcases entries with _ | ⟨text | run, rest⟩ <;> rfl

/-- Entries one after the other. -/
def printAll (entries : List Entry) : String := String.join (entries.map Entry.print)

theorem printAll_hide (x : String × Nat) (entries : List Entry) :
    printAll (hide x entries) = markLine ++ printAll (belowElided entries) := by
  rcases entries with _ | ⟨text | run, rest⟩ <;> exact String.join_cons

/-- An excerpt is its layout in print. -/
theorem print_eq (shown : List Nat) (lines : List String) : ∀ row,
    print shown false row lines = printAll (layout shown (lines.zipIdx row))
      ∧ print shown true row lines = printAll (belowElided (layout shown (lines.zipIdx row))) := by
  induction lines with
  | nil =>
      intro row
      exact ⟨rfl, rfl⟩
  | cons line rest ih =>
      intro row
      obtain ⟨hplain, helided⟩ := ih (row + 1)
      rw [List.zipIdx_cons]
      by_cases hrow : row ∈ shown
      · have hprint : ∀ elided, print shown elided row (line :: rest)
            = lineMark ++ line ++ "\n" ++ print shown false (row + 1) rest := by
          intro elided
          rw [print, if_pos (List.contains_iff_mem.mpr hrow)]
        rw [layout_shown hrow, hprint, hprint, hplain]
        exact ⟨String.join_cons.symm, String.join_cons.symm⟩
      · rw [layout_hidden hrow, printAll_hide, belowElided_hide, print_elided hrow, ← helided,
          print, if_neg (by rwa [List.contains_iff_mem]), if_neg Bool.false_ne_true]
        exact ⟨rfl, rfl⟩

-- ================================================================= excerpts

section Excerpts

variable (path : Path) (content : String) (rows : List Nat)

/-- The entries that an excerpt consists of. -/
def entries : List Entry :=
  layout (shownRows path content rows) (Text.lines content).zipIdx

theorem render_eq : render path content rows = printAll (entries path content rows) := by
  rw [render_eq_print]
  exact (print_eq _ _ 0).1

/-- The lines of an excerpt are its entries in print. -/
theorem wholeLines_render :
    Text.wholeLines (render path content rows) = (entries path content rows).map Entry.print := by
  rw [render_eq, printAll, Text.wholeLines_join]
  intro t ht
  obtain ⟨e, he, rfl⟩ := List.mem_map.mp ht
  cases e with
  | gap run => exact ⟨elision, by decide, rfl⟩
  | line text row =>
      have hline : text ∈ Text.lines content :=
        List.fst_mem_of_mem_zipIdx (line_mem_layout_iff.mp he).1
      have hfeed := Text.lineFeed_not_mem_of_mem_lines hline
      refine ⟨lineMark ++ text, ?_, rfl⟩
      rw [String.toList_append, List.mem_append, not_or]
      exact ⟨by decide, hfeed⟩

/-- Two elisions never follow each other. -/
theorem isChain_wholeLines_render :
    (Text.wholeLines (render path content rows)).IsChain
      fun a b => ¬ (a = markLine ∧ b = markLine) := by
  rw [wholeLines_render, List.isChain_map]
  refine (isLayout_layout _ _).apart.imp fun e f hapart => ?_
  rwa [Entry.print_eq_markLine_iff, Entry.print_eq_markLine_iff]

/-- Elision is exact. The rows that are shown are those of interest and the
headers around them, with small gaps closed. An excerpt repeats the lines of these
rows behind a mark, in their order, and has one elision for every run of lines in
between that is as long as it can be: its entries are the one layout of the file.
Elisions never follow each other, every row of interest in range appears with its
line, and those out of range change nothing. -/
theorem elision_is_exact :
    let lines := Text.lines content
    let shown := closeGaps lines.toArray
      (addHeaders (scopeRanges path content) (rows.filter (· < lines.length)))
    ∃ entries : List Entry,
      (∀ other, IsLayout shown lines.zipIdx other ↔ other = entries)
        ∧ render path content rows = String.join (entries.map Entry.print)
        ∧ Text.wholeLines (render path content rows) = entries.map Entry.print
        ∧ (Text.wholeLines (render path content rows)).IsChain
          (fun a b => ¬ (a = markLine ∧ b = markLine))
        ∧ (∀ row ∈ rows, ∀ line, lines[row]? = some line → .line line row ∈ entries)
        ∧ ∀ rows' : List Nat, (∀ row < lines.length, row ∈ rows ↔ row ∈ rows') →
          closeGaps lines.toArray
            (addHeaders (scopeRanges path content) (rows'.filter (· < lines.length))) = shown := by
  intro lines shown
  have hshown : ∀ rows, shownRows path content rows = closeGaps lines.toArray
      (addHeaders (scopeRanges path content) (rows.filter (· < lines.length))) :=
    shownRows_eq path content
  refine ⟨entries path content rows, fun other => ?_, render_eq path content rows,
    wholeLines_render path content rows, isChain_wholeLines_render path content rows,
    fun row hrow line hline => ?_, fun rows' hrows => ?_⟩
  · rw [entries, hshown]
    exact isLayout_iff
  · obtain ⟨hlt, -⟩ := List.getElem?_eq_some_iff.mp hline
    exact line_mem_layout_iff.mpr
      ⟨List.mk_mem_zipIdx_iff_getElem?.mpr hline, mem_shownRows_of_mem path hrow hlt⟩
  · rw [← hshown, ← shownRows_congr path content hrows, hshown]

/-- A class with a method. -/
def cacheFile : String :=
  "import os\n\nclass Cache:\n    size = 0\n\n    def get(self, key):\n        return key\n"

theorem lines_cacheFile : Text.lines cacheFile = ["import os", "", "class Cache:",
    "    size = 0", "", "    def get(self, key):", "        return key"] := by
  decide +kernel

theorem scopeRanges_cacheFile : scopeRanges ⟨"cache.py"⟩ cacheFile = [(2, 6), (5, 6)] := by
  decide +kernel

/-- The method is of interest, and so is a row that the file does not have. The
class is shown as well, between two runs of two lines. -/
theorem elision_is_exact_sample :
    let lines := Text.lines cacheFile
    let shown (rows : List Nat) := closeGaps lines.toArray
      (addHeaders (scopeRanges ⟨"cache.py"⟩ cacheFile) (rows.filter (· < lines.length)))
    let entries : List Entry := [.gap [("import os", 0), ("", 1)], .line "class Cache:" 2,
      .gap [("    size = 0", 3), ("", 4)], .line "    def get(self, key):" 5,
      .gap [("        return key", 6)]]
    render ⟨"cache.py"⟩ cacheFile [5, 42] = String.join (entries.map Entry.print)
      ∧ .line "    def get(self, key):" 5 ∈ entries
      ∧ shown [5] = shown [5, 42] := by
  intro lines shown entries
  obtain ⟨found, hfound, htext, -, -, hinterest, hsame⟩ :=
    elision_is_exact ⟨"cache.py"⟩ cacheFile [5, 42]
  have hshown : shown [5, 42] = [2, 5] := by
    show closeGaps (Text.lines cacheFile).toArray (addHeaders (scopeRanges ⟨"cache.py"⟩ cacheFile)
      ([5, 42].filter (· < (Text.lines cacheFile).length))) = [2, 5]
    rw [scopeRanges_cacheFile, lines_cacheFile]
    decide +kernel
  have hlayout : IsLayout (shown [5, 42]) lines.zipIdx entries := by
    rw [hshown, isLayout_iff]
    show entries = layout [2, 5] (Text.lines cacheFile).zipIdx
    rw [lines_cacheFile]
    decide +kernel
  have hagree : ∀ row < lines.length, row ∈ [5, 42] ↔ row ∈ [5] := by
    show ∀ row < (Text.lines cacheFile).length, _
    rw [lines_cacheFile]
    decide
  have hline : lines[5]? = some "    def get(self, key):" := by
    show (Text.lines cacheFile)[5]? = _
    rw [lines_cacheFile]
    rfl
  obtain rfl := (hfound entries).mp hlayout
  exact ⟨htext, hinterest 5 (by decide) _ hline, hsame [5] hagree⟩

/-- More rows of interest never hide a line: the entries that repeat a line are
there as before, in their order, among those of the longer excerpt. -/
theorem more_rows_hide_nothing {rows rows' : List Nat} (h : rows ⊆ rows') :
    shownRows path content rows ⊆ shownRows path content rows'
      ∧ ∃ few many : List Entry,
        IsLayout (shownRows path content rows) (Text.lines content).zipIdx few
          ∧ Text.wholeLines (render path content rows) = few.map Entry.print
          ∧ IsLayout (shownRows path content rows') (Text.lines content).zipIdx many
          ∧ Text.wholeLines (render path content rows') = many.map Entry.print
          ∧ (few.filter (!·.isGap)).Sublist (many.filter (!·.isGap)) := by
  have hshown := shownRows_mono path content h
  refine ⟨hshown, entries path content rows, entries path content rows', isLayout_layout _ _,
    wholeLines_render _ _ _, isLayout_layout _ _, wholeLines_render _ _ _, ?_⟩
  rw [entries, entries, filter_layout, filter_layout]
  refine (List.monotone_filter_right _ fun x hx => ?_).map _
  exact List.contains_iff_mem.mpr (hshown (List.contains_iff_mem.mp hx))

/-- With the first row the blank one below it is shown as well, in place of an
elision. -/
theorem more_rows_hide_nothing_sample :
    let path : Path := ⟨"cache.py"⟩
    let below : List Entry := [.line "class Cache:" 2, .gap [("    size = 0", 3), ("", 4)],
      .line "    def get(self, key):" 5, .gap [("        return key", 6)]]
    let few : List Entry := .gap [("import os", 0), ("", 1)] :: below
    let many : List Entry := .line "import os" 0 :: .line "" 1 :: below
    [5] ⊆ [0, 5]
      ∧ (shownRows path cacheFile [5] = [2, 5] ∧ shownRows path cacheFile [0, 5] = [0, 1, 2, 5])
      ∧ shownRows path cacheFile [5] ⊆ shownRows path cacheFile [0, 5]
      ∧ Text.wholeLines (render path cacheFile [5]) = few.map Entry.print
      ∧ Text.wholeLines (render path cacheFile [0, 5]) = many.map Entry.print
      ∧ (few.filter (!·.isGap)).Sublist (many.filter (!·.isGap)) := by
  intro path below few many
  have hfewer : shownRows path cacheFile [5] = [2, 5] := by
    rw [shownRows_eq, scopeRanges_cacheFile, lines_cacheFile]
    decide +kernel
  have hmore : shownRows path cacheFile [0, 5] = [0, 1, 2, 5] := by
    rw [shownRows_eq, scopeRanges_cacheFile, lines_cacheFile]
    decide +kernel
  obtain ⟨hshown, few', many', hfew, hfewer_printed, hmany, hmore_printed, hsublist⟩ :=
    more_rows_hide_nothing path cacheFile (by decide : [5] ⊆ [0, 5])
  obtain rfl : few' = few := by
    rw [hfew.eq_layout, hfewer, lines_cacheFile]
    decide +kernel
  obtain rfl : many' = many := by
    rw [hmany.eq_layout, hmore, lines_cacheFile]
    decide +kernel
  exact ⟨by decide, ⟨hfewer, hmore⟩, hshown, hfewer_printed, hmore_printed, hsublist⟩

end Excerpts

end CodeMap.Excerpt
