/-
What happens to an outline when more entries are listed.

An outline of more entries has a section for every file that an outline of
fewer entries has, and shows all rows that the other one shows. Its text can be
the shorter one all the same, by what it saves where it shows a stretch of lines
in full that the other one elides (`outline_shrinks_only_by_elisions`), and a
search that takes longer lists for more expensive ones can be misled by that:
`longer_outline_can_be_cheaper` has a file in which the second entry costs less
than nothing.

The sections of the two outlines are compared file by file. Files come in path
order, but the length of the whole does not depend on that, so the sums are
taken over the files in the order of their first use: in that order the files of
a shorter list come first.
-/
import CodeMap.Proofs.Excerpt.Growth
import CodeMap.Proofs.Outline.Grouping
import CodeMap.Proofs.RepoMap.History
import Mathlib.Algebra.Order.BigOperators.Group.List
import Mathlib.Algebra.Order.Group.Nat

namespace CodeMap.Outline

variable {setting : Setting}

-- ================================================================= the text

/-- A section in print. -/
def sectionText (setting : Setting) (s : Section) : String :=
  match s.rows, setting.content? s.path with
  | some rows, some content =>
    "\n" ++ s.path.text ++ ":\n" ++ Excerpt.render s.path content rows
  | _, _ => "\n" ++ s.path.text ++ "\n"

/-- An outline in print. -/
def text (setting : Setting) (items : List RankedItem) : String :=
  cutLines setting.width (String.join ((sections items setting.focus).map (sectionText setting)))

theorem agree_sectionText (setting : Setting) (s : Section) :
    Agree (fun cache (_ : Unit) => cache.Faithful setting) (printSection setting s)
      (pure (sectionText setting s)) := by
  intro cache _ h
  rw [run_printSection]
  unfold lookup? sectionText
  cases s.rows with
  | none => exact ⟨rfl, h⟩
  | some rows =>
      cases hcontent : setting.content? s.path with
      | none => exact ⟨rfl, h⟩
      | some content =>
          refine ⟨?_, h.render hcontent rows⟩
          show "\n" ++ s.path.text ++ ":\n" ++ (cache.render s.path content rows).1
            = "\n" ++ s.path.text ++ ":\n" ++ Excerpt.render s.path content rows
          rw [h.text hcontent rows]

/-- What is printed does not depend on the excerpts that are kept, as long as
they are excerpts of these sources. -/
theorem render_eq_text {cache : Excerpt.Cache} (h : cache.Faithful setting)
    (items : List RankedItem) : ((render setting items).run cache).1 = text setting items := by
  have hagree := (Agree.mapM (agree_sectionText setting) (sections items setting.focus)).bind
    fun texts => Agree.pure (cutLines setting.width (String.join texts))
  have htext := (hagree cache () h).1
  rw [List.mapM_pure] at htext
  exact htext

-- ================================================================== lengths

/-- How many characters are printed of a text. -/
def printedLength (width : Nat) (text : String) : Nat := (cutLines width text).length

theorem printedLength_eq (width : Nat) (text : String) :
    printedLength width text
      = ((Text.splitAfterLineFeed text.toList).map fun line =>
          min width (Text.withoutEnding line).length + 1).sum := by
  unfold printedLength cutLines Text.lines
  rw [String.length_join, List.map_map, List.map_map]
  congr 1
  refine List.map_congr_left fun line _ => ?_
  have hfeed : "\n".length = 1 := by decide
  simp [cutLine, String.length_append, hfeed]

/-- Texts that end with a line are cut one by one. -/
theorem cutLines_append (width : Nat) {a : String} (h : Text.Ended a) (b : String) :
    cutLines width (a ++ b) = cutLines width a ++ cutLines width b := by
  rw [cutLines, Text.lines_append h, List.map_append, String.join_append]
  rfl

theorem addsUp_printedLength (width : Nat) : Excerpt.AddsUp (printedLength width) := by
  intro a b ha
  rw [printedLength, cutLines_append width ha, String.length_append]
  rfl

/-- A colon at the end of a line makes it no shorter, cut or not. -/
theorem printedLength_le_colon (width : Nat) (a : String) :
    printedLength width (a ++ "\n") ≤ printedLength width (a ++ ":\n") := by
  obtain ⟨front, line, hlines⟩ := Text.splitAfterLineFeed_open a.toList
  have hplain : Text.splitAfterLineFeed (a ++ "\n").toList = front ++ [line ++ ['\n']] := by
    have h := hlines [] List.not_mem_nil
    rw [List.append_nil, List.append_nil] at h
    rw [String.toList_append]
    exact h
  have hcolon : Text.splitAfterLineFeed (a ++ ":\n").toList = front ++ [line ++ [':', '\n']] := by
    have h := hlines [':'] (by decide)
    rw [List.append_assoc, List.append_assoc] at h
    rw [String.toList_append]
    exact h
  have hshort := (Text.prefix_withoutEnding line).length_le
  rw [printedLength_eq, printedLength_eq, hplain, hcolon]
  simp only [List.map_append, List.map_cons, List.map_nil, List.sum_append, List.sum_cons,
    List.sum_nil, Text.withoutEnding_of_ne (by decide : ':' ≠ '\r'), List.length_append,
    List.length_cons, List.length_nil]
  omega

/-- A line with a colon at its end. -/
theorem colon_ended (a : String) : Text.Ended (a ++ ":\n") := by
  refine .inr ⟨a ++ ":", ?_⟩
  rw [String.append_assoc]
  rfl

theorem sectionText_ended (setting : Setting) (s : Section) :
    Text.Ended (sectionText setting s) := by
  unfold sectionText
  split
  next rows content _ _ =>
    rw [Excerpt.render_eq_print]
    exact (colon_ended _).append (Excerpt.print_ended _ _ _ _)
  next => exact .line _

-- ================================================================= sections

theorem sections_of_one_file {items : List RankedItem} {focus : List Path} (p : Path)
    (hpaths : Path.firstUses ((inView items focus).map (·.path)) = [p]) :
    sections items focus = [sectionOf (inView items focus) p] := by
  rw [sections_eq, hpaths, List.mergeSort_singleton, List.map_cons, List.map_nil]

theorem sectionOf_of_rows {items : List RankedItem} {p : Path} {rows : List Nat}
    (hrows : (items.filter fun item => item.path.same p).filterMap row? = rows)
    (hsome : rows ≠ []) : sectionOf items p = ⟨p, some (sortedRows rows)⟩ := by
  rw [sectionOf, hrows, if_neg (by rwa [List.isEmpty_iff])]

/-- More entries leave a file no fewer rows. -/
theorem rows_sectionOf_mono {items items' : List RankedItem} (h : items ⊆ items') {p : Path}
    {rows : List Nat} (hrows : (sectionOf items p).rows = some rows) :
    ∃ rows', (sectionOf items' p).rows = some rows' ∧ rows ⊆ rows' := by
  have hmono : (items.filter fun item => item.path.same p).filterMap row?
      ⊆ (items'.filter fun item => item.path.same p).filterMap row? :=
    List.filterMap_subset row? (List.filter_subset _ h)
  unfold sectionOf at hrows ⊢
  dsimp only at hrows ⊢
  split at hrows
  next => cases hrows
  next hsome =>
    cases hrows
    have hsome' : ¬ ((items'.filter fun item => item.path.same p).filterMap row?).isEmpty := by
      intro hnone
      rw [List.isEmpty_iff.mp hnone] at hmono
      exact hsome (List.isEmpty_iff.mpr (List.subset_nil.mp hmono))
    rw [if_neg hsome']
    exact ⟨_, rfl, fun row hrow => mem_sortedRows.mpr (hmono (mem_sortedRows.mp hrow))⟩

/-- The stretches of elided lines of a section that a second section of the
same file shows in full. -/
def revealedIn (setting : Setting) (s s' : Section) : List (List String) :=
  match s.rows, s'.rows, setting.content? s.path with
  | some rows, some rows', some content =>
    Excerpt.revealed (Excerpt.shownRows s.path content rows)
      (Excerpt.shownRows s.path content rows') (Text.lines content)
  | _, _, _ => []

/-- A section of more entries is longer, but for what it gains. -/
theorem printedLength_sectionText_le (setting : Setting) (width : Nat)
    {items items' : List RankedItem} (h : items ⊆ items') (p : Path) :
    printedLength width (sectionText setting (sectionOf items p))
      ≤ printedLength width (sectionText setting (sectionOf items' p))
        + Excerpt.gain (printedLength width)
          (revealedIn setting (sectionOf items p) (sectionOf items' p)) := by
  have hcost := addsUp_printedLength width
  have hhead : ∀ rest : String, printedLength width ("\n" ++ p.text ++ ":\n" ++ rest)
      = printedLength width ("\n" ++ p.text ++ ":\n") + printedLength width rest :=
    fun rest => hcost _ rest (colon_ended _)
  have hpath : ∀ items, (sectionOf items p).path = p := fun _ => rfl
  have hbare := printedLength_le_colon width ("\n" ++ p.text)
  unfold sectionText revealedIn
  rw [hpath, hpath]
  cases hcontent : setting.content? p with
  | none =>
      -- without its content a file is a bare path in both
      cases (sectionOf items p).rows <;> cases (sectionOf items' p).rows <;>
        exact Nat.le_add_right _ _
  | some content =>
      cases hrows : (sectionOf items p).rows with
      | none =>
          cases (sectionOf items' p).rows with
          | none => exact Nat.le_add_right _ _
          | some rows' =>
              show printedLength width ("\n" ++ p.text ++ "\n")
                ≤ printedLength width ("\n" ++ p.text ++ ":\n" ++ Excerpt.render p content rows') + 0
              rw [hhead]
              omega
      | some rows =>
          obtain ⟨rows', hrows', hsubset⟩ := rows_sectionOf_mono h hrows
          rw [hrows']
          have hexcerpt := Excerpt.cost_print_le hcost
            (Excerpt.shownRows_mono p content hsubset) (Text.lines content)
          show printedLength width ("\n" ++ p.text ++ ":\n" ++ Excerpt.render p content rows)
            ≤ printedLength width ("\n" ++ p.text ++ ":\n" ++ Excerpt.render p content rows')
              + Excerpt.gain (printedLength width)
                (Excerpt.revealed (Excerpt.shownRows p content rows)
                  (Excerpt.shownRows p content rows') (Text.lines content))
          rw [hhead, hhead, Excerpt.render_eq_print, Excerpt.render_eq_print]
          omega

-- ================================================================== outlines

/-- The stretches of elided lines of an outline that the outline of other
entries shows in full. -/
def revealed (setting : Setting) (items items' : List RankedItem) : List (List String) :=
  (sections items setting.focus).flatMap fun s =>
    revealedIn setting s (sectionOf (inView items' setting.focus) s.path)

/-- A sum over the sections, in the order of first use. -/
theorem sum_sections (f : Section → Nat) (items : List RankedItem) (focus : List Path) :
    ((sections items focus).map f).sum
      = ((Path.firstUses ((inView items focus).map (·.path))).map fun p =>
          f (sectionOf (inView items focus) p)).sum := by
  rw [sections_eq, List.map_map]
  exact ((List.mergeSort_perm _ _).map _).sum_eq

theorem length_text (setting : Setting) (items : List RankedItem) :
    (text setting items).length
      = ((sections items setting.focus).map fun s =>
          printedLength setting.width (sectionText setting s)).sum := by
  show printedLength setting.width (String.join _) = _
  rw [(addsUp_printedLength setting.width).join, List.map_map, Function.comp_def]
  intro t ht
  obtain ⟨s, -, rfl⟩ := List.mem_map.mp ht
  exact sectionText_ended setting s

theorem gain_revealed (setting : Setting) (cost : String → Nat) (items items' : List RankedItem) :
    Excerpt.gain cost (revealed setting items items')
      = ((sections items setting.focus).map fun s => Excerpt.gain cost
          (revealedIn setting s (sectionOf (inView items' setting.focus) s.path))).sum := by
  unfold revealed
  induction sections items setting.focus with
  | nil => rfl
  | cons s rest ih =>
      rw [List.flatMap_cons, List.map_cons, List.sum_cons, ← ih]
      unfold Excerpt.gain
      rw [List.map_append, List.sum_append]

/-- The outline of a longer list of entries is longer, but for what it gains. -/
theorem length_text_le (setting : Setting) {items items' : List RankedItem}
    (h : items <+: items') :
    (text setting items).length
      ≤ (text setting items').length
        + Excerpt.gain (printedLength setting.width) (revealed setting items items') := by
  have hview : inView items setting.focus <+: inView items' setting.focus := h.filter _
  have hfirst := Path.firstUses_prefix (hview.map (·.path))
  rw [length_text, length_text, gain_revealed, sum_sections, sum_sections, sum_sections]
  calc _ ≤ ((Path.firstUses ((inView items setting.focus).map (·.path))).map fun p =>
          printedLength setting.width (sectionText setting
            (sectionOf (inView items' setting.focus) p))
          + Excerpt.gain (printedLength setting.width) (revealedIn setting
            (sectionOf (inView items setting.focus) p)
            (sectionOf (inView items' setting.focus) p))).sum :=
        List.sum_le_sum fun p _ =>
          printedLength_sectionText_le setting setting.width hview.subset p
    _ = _ := List.sum_map_add
    _ ≤ _ := Nat.add_le_add_right ((hfirst.sublist.map _).sum_le_sum fun _ _ => Nat.zero_le _) _

/-- The approximate count only depends on the length. -/
theorem approximate_le_of_length_le {a b : String} (h : a.length ≤ b.length) :
    TokenCounter.approximate a ≤ TokenCounter.approximate b := by
  unfold TokenCounter.approximate
  omega

-- ================================================================== prefixes

/-- A file whose last row is shorter in print than an elision. -/
def shortEnd : Setting where
  sources := [⟨⟨"x.c"⟩, "void A(void) \x7b \x7d typedef int\nT;\n"⟩]
  focus := []
  width := 100

/-- The function on the first row. -/
def firstRowItem : RankedItem :=
  .definition ⟨⟨"x.c"⟩, "A", "function", .of 0 0, (5, 6), []⟩

/-- The type on the last row. -/
def lastRowItem : RankedItem :=
  .definition ⟨⟨"x.c"⟩, "T", "type", .of 1 1, (29, 30), []⟩

/-- Longer lists of entries can cost fewer tokens: the first entry leaves an
elision at the end of the file, and the second one replaces it by a name and a
semicolon. -/
theorem longer_outline_can_be_cheaper :
    TokenCounter.approximate
        ((render shortEnd ([firstRowItem, lastRowItem].take 1)).run {}).1 = 11
      ∧ TokenCounter.approximate
        ((render shortEnd ([firstRowItem, lastRowItem].take 2)).run {}).1 = 10
      ∧ ¬ ∀ (setting : Setting) (items : List RankedItem) (k k' : Nat),
        k ≤ k' → k' ≤ items.length →
          TokenCounter.approximate ((render setting (items.take k)).run {}).1
            ≤ TokenCounter.approximate ((render setting (items.take k')).run {}).1 := by
  have hone : TokenCounter.approximate
      ((render shortEnd ([firstRowItem, lastRowItem].take 1)).run {}).1 = 11 := by
    decide +kernel
  have htwo : TokenCounter.approximate
      ((render shortEnd ([firstRowItem, lastRowItem].take 2)).run {}).1 = 10 := by
    show TokenCounter.approximate
      ((render shortEnd [firstRowItem, lastRowItem]).run {}).1 = 10
    have hsorted : sortedRows [0, 1] = [0, 1] := by decide
    have hsection : sectionOf (inView [firstRowItem, lastRowItem] shortEnd.focus) ⟨"x.c"⟩
        = ⟨⟨"x.c"⟩, some [0, 1]⟩ :=
      hsorted ▸ sectionOf_of_rows (by decide +kernel) (by decide)
    unfold render
    rw [sections_of_one_file ⟨"x.c"⟩ (by decide +kernel), hsection]
    decide +kernel
  refine ⟨hone, htwo, fun hclaim => ?_⟩
  have hle := hclaim shortEnd [firstRowItem, lastRowItem] 1 2 (by decide) (by decide)
  rw [hone, htwo] at hle
  exact absurd hle (by decide)

/-- More entries make an outline shorter by no more than what they save where
they show a stretch of lines in full, in place of the line that stood for it;
and if no such stretch is shorter in print than that line, they never make it
cheaper. This holds whatever excerpts of the sources are kept already. -/
theorem outline_shrinks_only_by_elisions (setting : Setting) (items : List RankedItem)
    {k k' : Nat} (hk : k ≤ k') {cache cache' : Excerpt.Cache} (hcache : cache.Faithful setting)
    (hcache' : cache'.Faithful setting) :
    let shorter := ((render setting (items.take k)).run cache).1
    let longer := ((render setting (items.take k')).run cache').1
    let runs := revealed setting (items.take k) (items.take k')
    shorter.length ≤ longer.length
        + (runs.map fun run => printedLength setting.width Excerpt.markLine
            - printedLength setting.width (Excerpt.shownText run)).sum
      ∧ ((∀ run ∈ runs, printedLength setting.width Excerpt.markLine
            ≤ printedLength setting.width (Excerpt.shownText run)) →
          TokenCounter.approximate shorter ≤ TokenCounter.approximate longer) := by
  intro shorter longer runs
  have hlength : shorter.length
      ≤ longer.length + Excerpt.gain (printedLength setting.width) runs := by
    show ((render setting (items.take k)).run cache).1.length
      ≤ ((render setting (items.take k')).run cache').1.length + _
    rw [render_eq_text hcache, render_eq_text hcache']
    exact length_text_le setting (List.take_prefix_take_left hk)
  refine ⟨hlength, fun hruns => approximate_le_of_length_le ?_⟩
  have hnone : Excerpt.gain (printedLength setting.width) runs = 0 := by
    refine List.sum_eq_zero fun n hn => ?_
    obtain ⟨run, hrun, rfl⟩ := List.mem_map.mp hn
    exact Nat.sub_eq_zero_of_le (hruns run hrun)
  omega

/-- In the other order the second entry shows a line that is longer than the
elision. -/
theorem outline_shrinks_only_by_elisions_sample :
    revealed shortEnd ([lastRowItem, firstRowItem].take 1) ([lastRowItem, firstRowItem].take 2)
        = [["void A(void) \x7b \x7d typedef int"]]
      ∧ TokenCounter.approximate
          ((render shortEnd ([lastRowItem, firstRowItem].take 1)).run {}).1
        ≤ TokenCounter.approximate
          ((render shortEnd ([lastRowItem, firstRowItem].take 2)).run {}).1 := by
  have hruns : revealed shortEnd ([lastRowItem, firstRowItem].take 1)
      ([lastRowItem, firstRowItem].take 2) = [["void A(void) \x7b \x7d typedef int"]] := by
    have hsorted : sortedRows [1, 0] = [0, 1] := by decide
    have hsection : sectionOf (inView [lastRowItem, firstRowItem] shortEnd.focus) ⟨"x.c"⟩
        = ⟨⟨"x.c"⟩, some [0, 1]⟩ :=
      hsorted ▸ sectionOf_of_rows (by decide +kernel) (by decide)
    show revealed shortEnd [lastRowItem] [lastRowItem, firstRowItem] = _
    unfold revealed
    rw [sections_of_one_file ⟨"x.c"⟩ (by decide +kernel), List.flatMap_cons, List.flatMap_nil,
      List.append_nil]
    show revealedIn shortEnd _ (sectionOf _ ⟨"x.c"⟩) = _
    rw [hsection]
    decide +kernel
  refine ⟨hruns, (outline_shrinks_only_by_elisions shortEnd [lastRowItem, firstRowItem]
    (by decide : 1 ≤ 2) (Excerpt.Cache.faithful_empty shortEnd)
    (Excerpt.Cache.faithful_empty shortEnd)).2 ?_⟩
  rw [hruns]
  decide +kernel

end CodeMap.Outline
