/-
An outline depends on what its entries list, not on how they list it.

Entries list files, and rows of files where a definition starts. From these two
facts the sections of an outline are settled (`IsArrangement.unique`): there is
one for every file that is listed and not in focus, in path order, with the rows
that are listed for the file in increasing order. Neither the order of the
entries nor how often one occurs is part of this, and an entry for a file as
such adds nothing where a definition of the file is listed.

Files are kept in the spelling of the entry that comes first, so all of this
needs every file to be spelled in one way.
-/
import CodeMap.Proofs.Outline.Growth
import Mathlib.Data.List.Sort

namespace CodeMap.Outline

-- ================================================================== listing

/-- Some entry is about the file. -/
def Lists (items : List RankedItem) (p : Path) : Prop := ∃ item ∈ items, item.path = p

/-- Some entry is a definition of the file that starts on the row. -/
def ListsRow (items : List RankedItem) (p : Path) (row : Nat) : Prop :=
  ∃ item ∈ items, item.path = p ∧ row? item = some row

/-- Every file is spelled in one way. -/
def SpelledAlike (items : List RankedItem) : Prop :=
  ∀ a ∈ items, ∀ b ∈ items, a.path.same b.path → a.path = b.path

instance (items : List RankedItem) : Decidable (SpelledAlike items) :=
  inferInstanceAs (Decidable (∀ a ∈ items, ∀ b ∈ items, _))

/-- The rows of a section are those listed for the file, in order, if there are
any. -/
def RowsListed (items : List RankedItem) (p : Path) : Option (List Nat) → Prop
  | none => ∀ row, ¬ ListsRow items p row
  | some rows => rows ≠ [] ∧ rows.Pairwise (· < ·) ∧ ∀ row, row ∈ rows ↔ ListsRow items p row

/-- The sections are one for each listed file that is not in focus, in path
order. -/
structure IsArrangement (items : List RankedItem) (focus : List Path)
    (sections : List Section) : Prop where
  files : ∀ p, (∃ s ∈ sections, s.path = p) ↔ Lists items p ∧ p.among focus = false
  ordered : sections.Pairwise fun s t => s.path.order t.path = .lt
  rows : ∀ s ∈ sections, RowsListed items s.path s.rows

section Unique

variable {items items' : List RankedItem} {p : Path}

theorem RowsListed.unique (hrows : ∀ row, ListsRow items p row ↔ ListsRow items' p row)
    {rows rows' : Option (List Nat)} (h : RowsListed items p rows)
    (h' : RowsListed items' p rows') : rows = rows' := by
  cases rows with
  | none =>
      cases rows' with
      | none => rfl
      | some rows' =>
          obtain ⟨row, hrow⟩ := List.exists_mem_of_ne_nil rows' h'.1
          exact absurd ((hrows row).mpr ((h'.2.2 row).mp hrow)) (h row)
  | some rows =>
      cases rows' with
      | none =>
          obtain ⟨row, hrow⟩ := List.exists_mem_of_ne_nil rows h.1
          exact absurd ((hrows row).mp ((h.2.2 row).mp hrow)) (h' row)
      | some rows' =>
          obtain ⟨-, hordered, hmem⟩ := h
          obtain ⟨-, hordered', hmem'⟩ := h'
          have hsame : ∀ row, row ∈ rows ↔ row ∈ rows' := fun row =>
            (hmem row).trans ((hrows row).trans (hmem' row).symm)
          rw [hordered.eq_of_mem_iff hordered' hsame]

/-- What is listed settles the sections. -/
theorem IsArrangement.unique {focus : List Path} {sections sections' : List Section}
    (hfiles : ∀ p, Lists items p ↔ Lists items' p)
    (hrows : ∀ p row, ListsRow items p row ↔ ListsRow items' p row)
    (h : IsArrangement items focus sections) (h' : IsArrangement items' focus sections') :
    sections = sections' := by
  have hsame : ∀ {items items' : List RankedItem} {sections sections' : List Section},
      (∀ p, Lists items p ↔ Lists items' p) →
      (∀ p row, ListsRow items p row ↔ ListsRow items' p row) →
      IsArrangement items focus sections → IsArrangement items' focus sections' →
      ∀ s ∈ sections, s ∈ sections' := by
    intro items items' sections sections' hfiles hrows h h' s hs
    have hfile := (h.files s.path).mp ⟨s, hs, rfl⟩
    obtain ⟨t, ht, hpath⟩ := (h'.files s.path).mpr ⟨(hfiles s.path).mp hfile.1, hfile.2⟩
    have hlisted : RowsListed items' s.path t.rows := hpath ▸ h'.rows t ht
    have hequal : s = t := by
      obtain ⟨p, rows⟩ := s
      obtain ⟨q, rows'⟩ := t
      obtain rfl : q = p := hpath
      exact congrArg (Section.mk q) ((h.rows _ hs).unique (hrows q) hlisted)
    exact hequal ▸ ht
  refine @eq_of_pairwise_lt _ _ Path.order _ Section.path _ _ h.ordered h'.ordered fun s => ?_
  exact ⟨hsame hfiles hrows h h' s,
    hsame (fun p => (hfiles p).symm) (fun p row => (hrows p row).symm) h' h s⟩

end Unique

-- ================================================================= sections

section Sections

variable {items : List RankedItem} {focus : List Path}

theorem mem_inView_iff {item : RankedItem} :
    item ∈ inView items focus ↔ item ∈ items ∧ item.path.among focus = false := by
  simp [inView]

variable (hspelled : SpelledAlike items)

include hspelled

theorem SpelledAlike.eq {p q : Path} (hp : Lists items p) (hq : Lists items q)
    (h : p.components = q.components) : p = q := by
  obtain ⟨a, ha, rfl⟩ := hp
  obtain ⟨b, hb, rfl⟩ := hq
  exact hspelled a ha b hb (Path.same_iff.mpr h)

/-- The rows of a file are looked up by its components, and found under its
spelling. -/
theorem mem_rows_iff {p : Path} (hp : Lists items p) (hfocus : p.among focus = false) {row : Nat} :
    row ∈ ((inView items focus).filter fun item => item.path.same p).filterMap row?
      ↔ ListsRow items p row := by
  rw [List.mem_filterMap]
  constructor
  · rintro ⟨item, hitem, hrow⟩
    obtain ⟨hview, hsame⟩ := List.mem_filter.mp hitem
    have hitem := (mem_inView_iff.mp hview).1
    exact ⟨item, hitem, hspelled.eq ⟨item, hitem, rfl⟩ hp (Path.same_iff.mp hsame), hrow⟩
  · rintro ⟨item, hitem, rfl, hrow⟩
    exact ⟨item, List.mem_filter.mpr ⟨mem_inView_iff.mpr ⟨hitem, hfocus⟩, Path.same_refl _⟩, hrow⟩

theorem rowsListed_sectionOf {p : Path} (hp : Lists items p) (hfocus : p.among focus = false) :
    RowsListed items p (sectionOf (inView items focus) p).rows := by
  have hmem : ∀ row, row ∈ ((inView items focus).filter fun item => item.path.same p).filterMap row?
      ↔ ListsRow items p row := fun row => mem_rows_iff hspelled hp hfocus
  unfold sectionOf
  dsimp only
  split
  next hnone =>
    intro row hrow
    have hrow := (hmem row).mpr hrow
    rw [List.isEmpty_iff.mp hnone] at hrow
    cases hrow
  next hsome =>
    refine ⟨fun hnil => hsome ?_, pairwise_sortedRows _, fun row => mem_sortedRows.trans (hmem row)⟩
    refine List.isEmpty_iff.mpr (List.eq_nil_iff_forall_not_mem.mpr fun row hrow => ?_)
    have hrow := mem_sortedRows.mpr hrow
    rw [hnil] at hrow
    cases hrow

/-- A file is listed in one spelling, so that is the one that is kept. -/
theorem mem_firstUses_iff {p : Path} :
    p ∈ Path.firstUses ((inView items focus).map (·.path))
      ↔ Lists items p ∧ p.among focus = false := by
  have hlisted : ∀ {q}, q ∈ (inView items focus).map (·.path) ↔
      Lists items q ∧ q.among focus = false := by
    intro q
    rw [List.mem_map]
    constructor
    · rintro ⟨item, hitem, rfl⟩
      obtain ⟨hitem, hfocus⟩ := mem_inView_iff.mp hitem
      exact ⟨⟨item, hitem, rfl⟩, hfocus⟩
    · rintro ⟨⟨item, hitem, rfl⟩, hfocus⟩
      exact ⟨item, mem_inView_iff.mpr ⟨hitem, hfocus⟩, rfl⟩
  constructor
  · intro h
    exact hlisted.mp (Path.mem_of_mem_firstUses h)
  · intro h
    obtain ⟨q, hq, hqp⟩ := Path.exists_mem_firstUses (hlisted.mpr h)
    have hequal : q = p := hspelled.eq (hlisted.mp (Path.mem_of_mem_firstUses hq)).1 h.1 hqp
    exact hequal ▸ hq

theorem isArrangement_sections (focus : List Path) :
    IsArrangement items focus (sections items focus) := by
  rw [sections_eq]
  refine ⟨fun p => ?_, ?_, fun s hs => ?_⟩
  · rw [← mem_firstUses_iff hspelled]
    simp only [List.mem_map, List.mem_mergeSort, exists_exists_and_eq_and]
    exact exists_eq_right
  · exact List.pairwise_map.mpr (Path.pairwise_sort_firstUses _)
  · obtain ⟨p, hp, rfl⟩ := List.mem_map.mp hs
    obtain ⟨hlisted, hfocus⟩ := (mem_firstUses_iff hspelled).mp (List.mem_mergeSort.mp hp)
    exact rowsListed_sectionOf hspelled hlisted hfocus

end Sections

-- ================================================================= outlines

theorem cutLines_join (width : Nat) {texts : List String} (h : ∀ t ∈ texts, Text.Ended t) :
    cutLines width (String.join texts) = String.join (texts.map (cutLines width)) := by
  induction texts with
  | nil => rfl
  | cons t rest ih =>
      rw [String.join_cons, cutLines_append width (h t List.mem_cons_self), List.map_cons,
        String.join_cons, ih fun t' ht' => h t' (List.mem_cons_of_mem t ht')]

/-- An outline is its sections one after the other, each of them cut. -/
theorem text_eq (setting : Setting) (items : List RankedItem) :
    text setting items = String.join ((sections items setting.focus).map fun s =>
      cutLines setting.width (sectionText setting s)) := by
  rw [text, cutLines_join, List.map_map]
  · rfl
  · intro t ht
    obtain ⟨s, -, rfl⟩ := List.mem_map.mp ht
    exact sectionText_ended setting s

/-- Entries that list the same files, and the same rows of them, have the same
outline, in whatever order and however often they list them. It consists of one
section for every listed file that is not in focus, in path order: an excerpt
around the rows that are listed for the file, or its bare path if there are none
or its content is not at hand. -/
theorem outline_depends_on_listing (setting : Setting) {items items' : List RankedItem}
    (hspelled : SpelledAlike items) (hfiles : ∀ p, Lists items p ↔ Lists items' p)
    (hrows : ∀ p row, ListsRow items p row ↔ ListsRow items' p row) :
    ((render setting items).run {}).1 = ((render setting items').run {}).1
      ∧ ∃ sections : List Section,
        (∀ other, IsArrangement items setting.focus other ↔ other = sections)
          ∧ ((render setting items).run {}).1 = String.join (sections.map fun s =>
            cutLines setting.width (sectionText setting s)) := by
  have hspelled' : SpelledAlike items' := by
    intro a ha b hb hsame
    exact hspelled.eq ((hfiles _).mpr ⟨a, ha, rfl⟩) ((hfiles _).mpr ⟨b, hb, rfl⟩)
      (Path.same_iff.mp hsame)
  have harranged := isArrangement_sections hspelled setting.focus
  have hsections : sections items setting.focus = sections items' setting.focus :=
    harranged.unique hfiles hrows (isArrangement_sections hspelled' setting.focus)
  have hnew := Excerpt.Cache.faithful_empty setting
  rw [render_eq_text hnew, render_eq_text hnew]
  refine ⟨by rw [text, text, hsections], sections items setting.focus, fun other => ?_,
    text_eq setting items⟩
  constructor
  · exact fun h => h.unique (fun _ => Iff.rfl) (fun _ _ => Iff.rfl) harranged
  · rintro rfl
    exact harranged

/-- A definition that starts on a row of a file. -/
def rowItem (file : String) (row : Nat) : RankedItem :=
  .definition ⟨⟨file⟩, "x", "function", .of row row, (0, 1), []⟩

/-- A text, and a file in focus. -/
def lettersSetting : Setting where
  sources := [⟨⟨"b.txt"⟩, "x\ny\nz\nw\n"⟩, ⟨⟨"c.txt"⟩, "focus\n"⟩]
  focus := [⟨"c.txt"⟩]
  width := 100

def lettersItems : List RankedItem :=
  [rowItem "b.txt" 2, rowItem "c.txt" 0, .file ⟨"a.txt"⟩, rowItem "b.txt" 0]

/-- The same rows in another order and repeated, with their file beside them. -/
def shuffledItems : List RankedItem :=
  [.file ⟨"b.txt"⟩, rowItem "b.txt" 0, .file ⟨"a.txt"⟩, rowItem "b.txt" 2, rowItem "b.txt" 0,
    rowItem "c.txt" 0, .file ⟨"a.txt"⟩]

/-- The sections of the letters. -/
def lettersSections : List Section := [⟨⟨"a.txt"⟩, none⟩, ⟨⟨"b.txt"⟩, some [0, 2]⟩]

theorem isArrangement_letters :
    IsArrangement lettersItems lettersSetting.focus lettersSections := by
  refine ⟨fun p => ⟨?_, ?_⟩, by decide +kernel, fun s hs => ?_⟩
  · rintro ⟨s, hs, rfl⟩
    simp only [lettersSections, List.mem_cons, List.not_mem_nil, or_false] at hs
    rcases hs with rfl | rfl
    · exact ⟨⟨.file ⟨"a.txt"⟩, by decide +kernel, rfl⟩, by decide +kernel⟩
    · exact ⟨⟨rowItem "b.txt" 0, by decide +kernel, rfl⟩, by decide +kernel⟩
  · rintro ⟨⟨item, hitem, rfl⟩, hfocus⟩
    simp only [lettersItems, List.mem_cons, List.not_mem_nil, or_false] at hitem
    rcases hitem with rfl | rfl | rfl | rfl
    · exact ⟨_, List.mem_cons_of_mem _ List.mem_cons_self, rfl⟩
    · -- this file is in focus
      exact absurd hfocus (by decide +kernel)
    · exact ⟨_, List.mem_cons_self, rfl⟩
    · exact ⟨_, List.mem_cons_of_mem _ List.mem_cons_self, rfl⟩
  · simp only [lettersSections, List.mem_cons, List.not_mem_nil, or_false] at hs
    rcases hs with rfl | rfl
    · simp [RowsListed, ListsRow, lettersItems, rowItem, RankedItem.path, row?]
    · refine ⟨by decide, by decide, fun row => ?_⟩
      simp only [ListsRow, lettersItems, rowItem, RankedItem.path, row?, LineSpan.first_of,
        List.mem_cons, List.not_mem_nil, or_false, exists_eq_or_imp, exists_eq_left,
        Path.mk.injEq, Option.some.injEq, reduceCtorEq, String.reduceEq, true_and, false_and,
        false_or, and_false]
      omega

/-- The shuffled entries give the outline of the letters. -/
theorem outline_depends_on_listing_sample :
    SpelledAlike lettersItems
      ∧ (∀ p, Lists lettersItems p ↔ Lists shuffledItems p)
      ∧ (∀ p row, ListsRow lettersItems p row ↔ ListsRow shuffledItems p row)
      ∧ ((render lettersSetting shuffledItems).run {}).1
        = ((render lettersSetting lettersItems).run {}).1
      ∧ ((render lettersSetting lettersItems).run {}).1
        = "\na.txt\n\nb.txt:\n\u2502x\n\u2502y\n\u2502z\n\u22ee...\n" := by
  have hspelled : SpelledAlike lettersItems := by decide +kernel
  have hfiles : ∀ p, Lists lettersItems p ↔ Lists shuffledItems p := by
    intro p
    simp only [Lists, lettersItems, shuffledItems, List.mem_cons, List.not_mem_nil, or_false,
      exists_eq_or_imp, exists_eq_left]
    tauto
  have hrows : ∀ p row, ListsRow lettersItems p row ↔ ListsRow shuffledItems p row := by
    intro p row
    simp only [ListsRow, lettersItems, shuffledItems, List.mem_cons, List.not_mem_nil, or_false,
      exists_eq_or_imp, exists_eq_left, row?, reduceCtorEq, and_false, false_or]
    tauto
  obtain ⟨hsame, sections, hsections, htext⟩ :=
    outline_depends_on_listing lettersSetting hspelled hfiles hrows
  obtain rfl := (hsections lettersSections).mp isArrangement_letters
  exact ⟨hspelled, hfiles, hrows, hsame.symm, htext.trans (by decide +kernel)⟩

end CodeMap.Outline
