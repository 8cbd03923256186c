/-
A ranking reads the lists of an interest as sets.

The order in which files are given, and how often one is given, enter nowhere.
A file that is in focus is never listed, so it makes no difference either
whether it is among the other files as well. `Interest.Alike` collects the
three ways in which two interests may differ.

The numbers need nothing more than that the same paths attract rank and that
there are equally many of them (`fileCount_eq`). The entries that follow the
definitions come from the other files outside of focus, in path order
(`SpelledOnce.filter_sortedSet`).
-/
import CodeMap.Proofs.Path.Sets
import CodeMap.FileGraph

namespace CodeMap

namespace Interest

/-- The paths of an interest that may be listed or stand in focus. -/
def paths (i : Interest) : List Path := i.focus ++ i.other

/-- Two interests in the same sets of files and names, apart from files in focus
that one of them also counts among the other files. -/
structure Alike (i j : Interest) : Prop where
  focus : ∀ p, p ∈ i.focus ↔ p ∈ j.focus
  paths : ∀ p, p ∈ i.paths ↔ p ∈ j.paths
  mentionedFiles : ∀ p, p ∈ i.mentionedFiles ↔ p ∈ j.mentionedFiles
  mentionedNames : ∀ name, name ∈ i.mentionedNames ↔ name ∈ j.mentionedNames

section Alike

variable {i j : Interest}

/-- Outside of focus the other files are the same. -/
theorem Alike.mem_other_iff (h : Alike i j) {p : Path} (hfocus : p ∉ i.focus) :
    p ∈ i.other ↔ p ∈ j.other := by
  have hpaths := h.paths p
  unfold Interest.paths at hpaths
  rw [List.mem_append, List.mem_append, ← h.focus p] at hpaths
  constructor
  · intro hp
    exact (hpaths.mp (.inr hp)).resolve_left hfocus
  · intro hp
    exact (hpaths.mpr (.inr hp)).resolve_left hfocus

theorem Alike.contains_name (h : Alike i j) (name : String) :
    i.mentionedNames.contains name = j.mentionedNames.contains name := by
  rw [Bool.eq_iff_iff, List.contains_iff_mem, List.contains_iff_mem]
  exact h.mentionedNames name

/-- Files attract rank by focus and mention alone. -/
theorem Alike.attracts_eq (h : Alike i j) (p : Path) : i.attracts p = j.attracts p := by
  unfold attracts
  rw [Path.among_eq_of_mem_iff h.focus, Path.among_eq_of_mem_iff h.mentionedFiles]

/-- Counted once, the files of a request are a set. -/
theorem Alike.fileCount_eq (h : Alike i j) (hspelled : Path.SpelledOnce i.paths) :
    i.fileCount = j.fileCount :=
  congrArg List.length (hspelled.sortedSet_eq h.paths)

end Alike

end Interest

namespace FileGraph

open Interest (Alike)

variable {i j : Interest}

/-- The graph sees the mentioned names only. -/
theorem build_alike (h : Alike i j) (tags : List Tag) : build tags i = build tags j := by
  have hemphasis : Emphasis.of i = Emphasis.of j := by
    funext name
    unfold Emphasis.of
    rw [h.contains_name]
  have hrows : rows tags i = rows tags j := by
    unfold rows
    rw [hemphasis]
  unfold build
  rw [hrows]

/-- The personalization asks for the number of files and for those that attract
rank. -/
theorem personalization_alike {α : Type} [RankNumber α] (h : Alike i j)
    (hspelled : Path.SpelledOnce i.paths) (g : FileGraph) :
    (personalization i g : List α) = personalization j g := by
  unfold personalization
  rw [h.fileCount_eq hspelled]
  simp only [h.attracts_eq]

/-- The other files that follow the definitions: none of them is in focus, and
outside of focus the two interests name the same. -/
theorem filter_sortedSet_alike (h : Alike i j) (hspelled : Path.SpelledOnce i.paths)
    (test : Path → Bool) :
    (Path.sortedSet i.other).filter (fun p => !p.among j.focus && test p)
      = (Path.sortedSet j.other).filter fun p => !p.among j.focus && test p := by
  have hspelled' : Path.SpelledOnce j.paths := hspelled.subset fun p => (h.paths p).mpr
  refine (hspelled.subset (List.subset_append_right _ _)).filter_sortedSet
    (hspelled'.subset (List.subset_append_right _ _)) fun p hp => ?_
  apply h.mem_other_iff
  intro hfocus
  have hamong : p.among j.focus = true := Path.among_iff.mpr ⟨p, (h.focus p).mp hfocus, rfl⟩
  rw [hamong] at hp
  cases hp

/-- The arrangement asks which files are in focus and which others follow. -/
theorem arrange_alike {α : Type} [RankNumber α] (h : Alike i j)
    (hspelled : Path.SpelledOnce i.paths) (g : FileGraph) (ranks : Vector α g.files.length)
    (scores : List (Group g.files.length × α)) :
    g.arrange i ranks scores = g.arrange j ranks scores := by
  unfold arrange
  simp only [Path.among_eq_of_mem_iff h.focus, List.filter_append,
    filter_sortedSet_alike h hspelled]

/-- Alike interests get the same entries, in the same order. -/
theorem rankedItems_alike {α : Type} [RankNumber α] (h : Alike i j)
    (hspelled : Path.SpelledOnce i.paths) (root : Nat → α) (tags : List Tag) :
    rankedItems root i (build tags i) = rankedItems root j (build tags j) := by
  rw [build_alike h]
  unfold rankedItems ranks
  rw [personalization_alike h hspelled, arrange_alike h hspelled]

end FileGraph

end CodeMap
