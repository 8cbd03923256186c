/-
The code graph does not depend on the order of its input.

Everything in a graph is made from positions: those of nodes, of definitions
and of the definitions that hold references. All of them are given out while
the files are joined, and joining takes the files in path order. Distinct
paths leave nothing to choose in that order, so any two arrangements of the
same files are joined alike.
-/
import CodeMap.Proofs.CodeGraph.Names
import CodeMap.Proofs.Order

namespace CodeMap.CodeGraph

/-- Files with distinct paths have one order of joining. -/
theorem ordered_eq_of_perm {files files' : List SourceFile}
    (hpaths : (files.map fun f => f.path.components).Nodup) (hperm : files.Perm files') :
    ordered files = ordered files' := by
  refine sort_eq_of_perm (hperm.map extract) fun a ha b hb horder => ?_
  obtain ⟨f, hf, rfl⟩ := List.mem_map.mp ha
  obtain ⟨g, hg, rfl⟩ := List.mem_map.mp hb
  rw [file_extract, file_extract] at horder
  have hsame : f.path.components = g.path.components := Path.order_eq_eq_iff.mp horder
  rw [List.inj_on_of_nodup_map hpaths hf hg hsame]

/-- The code graph of files with distinct paths, compared by components, is the
same for every arrangement of the files: the same nodes and the same edges in
the same order. -/
theorem build_eq_of_perm {files files' : List SourceFile}
    (hpaths : (files.map fun f => f.path.components).Nodup) (hperm : files.Perm files') :
    build files = build files' := by
  have hbuild : ∀ fs, build fs = ((ordered fs).foldl Draft.addFile {}).graph := fun _ => rfl
  rw [hbuild, hbuild, ordered_eq_of_perm hpaths hperm]

/-- Three files that refer to each other. By components `a/z.py` comes first,
by characters it would come second. -/
def arrangedFiles : List SourceFile :=
  [⟨⟨"z.py"⟩, ⟨"/r/z.py"⟩, .python, "def z():\n    a()\n"⟩,
    ⟨⟨"a-b.py"⟩, ⟨"/r/a-b.py"⟩, .python, "def b():\n    z()\n"⟩,
    ⟨⟨"a/z.py"⟩, ⟨"/r/a/z.py"⟩, .python, "def a():\n    z()\n"⟩]

theorem build_eq_of_perm_sample :
    (arrangedFiles.map fun f => f.path.components).Nodup
      ∧ build arrangedFiles = build arrangedFiles.reverse :=
  have hpaths : (arrangedFiles.map fun f => f.path.components).Nodup := by decide +kernel
  ⟨hpaths, build_eq_of_perm hpaths (List.reverse_perm arrangedFiles).symm⟩

end CodeMap.CodeGraph
