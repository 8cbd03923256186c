/-
When a graph can be stored: keys are as distinct as names.

The key of a stored node is a digest of its name in the graph. A store that
holds nothing of a repository takes a graph if its names are distinct, digests
do not collide and lines fit; and since rows are taken batch by batch exactly
if they could be taken at once, a graph whose names repeat is never written to
the end, however it is cut (`nodup_of_write_ok`). With what is known about names
this leaves one way to fail: a file that is named like a definition.
-/
import CodeMap.Proofs.CodeGraph.Names
import CodeMap.Proofs.Ingest.Replacement
import Mathlib.Data.List.Nodup

namespace CodeMap

namespace Persist

-- =================================================== what success tells

/-- Calls that succeed were accepted one after the other. -/
theorem acceptedInTurn_of_made {s t : Service} {attempts : List Attempt}
    (h : Made s attempts t) : AcceptedInTurn (committed attempts) s.store := by
  induction h with
  | nil => trivial
  | @cons s t u a rest hcall _ ih =>
      obtain ⟨batch, answer⟩ := a
      cases answer with
      | error fault =>
          rw [Batch.run_insert_error hcall] at ih
          exact ih
      | ok =>
          obtain ⟨haccept, hstore⟩ := Batch.run_insert_ok hcall
          rw [hstore] at ih
          exact ⟨haccept, ih⟩

/-- Node batches that are accepted one after the other could be taken at once. -/
theorem acceptsNodes_of_inTurn {batches : List (List NodeRow)} {rest : List Batch} {s : Store}
    (h : AcceptedInTurn (batches.map .nodes ++ rest) s) : s.AcceptsNodes batches.flatten := by
  induction batches generalizing s with
  | nil => exact Store.acceptsNodes_nil s
  | cons rows more ih =>
      rw [List.flatten_cons, Store.acceptsNodes_append]
      exact ⟨h.1, ih h.2⟩

/-- A graph that was written has distinct names. -/
theorem nodup_of_write_ok {g : CodeGraph} {repo owner : String} {size retries : Nat}
    {s t : Service} {summary : PersistSummary}
    (h : (write g repo owner size retries).run.run s = (.ok summary, t)) :
    (g.nodes.map CodeNode.qualified).Nodup := by
  obtain ⟨u, ⟨rounds, hfin, hmade, -⟩ | ⟨done, last, source, stage, index, -, -, -, -, hrun⟩⟩ :=
    write_cases g repo owner size retries s
  · have hturn := acceptedInTurn_of_made hmade
    rw [hfin.committed, plan] at hturn
    have haccept := acceptsNodes_of_inTurn hturn
    rw [nodeBatches, (cut_batches size _).flatten] at haccept
    -- a key is made from the name, so keys cannot differ where names agree
    have hkeys : (nodeRows g repo owner).map NodeRow.key
        = (g.nodes.map CodeNode.qualified).map fun q => (repo, nodeId owner q) := by
      rw [nodeRows, List.map_map, List.map_map]
      rfl
    exact List.Nodup.of_map _ (hkeys ▸ haccept.distinct)
  · rw [h] at hrun
    cases hrun

end Persist

open CodeGraph Persist

/-- Distinct names get distinct ids. -/
def CodeGraph.NoCollision (g : CodeGraph) (owner : String) : Prop :=
  ∀ a ∈ g.nodes, ∀ b ∈ g.nodes,
    nodeId owner a.qualified = nodeId owner b.qualified → a.qualified = b.qualified

/-- A graph whose names are apart is written to any repository that is empty. -/
theorem write_of_namesApart {files : List SourceFile} (hpaths : (files.map SourceFile.path).Nodup)
    (hapart : NamesApart files) {repo owner : String} (size retries : Nat) {s : Service}
    (hcalm : s.Calm) (hnone : s.store.nodesOf repo = [])
    (hcollision : (build files).NoCollision owner) (hlines : (build files).LinesFit) :
    ∃ summary t, (write (build files) repo owner size retries).run.run s = (.ok summary, t) := by
  have hnodes := acceptsNodes_nodeRows hnone ((nodup_qualified_iff hpaths).mpr hapart)
    hcollision hlines
  obtain ⟨t, hrun, -⟩ := write_of_accepted (build files) repo owner size retries hcalm hnodes
    (acceptsEdges_edgeRows repo owner hlines)
  exact ⟨_, t, hrun⟩

/-- Files with different paths, all of them UTF-8 texts, give file nodes with
different names and definition nodes with different names. All names are
different exactly if no file is named like a definition, as when no path has a
colon, and exactly then the graph can be written to a repository that holds
nothing, if digests do not collide and lines fit. -/
theorem names_distinct_iff_apart {files : List SourceFile}
    (hpaths : (files.map SourceFile.path).Nodup) :
    (((build files).nodes.filter CodeNode.isFile).map CodeNode.qualified).Nodup
      ∧ (definitionNames (build files).nodes).Nodup
      ∧ (((build files).nodes.map CodeNode.qualified).Nodup ↔ NamesApart files)
      ∧ ((∀ f ∈ files, ':' ∉ f.path.text.toList) → NamesApart files)
      ∧ ∀ (repo owner : String) (size retries : Nat) (s : Service), s.Calm →
          s.store.nodesOf repo = [] → (build files).NoCollision owner →
          (build files).LinesFit →
          ((∃ summary t,
              (write (build files) repo owner size retries).run.run s = (.ok summary, t))
            ↔ NamesApart files) := by
  refine ⟨nodup_fileNames hpaths, (build_names files).1, nodup_qualified_iff hpaths,
    namesApart_of_no_colon, fun repo owner size retries s hcalm hnone hcollision hlines => ⟨?_, ?_⟩⟩
  · rintro ⟨summary, t, hrun⟩
    exact (nodup_qualified_iff hpaths).mp (nodup_of_write_ok hrun)
  · intro hapart
    exact write_of_namesApart hpaths hapart size retries hcalm hnone hcollision hlines

/-- A file with a function `foo`, and a file whose name goes on from the name
of the first. -/
def colonFiles (name : String) : List SourceFile :=
  [⟨⟨"a.py"⟩, ⟨"/a.py"⟩, .python, "def foo():\n    pass\n"⟩,
    ⟨⟨"a.py:" ++ name⟩, ⟨"/a.py:" ++ name⟩, .unknown, "notes\n"⟩]

theorem build_colonFiles (name : String) (h : (Path.order ⟨"a.py"⟩ ⟨"a.py:" ++ name⟩).isLE) :
    build (colonFiles name) = (((colonFiles name).map extract).foldl Draft.addFile {}).graph :=
  build_of_ordered (List.pairwise_pair.mpr h)

/-- A colon in a path does no harm by itself. -/
theorem names_distinct_sample :
    ((build (colonFiles "bar")).nodes.map CodeNode.qualified).Nodup
      ∧ ∃ summary t,
        (write (build (colonFiles "bar")) "r" "o" 300 3).run.run {} = (.ok summary, t) := by
  have hgraph := build_colonFiles "bar" (by decide +kernel)
  have hapart : NamesApart (colonFiles "bar") := by decide +kernel
  have hcollision : (build (colonFiles "bar")).NoCollision "o" := by
    rw [hgraph, NoCollision]
    decide +kernel
  have hlines : (build (colonFiles "bar")).LinesFit := by
    rw [hgraph]
    exact ⟨by decide +kernel, by decide +kernel, by decide +kernel⟩
  obtain ⟨-, -, hnames, -, hwrite⟩ := @names_distinct_iff_apart (colonFiles "bar") (by decide)
  exact ⟨hnames.mpr hapart,
    (hwrite "r" "o" 300 3 {} ⟨by decide, by decide, by decide⟩ rfl hcollision hlines).mpr hapart⟩

/-- A file named like the function gets the key of the function and is refused,
though no digests collide. -/
theorem write_refuses_file_named_like_function :
    ((colonFiles "foo").map SourceFile.path).Nodup
      ∧ (build (colonFiles "foo")).NoCollision "o"
      ∧ ¬ ((build (colonFiles "foo")).nodes.map CodeNode.qualified).Nodup
      ∧ ∃ t, (write (build (colonFiles "foo")) "r" "o" 300 3).run.run {}
        = (.error (.batch "nodes" 0 (.database ("failed to insert node 'a.py:foo': "
          ++ "UNIQUE constraint failed: nodes.repo_id, nodes.node_id"))), t) := by
  have hgraph := build_colonFiles "foo" (by decide +kernel)
  have hpaths : ((colonFiles "foo").map SourceFile.path).Nodup := by decide
  have hclash : ¬ NamesApart (colonFiles "foo") := by decide +kernel
  have hcollision : (build (colonFiles "foo")).NoCollision "o" := by
    rw [hgraph, NoCollision]
    decide +kernel
  have hnames := mt (nodup_qualified_iff hpaths).mp hclash
  refine ⟨hpaths, hcollision, hnames, ?_⟩
  have hfault : (match ((write (build (colonFiles "foo")) "r" "o" 300 3).run.run {}).1 with
      | .ok _ => none
      | .error fault => some fault) = some (.batch "nodes" 0 (.database
        ("failed to insert node 'a.py:foo': "
          ++ "UNIQUE constraint failed: nodes.repo_id, nodes.node_id"))) := by
    rw [hgraph]
    decide +kernel
  rcases hrun : (write (build (colonFiles "foo")) "r" "o" 300 3).run.run {} with ⟨fault | summary, t⟩
  · rw [hrun] at hfault
    cases hfault
    exact ⟨t, rfl⟩
  · rw [hrun] at hfault
    cases hfault

end CodeMap
