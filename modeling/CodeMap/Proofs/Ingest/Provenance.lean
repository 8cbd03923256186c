/-
Where stored edges come from, and on which lines their references stand.

A stored edge is `Traced` if it was made for the graph of files that were
written, and if the row of the node it leaves is stored as it was made for the
same graph. Nothing else than that one row is needed, so the property lasts
(`lasting_traced`), and since keys are unique, looking up the source of a stored
edge finds it. What is known about the edges of a graph is then known about
stored edges as well.

The line of a reference lies in the definition that holds it. The node of that
definition has other lines if an earlier definition has the same qualified name
(`repeated_definition_loses_reference`). If it has not, the lines of the source
hold the line of the reference, in the graph and in the store.
-/
import CodeMap.Proofs.CodeGraph.Sources
import CodeMap.Proofs.Ingest.Integrity

namespace CodeMap

open CodeGraph Persist

-- ================================================================== tracing

/-- An edge row is that of an edge of the graph of some files, and that edge
leaves `node`. -/
structure RowOf (files : List SourceFile) (owner : String) (edge : CodeEdge) (node : CodeNode)
    (e : EdgeRow) : Prop where
  mem : edge ∈ (build files).edges
  source : (build files).nodes[edge.source]? = some node
  row : e = edgeRow (build files) e.repoId owner edge

namespace Store

/-- The edge was made for the graph of files that were written, and the row of
the node it leaves is stored, perhaps with a docstring. -/
def Traced (written : List SourceFile → Prop) (s : Store) (e : EdgeRow) : Prop :=
  ∃ files owner edge node, written files ∧ RowOf files owner edge node e
    ∧ ∃ n ∈ s.nodes, n.bare = nodeRow e.repoId owner node

variable {written : List SourceFile → Prop}

theorem lasting_traced : Lasting (Traced written) := by
  rintro s t e ⟨files, owner, edge, node, hwritten, hrow, n, hn, hbare⟩ hretains
  have hrepo : n.repoId = e.repoId := congrArg NodeRow.repoId hbare
  obtain ⟨m, hm, hsame⟩ := hretains n hn hrepo
  exact ⟨files, owner, edge, node, hwritten, hrow, m, hm, hsame.trans hbare⟩

theorem establishes_traced {files : List SourceFile} (h : written files) :
    Establishes (build files) (Traced written) := by
  intro repo owner s hnodes e he
  obtain ⟨edge, hedge, rfl⟩ := List.mem_map.mp he
  obtain ⟨⟨node, hnode⟩, -⟩ := edgesSound_build files edge hedge
  exact ⟨files, owner, edge, node, h, ⟨hedge, hnode, rfl⟩, _,
    (mem_and_key_of_stored hnodes hnode).1, rfl⟩

/-- Looking up the source of an edge finds the row that was made with it. -/
theorem Upholds.bare_of_node?_eq_some {s : Store} (h : s.Upholds (Traced written)) {repo : String}
    {e : EdgeRow} (he : e ∈ s.edgesOf repo) {source : NodeRow}
    (hsource : s.node? repo e.sourceId = some source) :
    ∃ files owner edge node, written files ∧ RowOf files owner edge node e
      ∧ source.bare = nodeRow repo owner node := by
  obtain ⟨hmem, hrepo⟩ := List.mem_filter.mp he
  obtain ⟨p, hp, rfl⟩ := List.mem_map.mp hmem
  obtain ⟨files, owner, edge, node, hwritten, hrow, n, hn, hbare⟩ := h.edges p hp
  rw [beq_iff_eq.mp hrepo] at hbare
  have hid : p.2.sourceId = nodeId owner node.qualified := by
    rw [hrow.row]
    show nodeId owner (qualifiedAt (build files) edge.source) = _
    rw [qualifiedAt, hrow.source]
    rfl
  have hkey : n.key = (repo, p.2.sourceId) := by
    rw [hid]
    exact congrArg NodeRow.key hbare
  have hfound := (Keyed.node?_eq_some_iff h.keys).mpr ⟨hn, hkey⟩
  obtain rfl : n = source := Option.some.inj (hfound.symm.trans hsource)
  exact ⟨files, owner, edge, node, hwritten, hrow, hbare⟩

end Store

theorem upholds_traced (start : Service) (operations : List Operation) :
    (Operation.reached start operations).Upholds
      (Store.Traced fun files => ∃ o ∈ operations, o.Writes files) := by
  refine Operation.run_upholds Store.lasting_traced operations (fun o ho files hwrites => ?_)
    ⟨by simp, by simp⟩
  exact Store.establishes_traced ⟨o, ho, hwrites⟩

-- ==================================================================== lines

/-- The line of a reference lies in the lines of the source of its edge. -/
def EdgeRow.LiesIn (e : EdgeRow) (source : NodeRow) : Prop :=
  ∃ first line last, source.startLine = some first ∧ e.refStartLine = some line
    ∧ source.endLine = some last ∧ first ≤ line ∧ line ≤ last

theorem kind_ne_file_of_bare {source : NodeRow} {repo owner : String} {node : CodeNode}
    (hbare : source.bare = nodeRow repo owner node) (h : source.isFile = false) :
    node.kind ≠ .file := by
  intro hkind
  have htype : source.nodeType = "file" := by
    refine (congrArg NodeRow.nodeType hbare).trans ?_
    show node.kind.name = "file"
    rw [hkind]
    rfl
  rw [NodeRow.isFile, htype] at h
  cases h

/-- Rows become lines by counting from one, on both sides. -/
theorem liesIn_of_contains {files : List SourceFile} {repo owner : String} {edge : CodeEdge}
    {node : CodeNode} {e : EdgeRow} {source : NodeRow} {span rows : LineSpan}
    (hrow : RowOf files owner edge node e) (hbare : source.bare = nodeRow repo owner node)
    (hspan : node.span = some span) (hrows : edge.refSpan = some rows)
    (hcontains : span.contains rows.first) : e.LiesIn source := by
  have hfirst : source.startLine = some (span.first + 1) := by
    refine (congrArg NodeRow.startLine hbare).trans ?_
    rw [nodeRow, hspan]
    rfl
  have hlast : source.endLine = some (span.last + 1) := by
    refine (congrArg NodeRow.endLine hbare).trans ?_
    rw [nodeRow, hspan]
    rfl
  have hline : e.refStartLine = some (rows.first + 1) := by
    rw [hrow.row, edgeRow, hrows]
    rfl
  obtain ⟨hafter, hbefore⟩ := LineSpan.contains_iff.mp hcontains
  exact ⟨_, _, _, hfirst, hline, hlast, Nat.succ_le_succ hafter, Nat.succ_le_succ hbefore⟩

/-- A reference stands in the definition that its edge comes from.

Every edge of a graph that leaves a definition has a row of reference, which lies
in the innermost located definition around it; the source of the edge is the
node of that definition's qualified name. The rows of the node are those of the
first definition of the name, so they hold the row of the reference if that is
the definition around it. Every stored edge that leaves a definition was made
for an edge of such a graph, whatever was done to the store, and then the lines
of its source hold the line of the reference. -/
theorem reference_lies_in_first_definition :
    (∀ files, ∀ edge ∈ (build files).edges, ∀ source,
      (build files).nodes[edge.source]? = some source → source.kind ≠ .file →
      ∃ holder rows, Stems files edge source holder rows ∧ edge.refSpan = some rows
        ∧ holder.span.contains rows.first
        ∧ source.qualified = qualifiedName holder.definition
        ∧ (StandsFirst files holder →
          ∃ span, source.span = some span ∧ span.contains rows.first))
    ∧ ∀ start operations repo, ∀ e ∈ (Operation.reached start operations).edgesOf repo,
      ∀ source, (Operation.reached start operations).node? repo e.sourceId = some source →
      source.isFile = false →
      ∃ o ∈ operations, ∃ files owner edge node holder rows, o.Writes files
        ∧ RowOf files owner edge node e ∧ source.bare = nodeRow repo owner node
        ∧ Stems files edge node holder rows
        ∧ (StandsFirst files holder → e.LiesIn source) := by
  constructor
  · intro files edge hedge source hsource hkind
    obtain ⟨holder, rows, hstems⟩ := exists_holder hedge hsource hkind
    exact ⟨holder, rows, hstems, hstems.refSpan_eq, hstems.contains, hstems.qualified_eq,
      fun hfirst => ⟨holder.span, hstems.span_eq hfirst, hstems.contains⟩⟩
  · intro start operations repo e he source hsource hfile
    obtain ⟨files, owner, edge, node, ⟨o, ho, hwrites⟩, hrow, hbare⟩ :=
      (upholds_traced start operations).bare_of_node?_eq_some he hsource
    obtain ⟨holder, rows, hstems⟩ :=
      exists_holder hrow.mem hrow.source (kind_ne_file_of_bare hbare hfile)
    refine ⟨o, ho, files, owner, edge, node, holder, rows, hwrites, hrow, hbare, hstems,
      fun hfirst => ?_⟩
    exact liesIn_of_contains hrow hbare (hstems.span_eq hfirst) hstems.refSpan_eq hstems.contains

/-- In the sample every name is defined once, so the stored reference lies in the
lines of its source. -/
theorem reference_lies_in_first_definition_sample :
    (namesOf (locatedIn (ordered sampleFiles))).Nodup
      ∧ ∃ e ∈ (Operation.reached {} Operation.sampleRun).edgesOf "r", ∃ source,
        (Operation.reached {} Operation.sampleRun).node? "r" e.sourceId = some source
          ∧ source.isFile = false ∧ e.LiesIn source := by
  have hnames : (namesOf (locatedIn (ordered sampleFiles))).Nodup := by decide +kernel
  have hstored : ∃ e ∈ (Operation.reached {} Operation.sampleRun).edgesOf "r",
      ((Operation.reached {} Operation.sampleRun).node? "r" e.sourceId).any
        fun source => !source.isFile := by decide +kernel
  obtain ⟨e, he, hsource⟩ := hstored
  obtain ⟨source, hfound, hfile⟩ := (Option.any_eq_true _ _).mp hsource
  have hfile : source.isFile = false := by simpa using hfile
  obtain ⟨o, ho, files, owner, edge, node, holder, rows, hwrites, -, -, hstems, hlies⟩ :=
    reference_lies_in_first_definition.2 {} Operation.sampleRun "r" e he source hfound hfile
  have hsample : files = sampleFiles := by
    simp only [Operation.sampleRun, List.mem_cons, List.not_mem_nil, or_false] at ho
    rcases ho with rfl | rfl | rfl
    · cases hwrites
    · exact hwrites.symm
    · exact (Except.ok.inj (sourceFiles_sampleTree.symm.trans hwrites)).symm
  subst hsample
  exact ⟨hnames, e, he, source, hfound, hfile,
    hlies (standsFirst_of_nodup hnames hstems.mem_located)⟩

/-- A function that is defined twice, with a reference in the second
definition. -/
def repeatedFiles : List SourceFile :=
  [⟨⟨"a.py"⟩, ⟨"/r/a.py"⟩, .python,
    "def f():\n    pass\ndef f():\n    g()\ndef g():\n    pass\n"⟩]

/-- The node of the function has the rows of the first definition, and the
reference leaves it from a row behind them. -/
theorem repeated_definition_loses_reference :
    ¬ ∀ files, ∀ edge ∈ (build files).edges, ∀ source rows span,
      (build files).nodes[edge.source]? = some source → source.kind ≠ .file →
      edge.refSpan = some rows → source.span = some span → span.contains rows.first := by
  intro hclaim
  have hlost : ∃ edge ∈ (build repeatedFiles).edges,
      ((build repeatedFiles).nodes[edge.source]?).any fun source =>
        source.kind ≠ .file ∧ source.span = some (LineSpan.of 0 1)
          ∧ edge.refSpan = some (LineSpan.of 3 3) := by decide +kernel
  obtain ⟨edge, hedge, hsource⟩ := hlost
  obtain ⟨source, hfound, hrows⟩ := (Option.any_eq_true _ _).mp hsource
  obtain ⟨hkind, hspan, hrefSpan⟩ := of_decide_eq_true hrows
  exact absurd (hclaim repeatedFiles edge hedge source _ _ hfound hkind hrefSpan hspan) (by decide)

end CodeMap
