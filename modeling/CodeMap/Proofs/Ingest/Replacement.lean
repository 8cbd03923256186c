/-
Ingestion replaces the rows of one repository and touches no others.

# The three steps and their faults

Ingestion builds a graph, removes what was stored, and writes the graph.
`ingest_error_cases` tells apart where a failed run ended: nothing was removed
if the graph could not be built or the removal failed, and once the removal is
done only rows of the new graph are written. The rows of the repository are
then the front of the new graph, up to the batch that failed
(`ingest_failure_keeps_no_mixture`).

# Success

After the removal the store holds no key of the repository, so it accepts the
graph whenever the graph's own ids differ and its lines fit
(`acceptsNodes_nodeRows`). What is stored for the repository is then a
function of the graph alone, which makes it the same as in an empty store
(`ingest_replaces`).
-/
import CodeMap.Ingest
import CodeMap.Proofs.Persist.Unhindered

namespace CodeMap

open Persist

-- ====================================================== rows of a graph

section Rows

variable (g : CodeGraph) (repo owner : String) (size : Nat)

theorem repoId_of_mem_nodeRows : ∀ n ∈ nodeRows g repo owner, n.repoId = repo := by
  intro n hn
  obtain ⟨node, -, rfl⟩ := List.mem_map.mp hn
  rfl

theorem repoId_of_mem_edgeRows : ∀ e ∈ edgeRows g repo owner, e.repoId = repo := by
  intro e he
  obtain ⟨edge, -, rfl⟩ := List.mem_map.mp he
  rfl

/-- The batches before one hold rows of the whole list only. -/
theorem mem_of_mem_take_batches {α : Type} {size index : Nat} {rows : List α} {x : α}
    (hx : x ∈ ((batches size rows).take index).flatten) : x ∈ rows := by
  obtain ⟨batch, hbatch, hmem⟩ := List.mem_flatten.mp hx
  exact mem_of_mem_batches (List.mem_of_mem_take hbatch) hmem

theorem repoId_of_mem_nodesBefore (stage : Stage) (index : Nat) :
    ∀ n ∈ nodesBefore g repo owner size stage index, n.repoId = repo := by
  intro n hn
  cases stage with
  | nodes => exact repoId_of_mem_nodeRows g repo owner n (mem_of_mem_take_batches hn)
  | edges => exact repoId_of_mem_nodeRows g repo owner n hn

theorem repoId_of_mem_edgesBefore (stage : Stage) (index : Nat) :
    ∀ e ∈ edgesBefore g repo owner size stage index, e.repoId = repo := by
  intro e he
  cases stage with
  | nodes => cases he
  | edges => exact repoId_of_mem_edgeRows g repo owner e (mem_of_mem_take_batches he)

end Rows

namespace Store

/-- A store that held nothing of a repository holds exactly the rows that are
added for it. -/
theorem rowsOf_add {s : Store} {repo : String} {nodes : List NodeRow} {edges : List EdgeRow}
    (hnodes : ∀ n ∈ nodes, n.repoId = repo) (hedges : ∀ e ∈ edges, e.repoId = repo)
    (hnone : s.nodesOf repo = [] ∧ s.edgesOf repo = []) :
    ((s.addNodes nodes).addEdges edges).nodesOf repo = nodes
      ∧ ((s.addNodes nodes).addEdges edges).edgesOf repo = edges := by
  constructor
  · rw [nodesOf_addEdges, nodesOf_addNodes, hnone.1, List.nil_append, List.filter_eq_self]
    intro n hn
    rw [beq_iff_eq, hnodes n hn]
  · rw [edgesOf_addEdges, edgesOf_addNodes, hnone.2, List.nil_append, List.filter_eq_self]
    intro e he
    rw [beq_iff_eq, hedges e he]

/-- Replacing the rows of one repository leaves the rows of the others alone. -/
theorem sameRows_replace (s : Store) {repo other : String} {nodes : List NodeRow}
    {edges : List EdgeRow} (hnodes : ∀ n ∈ nodes, n.repoId = repo)
    (hedges : ∀ e ∈ edges, e.repoId = repo) (hother : other ≠ repo) :
    SameRows other ((((s.deleteRepo repo).2).addNodes nodes).addEdges edges) s :=
  ((sameRows_addEdges _ hedges hother).trans (sameRows_addNodes _ hnodes hother)).trans
    (sameRows_deleteRepo s hother)

end Store

-- ================================================================= success

/-- Every line number of a graph can be stored. -/
structure CodeGraph.LinesFit (g : CodeGraph) : Prop where
  nodes : ∀ n ∈ g.nodes, ∀ span ∈ n.span, span.last + 1 ≤ Store.maxLine
  references : ∀ e ∈ g.edges, ∀ span ∈ e.refSpan, span.last + 1 ≤ Store.maxLine
  definitions : ∀ e ∈ g.edges, e.defSpan.last + 1 ≤ Store.maxLine

/-- The lines of a span fit if the last one does. -/
theorem fits_of_last {span : Option LineSpan}
    (h : ∀ s ∈ span, s.last + 1 ≤ Store.maxLine) :
    Store.fits (span.map (·.first + 1)) = true ∧ Store.fits (span.map (·.last + 1)) = true := by
  cases span with
  | none => exact ⟨rfl, rfl⟩
  | some s =>
      have hlast := h s rfl
      have hfirst : s.first + 1 ≤ Store.maxLine := by
        have := s.ordered
        omega
      exact ⟨decide_eq_true hfirst, decide_eq_true hlast⟩

theorem fits_of_mem_nodeRows {g : CodeGraph} (repo owner : String) (hlines : g.LinesFit) :
    ∀ n ∈ nodeRows g repo owner, n.Fits := by
  intro n hn
  obtain ⟨node, hnode, rfl⟩ := List.mem_map.mp hn
  exact fits_of_last (hlines.nodes node hnode)

theorem acceptsEdges_edgeRows {g : CodeGraph} (repo owner : String) (hlines : g.LinesFit) :
    Store.AcceptsEdges (edgeRows g repo owner) := by
  intro e he
  obtain ⟨edge, hedge, rfl⟩ := List.mem_map.mp he
  have hlast : edge.defSpan.last + 1 ≤ Store.maxLine := hlines.definitions edge hedge
  have hfirst : edge.defSpan.first + 1 ≤ Store.maxLine := by
    have := edge.defSpan.ordered
    omega
  exact ⟨fits_of_last (hlines.references edge hedge), hfirst, hlast⟩

/-- A store without rows of the repository accepts the nodes of a graph whose
qualified names, and so its ids, differ. -/
theorem acceptsNodes_nodeRows {g : CodeGraph} {repo owner : String} {s : Store}
    (hnone : s.nodesOf repo = [])
    (hdistinct : (g.nodes.map CodeNode.qualified).Nodup)
    (hcollision : ∀ a ∈ g.nodes, ∀ b ∈ g.nodes,
      nodeId owner a.qualified = nodeId owner b.qualified → a.qualified = b.qualified)
    (hlines : g.LinesFit) : s.AcceptsNodes (nodeRows g repo owner) := by
  refine ⟨fits_of_mem_nodeRows repo owner hlines, ?_, fun n hn hkey => ?_⟩
  · -- equal keys mean equal ids, equal ids mean equal qualified names
    rw [nodeRows, List.map_map, List.Nodup, List.pairwise_map]
    rw [List.Nodup, List.pairwise_map] at hdistinct
    refine hdistinct.imp_of_mem fun {a b} ha hb hne heq => hne ?_
    exact hcollision a ha b hb (congrArg Prod.snd heq)
  · obtain ⟨old, hold, heq⟩ := List.mem_map.mp hkey
    have hrepo : old.repoId = repo :=
      (congrArg Prod.fst heq).trans (repoId_of_mem_nodeRows g repo owner n hn)
    have hmem : old ∈ s.nodesOf repo :=
      List.mem_filter.mpr ⟨hold, beq_iff_eq.mpr hrepo⟩
    rw [hnone] at hmem
    cases hmem

theorem ingest_of_graph {fs : FileSystem} {root : Path} {config : Config} {g : CodeGraph}
    (hgraph : CodeGraph.ofRoot fs root config.walk = .ok g) (repo owner : String) :
    ingest fs root repo owner config = (do
      let _ ← Session.deleteRepo repo
      write g repo owner config.graph.batchSize config.graph.maxRetries) := by
  rw [ingest, hgraph]

/-- Without faults, a graph that can be stored takes the place of all rows of
the repository. -/
theorem ingest_store {fs : FileSystem} {root : Path} {repo owner : String} {config : Config}
    {g : CodeGraph} {s : Service} (hcalm : s.Calm)
    (hgraph : CodeGraph.ofRoot fs root config.walk = .ok g)
    (hdistinct : (g.nodes.map CodeNode.qualified).Nodup)
    (hcollision : ∀ a ∈ g.nodes, ∀ b ∈ g.nodes,
      nodeId owner a.qualified = nodeId owner b.qualified → a.qualified = b.qualified)
    (hlines : g.LinesFit) :
    ∃ t, (ingest fs root repo owner config).run.run s
        = (.ok ⟨g.nodes.length, g.edges.length⟩, t)
      ∧ t.store = ((s.store.deleteRepo repo).2.addNodes (nodeRows g repo owner)).addEdges
          (edgeRows g repo owner) := by
  obtain ⟨t, hdelete, hcalm', hstore⟩ := Session.run_deleteRepo_of_calm repo hcalm
  have hnodes : t.store.AcceptsNodes (nodeRows g repo owner) := by
    refine acceptsNodes_nodeRows ?_ hdistinct hcollision hlines
    rw [hstore, Store.nodesOf_deleteRepo]
  obtain ⟨u, hwrite, hstore'⟩ :=
    write_of_accepted g repo owner config.graph.batchSize config.graph.maxRetries hcalm' hnodes
      (acceptsEdges_edgeRows repo owner hlines)
  refine ⟨u, ?_, by rw [hstore', hstore]⟩
  rw [ingest_of_graph hgraph, Session.run_bind, hdelete]
  exact hwrite

/-- Ingesting replaces the rows of a repository wholesale: without faults it
succeeds on any store, every read of the repository answers as after ingesting
the same files into an empty store, and every read of another repository
answers as before. -/
theorem ingest_replaces {fs : FileSystem} {root : Path} {repo owner : String} {config : Config}
    {files : List SourceFile} {s : Service} (hcalm : s.Calm)
    (hfiles : Walk.sourceFiles fs root config.walk.maxFileSize = .ok files)
    (hdistinct : ((CodeGraph.build files).nodes.map CodeNode.qualified).Nodup)
    (hcollision : ∀ a ∈ (CodeGraph.build files).nodes, ∀ b ∈ (CodeGraph.build files).nodes,
      nodeId owner a.qualified = nodeId owner b.qualified → a.qualified = b.qualified)
    (hlines : (CodeGraph.build files).LinesFit) :
    ∃ summary t fresh,
      (ingest fs root repo owner config).run.run s = (.ok summary, t)
      ∧ (ingest fs root repo owner config).run.run {} = (.ok summary, fresh)
      ∧ summary
        = ⟨(CodeGraph.build files).nodes.length, (CodeGraph.build files).edges.length⟩
      ∧ t.store.counts repo = ⟨summary.nodeCount, summary.edgeCount⟩
      ∧ t.store.nodesOf repo = nodeRows (CodeGraph.build files) repo owner
      ∧ t.store.edgesOf repo = edgeRows (CodeGraph.build files) repo owner
      ∧ Store.SameAnswers repo t.store fresh.store
      ∧ ∀ other, other ≠ repo → Store.SameAnswers other t.store s.store := by
  have hgraph : CodeGraph.ofRoot fs root config.walk = .ok (CodeGraph.build files) := by
    rw [CodeGraph.ofRoot, hfiles]
    rfl
  have hempty : Service.Calm {} := ⟨by simp, by simp, by simp⟩
  have hrepo := repoId_of_mem_nodeRows (CodeGraph.build files) repo owner
  have hrepo' := repoId_of_mem_edgeRows (CodeGraph.build files) repo owner
  obtain ⟨t, hrun, hstore⟩ := ingest_store hcalm hgraph hdistinct hcollision hlines
  obtain ⟨fresh, hrun', hfresh⟩ := ingest_store hempty hgraph hdistinct hcollision hlines
  obtain ⟨hnodes, hedges⟩ := Store.rowsOf_add hrepo hrepo'
    ⟨Store.nodesOf_deleteRepo s.store repo, Store.edgesOf_deleteRepo s.store repo⟩
  obtain ⟨hnodes', hedges'⟩ := Store.rowsOf_add hrepo hrepo'
    ⟨Store.nodesOf_deleteRepo {} repo, Store.edgesOf_deleteRepo {} repo⟩
  rw [← hstore] at hnodes hedges
  rw [← hfresh] at hnodes' hedges'
  refine ⟨_, t, fresh, hrun, hrun', rfl, ?_, hnodes, hedges, ?_, fun other hother => ?_⟩
  · rw [Store.counts, hnodes, hedges, nodeRows, edgeRows, List.length_map, List.length_map]
  · exact Store.sameAnswers_of_rows (hnodes.trans hnodes'.symm) (hedges.trans hedges'.symm)
  · have hsame := Store.sameRows_replace s.store hrepo hrepo' hother
    rw [← hstore] at hsame
    exact Store.sameAnswers_of_rows hsame.nodes hsame.edgesOf

/-- A function that calls itself. -/
def sampleText : String := "def f():\n    f()\n"

def sampleTree : FileSystem where
  top := .directory [("a.py", .file sampleText.toUTF8)]

def sampleFiles : List SourceFile := [⟨⟨"a.py"⟩, ⟨"/a.py"⟩, .python, sampleText⟩]

/-- A service with an annotated node and an edge from an earlier ingest, and a
node of another repository. -/
def sampleService : Service where
  store :=
    { nodes :=
        [⟨"old", "r", "old", "c.py:old", "c.py", some 1, some 2, "function", "", some "text"⟩,
          ⟨"old", "q", "q.py", "q.py", "q.py", none, none, "file", "", none⟩]
      edges := [(1, ⟨"r", "old", "old", "call", "old", some 2, some 2, 1, 2⟩)]
      lastEdge := 1 }

theorem sourceFiles_sampleTree : Walk.sourceFiles sampleTree ⟨"/"⟩ 1048576 = .ok sampleFiles := by
  have hsome : (Walk.sourceFiles sampleTree ⟨"/"⟩ 1048576).toOption = some sampleFiles := by
    decide +kernel
  cases hfound : Walk.sourceFiles sampleTree ⟨"/"⟩ 1048576 with
  | error fault =>
      rw [hfound] at hsome
      cases hsome
  | ok files =>
      rw [hfound] at hsome
      cases hsome
      rfl

theorem ingest_replaces_sample :
    ∃ t fresh : Service,
      (ingest sampleTree ⟨"/"⟩ "r" "owner" { graph := { batchSize := 2 } }).run.run sampleService
        = (.ok ⟨2, 1⟩, t)
      ∧ t.store.counts "r" = ⟨2, 1⟩
      ∧ Store.SameAnswers "r" t.store fresh.store
      ∧ Store.SameAnswers "q" t.store sampleService.store := by
  have hsize : (CodeGraph.build sampleFiles).nodes.length = 2
      ∧ (CodeGraph.build sampleFiles).edges.length = 1 := by
    decide +kernel
  obtain ⟨summary, t, fresh, hrun, -, hsummary, hcounts, -, -, hsame, hother⟩ :=
    @ingest_replaces sampleTree ⟨"/"⟩ "r" "owner" { graph := { batchSize := 2 } } sampleFiles
      sampleService ⟨by decide, by decide, by decide⟩ sourceFiles_sampleTree
      (by decide +kernel) (by decide +kernel)
      ⟨by decide +kernel, by decide +kernel, by decide +kernel⟩
  rw [hsize.1, hsize.2] at hsummary
  subst hsummary
  exact ⟨t, fresh, hrun, hcounts, hsame, hother "q" (by decide)⟩

-- ================================================================= failure

/-- The graph of a directory cannot be built exactly when there is no such
directory. -/
theorem ofRoot_eq_error_iff {fs : FileSystem} {root : Path} {settings : WalkSettings}
    {fault : Fault} :
    CodeGraph.ofRoot fs root settings = .error fault ↔
      fs.isDirectory root = false ∧ fault = .fileNotFound root.text := by
  unfold CodeGraph.ofRoot Walk.sourceFiles FileSystem.isDirectory
  rcases fs.lookup root with e | ⟨location, entry⟩
  · simp [Except.map, Except.toOption, eq_comm]
  · cases entry <;> simp [Except.map, Except.toOption, Entry.isDirectory, eq_comm]

theorem isDirectory_of_ofRoot_eq_ok {fs : FileSystem} {root : Path} {settings : WalkSettings}
    {g : CodeGraph} (h : CodeGraph.ofRoot fs root settings = .ok g) :
    fs.isDirectory root = true := by
  cases hdir : fs.isDirectory root with
  | true => rfl
  | false =>
      rw [ofRoot_eq_error_iff.mpr ⟨hdir, rfl⟩] at h
      cases h

/-- Where a failed run ended: at the walk, at the removal, or at a batch of
the new graph. -/
theorem ingest_error_cases {fs : FileSystem} {root : Path} {repo owner : String}
    {config : Config} {s t : Service} {fault : Fault}
    (h : (ingest fs root repo owner config).run.run s = (.error fault, t)) :
    (CodeGraph.ofRoot fs root config.walk = .error fault ∧ t = s) ∨
    (∃ g, CodeGraph.ofRoot fs root config.walk = .ok g
      ∧ (Session.deleteRepo repo).run.run s = (.error fault, t)) ∨
    (∃ g removed u, CodeGraph.ofRoot fs root config.walk = .ok g
      ∧ (Session.deleteRepo repo).run.run s = (.ok removed, u)
      ∧ (write g repo owner config.graph.batchSize config.graph.maxRetries).run.run u
        = (.error fault, t)) := by
  cases hgraph : CodeGraph.ofRoot fs root config.walk with
  | error fault' =>
      rw [ingest, hgraph] at h
      cases h
      exact .inl ⟨rfl, rfl⟩
  | ok g =>
      rw [ingest_of_graph hgraph, Session.run_bind] at h
      rcases hdelete : (Session.deleteRepo repo).run.run s with ⟨fault' | removed, u⟩
      · rw [hdelete] at h
        cases h
        exact .inr (.inl ⟨g, rfl, rfl⟩)
      · rw [hdelete] at h
        exact .inr (.inr ⟨g, removed, u, rfl, rfl, h⟩)

/-- A failed run never mixes old and new rows. If there is no directory or the
removal fails, the store is as it was. If a batch fails, the rows of the
repository are those of the new graph before that batch, and nothing else. In
every case the rows of the other repositories are as they were. -/
theorem ingest_failure_keeps_no_mixture {fs : FileSystem} {root : Path} {repo owner : String}
    {config : Config} {s t : Service} {fault : Fault}
    (h : (ingest fs root repo owner config).run.run s = (.error fault, t)) :
    (∀ other, other ≠ repo → Store.SameRows other t.store s.store) ∧
    ((fs.isDirectory root = false ∧ fault = .fileNotFound root.text ∧ t.store = s.store) ∨
      (fs.isDirectory root = true ∧ (Session.deleteRepo repo).run.run s = (.error fault, t)
        ∧ t.store = s.store) ∨
      (∃ g removed u source stage index batch,
        CodeGraph.ofRoot fs root config.walk = .ok g
        ∧ (Session.deleteRepo repo).run.run s = (.ok removed, u)
        ∧ fault = .batch stage.name index source
        ∧ batchAt? g repo owner config.graph.batchSize stage index = some batch
        ∧ t.store.nodesOf repo = nodesBefore g repo owner config.graph.batchSize stage index
        ∧ t.store.edgesOf repo = edgesBefore g repo owner config.graph.batchSize stage index
        ∧ ∀ p ∈ t.store.numberedEdgesOf repo, s.store.lastEdge < p.1)) := by
  have hsame : t.store = s.store →
      ∀ other, other ≠ repo → Store.SameRows other t.store s.store := by
    intro hstore other _
    rw [hstore]
    exact .refl other s.store
  rcases ingest_error_cases h with ⟨hroot, rfl⟩ | ⟨g, hgraph, hdelete⟩ |
    ⟨g, removed, u, hgraph, hdelete, hwrite⟩
  · obtain ⟨hdir, hfault⟩ := ofRoot_eq_error_iff.mp hroot
    exact ⟨hsame rfl, .inl ⟨hdir, hfault, rfl⟩⟩
  · have hstore := Session.run_deleteRepo_error hdelete
    exact ⟨hsame hstore, .inr (.inl ⟨isDirectory_of_ofRoot_eq_ok hgraph, hdelete, hstore⟩)⟩
  · obtain ⟨source, stage, index, batch, hfault, hat, hstore⟩ := write_error _ _ _ _ _ _ hwrite
    rw [Session.run_deleteRepo_ok hdelete, storeBefore] at hstore
    have hnodes := repoId_of_mem_nodesBefore g repo owner config.graph.batchSize stage index
    have hedges := repoId_of_mem_edgesBefore g repo owner config.graph.batchSize stage index
    have hnone := Store.edgesOf_deleteRepo s.store repo
    obtain ⟨hnodesOf, hedgesOf⟩ := Store.rowsOf_add hnodes hedges
      ⟨Store.nodesOf_deleteRepo s.store repo, hnone⟩
    rw [hstore]
    refine ⟨fun other hother => Store.sameRows_replace s.store hnodes hedges hother,
      .inr (.inr ⟨g, removed, u, source, stage, index, batch, hgraph, hdelete, hfault, hat,
        hnodesOf, hedgesOf, ?_⟩)⟩
    exact Store.lastEdge_lt_of_mem (s := (s.store.deleteRepo repo).2.addNodes _) hnone

/-- The sample service, with a fault for the second batch of nodes. -/
def failingService : Service :=
  { sampleService with nodeSchedule := [none, some (.database "disk I/O error")] }

theorem ingest_failure_sample :
    ∃ t, (ingest sampleTree ⟨"/"⟩ "r" "owner" { graph := { batchSize := 1 } }).run.run
        failingService = (.error (.batch "nodes" 1 (.database "disk I/O error")), t)
      ∧ Store.SameRows "q" t.store failingService.store := by
  have hfault : (match ((ingest sampleTree ⟨"/"⟩ "r" "owner"
        { graph := { batchSize := 1 } }).run.run failingService).1 with
      | .ok _ => none
      | .error fault => some fault) = some (.batch "nodes" 1 (.database "disk I/O error")) := by
    decide +kernel
  rcases hrun : (ingest sampleTree ⟨"/"⟩ "r" "owner" { graph := { batchSize := 1 } }).run.run
    failingService with ⟨fault | summary, t⟩
  · rw [hrun] at hfault
    cases hfault
    exact ⟨t, rfl, (ingest_failure_keeps_no_mixture hrun).1 "q" (by decide)⟩
  · rw [hrun] at hfault
    cases hfault

end CodeMap
