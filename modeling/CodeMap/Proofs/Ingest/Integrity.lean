/-
Stored edges hang together with stored nodes, whatever failed on the way.

# Properties that last

What can be said about an edge and the store it is in may be spoiled by a later
change. `Lasting` properties are not: they only ask for nodes of the edge's own
repository, apart from docstrings. Nodes that are added, removals of another
repository and docstrings leave these where they are (`Retains`). A store
upholds such a property if all its edges have it and no two nodes share a key.

# Nodes before edges

A batch of nodes is no danger by being accepted. The edges of a batch have to
bring the property with them, and that is where the order of the stages counts:
the stage of edges starts only after every node of the graph was taken, so it
is enough that the nodes of a graph establish the property for the edges of the
graph (`Establishes`). A run that stops early has written nodes alone or edges
whose nodes are all there.

# Runs

`Operation.upholds` is the step and `run_upholds` the induction over any list of
operations. Faults may strike anywhere, so the state between two calls of an
operation is covered as well: it is the state in which the operation ends when
the second of the calls fails.

# The invariant

`Store.Intact` is upheld with the property of being `Anchored`: both ends of the
edge are stored under its repository, its target is a definition, and it carries
the lines of its target. Both ids of an edge are computed from qualified names
of the same graph, which is why the nodes of a graph establish it
(`establishes_anchored`).
-/
import CodeMap.Proofs.CodeGraph.Positions
import CodeMap.Proofs.Ingest.Replacement
import CodeMap.Proofs.Store.Fidelity
import Mathlib.Data.List.Nodup

namespace CodeMap

open Persist

-- ========================================================= lasting properties

/-- The row without its docstring. -/
def NodeRow.bare (n : NodeRow) : NodeRow := { n with docstring := none }

namespace Store

variable {s t : Store} {repo : String}

/-- Every node of a repository is found in another store, perhaps with another
docstring. -/
def Retains (repo : String) (s t : Store) : Prop :=
  ∀ n ∈ s.nodes, n.repoId = repo → ∃ m ∈ t.nodes, m.bare = n.bare

theorem retains_of_subset (h : s.nodes ⊆ t.nodes) : Retains repo s t :=
  fun n hn _ => ⟨n, h hn, rfl⟩

theorem retains_deleteRepo {other : String} (h : repo ≠ other) :
    Retains repo s (s.deleteRepo other).2 := by
  intro n hn hrepo
  refine ⟨n, List.mem_filter.mpr ⟨hn, ?_⟩, rfl⟩
  rw [hrepo]
  exact bne_iff_ne.mpr h

theorem retains_setDocstring (other id text : String) :
    Retains repo s (s.setDocstring other id text).2 := by
  intro n hn _
  refine ⟨_, List.mem_map_of_mem hn, ?_⟩
  split <;> rfl

/-- The property asks for nodes of the edge's repository only. -/
def Lasting (P : Store → EdgeRow → Prop) : Prop :=
  ∀ s t e, P s e → Retains e.repoId s t → P t e

/-- No two nodes share a key, and every edge has the property. -/
structure Upholds (P : Store → EdgeRow → Prop) (s : Store) : Prop where
  keys : (s.nodes.map NodeRow.key).Nodup
  edges : ∀ p ∈ s.edges, P s p.2

section Upholds

variable {P : Store → EdgeRow → Prop} (hP : Lasting P)

include hP

theorem Upholds.deleteRepo (h : s.Upholds P) (repo : String) :
    (s.deleteRepo repo).2.Upholds P := by
  refine ⟨Keyed.deleteRepo h.keys repo, fun p hp => ?_⟩
  obtain ⟨hmem, hrepo⟩ := List.mem_filter.mp hp
  exact hP _ _ _ (h.edges p hmem) (retains_deleteRepo (bne_iff_ne.mp hrepo))

theorem Upholds.setDocstring (h : s.Upholds P) (repo id text : String) :
    (s.setDocstring repo id text).2.Upholds P := by
  refine ⟨Keyed.setDocstring h.keys repo id text, fun p hp => ?_⟩
  exact hP _ _ _ (h.edges p hp) (retains_setDocstring repo id text)

end Upholds

end Store

open Store (Lasting Upholds)

-- ============================================================= insert calls

theorem Batch.nodes_subset_addTo (b : Batch) (s : Store) : s.nodes ⊆ (b.addTo s).nodes := by
  cases b with
  | nodes rows => exact List.subset_append_left s.nodes rows
  | edges rows => exact List.Subset.refl s.nodes

/-- The edges of a batch have a property in a store. -/
def Batch.Brings (P : Store → EdgeRow → Prop) (s : Store) : Batch → Prop
  | nodes _ => True
  | edges rows => ∀ e ∈ rows, P s e

section Batches

variable {P : Store → EdgeRow → Prop} (hP : Lasting P)

include hP

theorem Batch.Brings.addTo {b : Batch} {s : Store} (h : b.Brings P s) (b' : Batch) :
    b.Brings P (b'.addTo s) := by
  cases b with
  | nodes rows => trivial
  | edges rows =>
      exact fun e he => hP _ _ _ (h e he) (Store.retains_of_subset (b'.nodes_subset_addTo s))

/-- A batch may be taken if its edges bring the property with them. -/
theorem Store.Upholds.addTo {s : Store} (h : s.Upholds P) {b : Batch} (haccept : b.AcceptedBy s)
    (hbrings : b.Brings P s) : (b.addTo s).Upholds P := by
  have hold : ∀ p ∈ s.edges, P (b.addTo s) p.2 := fun p hp =>
    hP _ _ _ (h.edges p hp) (Store.retains_of_subset (b.nodes_subset_addTo s))
  cases b with
  | nodes rows => exact ⟨Store.Keyed.addNodes h.keys haccept, hold⟩
  | edges rows =>
      have hnew := hbrings.addTo hP (.edges rows)
      refine ⟨h.keys, fun p hp => ?_⟩
      rcases List.mem_append.mp hp with hp | hp
      · exact hold p hp
      · apply hnew p.2
        rw [← Store.map_snd_numberFrom s.lastEdge rows]
        exact List.mem_map_of_mem hp

/-- Any calls, with any answers, if their edges have the property at the
start. -/
theorem Made.upholds {s t : Service} {attempts : List Attempt} (h : Made s attempts t)
    (hstart : s.store.Upholds P) (hbrings : ∀ a ∈ attempts, a.batch.Brings P s.store) :
    t.store.Upholds P := by
  induction h with
  | nil => exact hstart
  | @cons s t u a rest hcall _ ih =>
      obtain ⟨batch, answer⟩ := a
      have hfirst : batch.Brings P s.store := hbrings ⟨batch, answer⟩ (by simp)
      have hrest : ∀ a ∈ rest, a.batch.Brings P s.store := fun a ha =>
        hbrings a (by simp [ha])
      cases answer with
      | error fault =>
          have hstore := Batch.run_insert_error hcall
          rw [← hstore] at hstart hrest
          exact ih hstart hrest
      | ok =>
          obtain ⟨haccept, hstore⟩ := Batch.run_insert_ok hcall
          refine ih ?_ fun a ha => ?_
          · rw [hstore]
            exact hstart.addTo hP haccept hfirst
          · rw [hstore]
            exact (hrest a ha).addTo hP batch

-- ================================================================== writing

namespace Persist

/-- Where a stage ends, the property is upheld. -/
theorem offerAll_upholds {α : Type} (stage : Stage) (wrap : List α → Batch)
    (insert : List α → Session Unit) (hinsert : ∀ batch, insert batch = (wrap batch).insert)
    (retries : Nat) (batches : List (List α)) (index : Nat) {s : Service}
    (hstart : s.store.Upholds P) (hbrings : ∀ batch ∈ batches, (wrap batch).Brings P s.store) :
    ((offerAll stage insert retries index batches).run.run s).2.store.Upholds P := by
  have hplan : ∀ b ∈ batches.map wrap, b.Brings P s.store := by
    intro b hb
    obtain ⟨batch, hbatch, rfl⟩ := List.mem_map.mp hb
    exact hbrings batch hbatch
  obtain ⟨t, ⟨rounds, hfin, hmade, hrun⟩ | ⟨done, last, source, hstop, hmade, hrun⟩⟩ :=
    offerAll_cases stage wrap insert hinsert retries batches index s
  · rw [hrun]
    refine hmade.upholds hP hstart fun a ha => hplan _ ?_
    rw [← hfin.order]
    exact batch_of_mem_calls ha
  · rw [hrun]
    refine hmade.upholds hP hstart fun a ha => hplan _ ?_
    exact hstop.order.subset (batch_of_mem_calls ha)

/-- Once all nodes of a graph are stored, all its edges have the property. -/
def Establishes (g : CodeGraph) (P : Store → EdgeRow → Prop) : Prop :=
  ∀ repo owner s, nodeRows g repo owner ⊆ s.nodes → ∀ e ∈ edgeRows g repo owner, P s e

/-- Writing a graph that establishes the property, wherever the run ends. -/
theorem write_upholds {g : CodeGraph} (hg : Establishes g P) (repo owner : String)
    (size retries : Nat) {s : Service} (hstart : s.store.Upholds P) :
    ((write g repo owner size retries).run.run s).2.store.Upholds P := by
  have hfirst := offerAll_upholds hP .nodes Batch.nodes Session.insertNodes (fun _ => rfl) retries
    (nodeBatches g repo owner size) 0 hstart (fun _ _ => trivial)
  rw [write_eq, Session.run_bind]
  obtain ⟨t, ⟨rounds, hfin, hmade, hrun⟩ | ⟨done, last, source, -, -, hrun⟩⟩ :=
    offerAll_cases .nodes Batch.nodes Session.insertNodes (fun _ => rfl) retries
      (nodeBatches g repo owner size) 0 s
  · rw [hrun] at hfirst ⊢
    have hstore : t.store = s.store.addNodes (nodeRows g repo owner) := by
      rw [hmade.store, hfin.committed, Store.addAll_nodes, nodeBatches,
        (cut_batches size _).flatten]
    have hthere : nodeRows g repo owner ⊆ t.store.nodes := by
      rw [hstore]
      exact List.subset_append_right _ _
    have hsecond := offerAll_upholds hP .edges Batch.edges Session.insertEdges (fun _ => rfl)
      retries (edgeBatches g repo owner size) 0 hfirst fun batch hbatch e he =>
        hg repo owner t.store hthere e (mem_of_mem_batches hbatch he)
    dsimp only
    rw [Session.run_bind]
    rcases hedges : (offerAll .edges Session.insertEdges retries 0
      (edgeBatches g repo owner size)).run.run t with ⟨fault | _, u⟩
    · rw [hedges] at hsecond
      exact hsecond
    · rw [hedges] at hsecond
      exact hsecond
  · rw [hrun] at hfirst ⊢
    exact hfirst

end Persist

theorem deleteRepo_upholds (repo : String) {s : Service} (hstart : s.store.Upholds P) :
    ((Session.deleteRepo repo).run.run s).2.store.Upholds P := by
  rcases hrun : (Session.deleteRepo repo).run.run s with ⟨fault | removed, t⟩
  · rw [Session.run_deleteRepo_error hrun]
    exact hstart
  · rw [Session.run_deleteRepo_ok hrun]
    exact hstart.deleteRepo hP repo

theorem ingest_upholds (fs : FileSystem) (root : Path) (repo owner : String) (config : Config)
    (hfiles : ∀ files, Walk.sourceFiles fs root config.walk.maxFileSize = .ok files →
      Establishes (CodeGraph.build files) P)
    {s : Service} (hstart : s.store.Upholds P) :
    ((ingest fs root repo owner config).run.run s).2.store.Upholds P := by
  rw [ingest, CodeGraph.ofRoot]
  cases hwalk : Walk.sourceFiles fs root config.walk.maxFileSize with
  | error fault => exact hstart
  | ok files =>
      have hdeleted := deleteRepo_upholds hP repo hstart
      dsimp only [Except.map]
      rw [Session.run_bind]
      rcases hrun : (Session.deleteRepo repo).run.run s with ⟨fault | removed, t⟩
      · rw [hrun] at hdeleted
        exact hdeleted
      · rw [hrun] at hdeleted
        exact write_upholds hP (hfiles files hwalk) repo owner _ _ hdeleted

end Batches

-- ===================================================================== runs

/-- What can be done to a stored graph. -/
inductive Operation where
  /-- Writes the graph of some files, without removing anything. -/
  | write (files : List SourceFile) (repo owner : String) (batchSize maxRetries : Nat)
  | ingest (fs : FileSystem) (root : Path) (repo owner : String) (config : Config)
  | deleteRepo (repo : String)
  | setDocstring (repo id text : String)
  | annotate (repo id text : String)
  /-- Lays down what happens to the coming calls of a stage. -/
  | schedule (outcomes : List Outcome) (stage : Stage)

namespace Operation

/-- The service after an operation, which may have failed. -/
def run (s : Service) : Operation → Service
  | write files repo owner batchSize maxRetries =>
    ((Persist.write (CodeGraph.build files) repo owner batchSize maxRetries).run.run s).2
  | ingest fs root repo owner config => ((CodeMap.ingest fs root repo owner config).run.run s).2
  | deleteRepo repo => ((Session.deleteRepo repo).run.run s).2
  | setDocstring repo id text => { s with store := (s.store.setDocstring repo id text).2 }
  | annotate repo id text =>
    match s.store.annotate repo id text with
    | .ok store => { s with store }
    | .error _ => s
  | schedule outcomes stage => s.withSchedule outcomes stage

/-- The files whose graph an operation sets out to write. -/
def Writes : Operation → List SourceFile → Prop
  | write files _ _ _ _, written => files = written
  | ingest fs root _ _ config, written =>
    Walk.sourceFiles fs root config.walk.maxFileSize = .ok written
  | _, _ => False

section Runs

variable {P : Store → EdgeRow → Prop} (hP : Lasting P)

include hP

/-- One operation, whether it succeeds or fails. -/
theorem upholds (o : Operation)
    (ho : ∀ files, o.Writes files → Establishes (CodeGraph.build files) P)
    {s : Service} (h : s.store.Upholds P) : (o.run s).store.Upholds P := by
  cases o with
  | write files repo owner batchSize maxRetries =>
      exact write_upholds hP (ho files rfl) repo owner batchSize maxRetries h
  | ingest fs root repo owner config => exact ingest_upholds hP fs root repo owner config ho h
  | deleteRepo repo => exact deleteRepo_upholds hP repo h
  | setDocstring repo id text => exact h.setDocstring hP repo id text
  | annotate repo id text =>
      have hset := h.setDocstring hP repo id text
      rw [run, Store.annotate]
      rcases hfound : s.store.setDocstring repo id text with ⟨_ | _, store⟩
      · exact h
      · rw [hfound] at hset
        exact hset
  | schedule outcomes stage => cases stage <;> exact h

/-- Any operations one after the other. -/
theorem run_upholds (operations : List Operation) :
    (∀ o ∈ operations, ∀ files, o.Writes files → Establishes (CodeGraph.build files) P) →
    ∀ {s : Service}, s.store.Upholds P → (operations.foldl run s).store.Upholds P := by
  induction operations with
  | nil =>
      intro _ s h
      exact h
  | cons o rest ih =>
      intro hwritten s h
      exact ih (fun o' ho' => hwritten o' (by simp [ho'])) (upholds hP o (hwritten o (by simp)) h)

end Runs

/-- The store that operations reach from an empty one, under the faults on the
schedules of a service. -/
def reached (start : Service) (operations : List Operation) : Store :=
  (operations.foldl run { start with store := {} }).store

end Operation

-- ============================================================ anchored edges

namespace Store

/-- Both ends of an edge are stored under its repository; the target is no
file, and its lines are those that the edge carries. -/
structure Anchored (s : Store) (e : EdgeRow) : Prop where
  source : (e.repoId, e.sourceId) ∈ s.nodes.map NodeRow.key
  target : ∃ n ∈ s.nodes, n.key = (e.repoId, e.targetId) ∧ n.isFile = false
    ∧ n.startLine = some e.defStartLine ∧ n.endLine = some e.defEndLine

/-- What no operation breaks. -/
structure Intact (s : Store) : Prop where
  keys : (s.nodes.map NodeRow.key).Nodup
  edges : ∀ p ∈ s.edges, s.Anchored p.2

/-- Keys are unique, so looking a stored node up finds it. -/
theorem Intact.node?_eq_some {s : Store} (h : s.Intact) {n : NodeRow} (hn : n ∈ s.nodes)
    {repo id : String} (hkey : n.key = (repo, id)) : s.node? repo id = some n :=
  (Keyed.node?_eq_some_iff h.keys).mpr ⟨hn, hkey⟩

theorem intact_iff_upholds {s : Store} : s.Intact ↔ s.Upholds Anchored :=
  ⟨fun h => ⟨h.keys, h.edges⟩, fun h => ⟨h.keys, h.edges⟩⟩

/-- A docstring is no part of it. -/
theorem lasting_anchored : Lasting Anchored := by
  intro s t e h hretains
  have hstays : ∀ n ∈ s.nodes, ∀ id, n.key = (e.repoId, id) → ∃ m ∈ t.nodes, m.bare = n.bare :=
    fun n hn id hkey => hretains n hn (congrArg Prod.fst hkey)
  obtain ⟨source, hsource, hsourceKey⟩ := List.mem_map.mp h.source
  obtain ⟨target, htarget, hkey, hfile, hfirst, hlast⟩ := h.target
  obtain ⟨m, hm, hbare⟩ := hstays source hsource _ hsourceKey
  obtain ⟨n, hn, hbare'⟩ := hstays target htarget _ hkey
  refine ⟨List.mem_map.mpr ⟨m, hm, ?_⟩, n, hn, ?_, ?_, ?_, ?_⟩
  · exact (congrArg NodeRow.key hbare).trans hsourceKey
  · exact (congrArg NodeRow.key hbare').trans hkey
  · exact (congrArg NodeRow.isFile hbare').trans hfile
  · exact (congrArg NodeRow.startLine hbare').trans hfirst
  · exact (congrArg NodeRow.endLine hbare').trans hlast

end Store

namespace Persist

/-- The row of a node that is no file is no row of a file. -/
theorem isFile_nodeRow (repo owner : String) {n : CodeNode} (h : n.kind ≠ .file) :
    (nodeRow repo owner n).isFile = false := by
  show (n.kind.name == "file") = false
  cases hkind : n.kind with
  | file => exact absurd hkind h
  | function => decide
  | classLike => decide

/-- The nodes of a graph are stored with the ids that its edges refer to. -/
theorem mem_and_key_of_stored {g : CodeGraph} {repo owner : String} {s : Store}
    (hnodes : nodeRows g repo owner ⊆ s.nodes) {i : Nat} {n : CodeNode}
    (hn : g.nodes[i]? = some n) :
    nodeRow repo owner n ∈ s.nodes
      ∧ (nodeRow repo owner n).key = (repo, nodeId owner (qualifiedAt g i)) := by
  refine ⟨hnodes (List.mem_map_of_mem (List.mem_of_getElem? hn)), ?_⟩
  rw [qualifiedAt, hn]
  rfl

theorem establishes_anchored {g : CodeGraph} (hg : g.EdgesSound) :
    Establishes g Store.Anchored := by
  intro repo owner s hnodes e he
  obtain ⟨edge, hedge, rfl⟩ := List.mem_map.mp he
  obtain ⟨⟨source, hsource⟩, target, htarget, hkind, hspan⟩ := hg edge hedge
  obtain ⟨hmem, hkey⟩ := mem_and_key_of_stored hnodes hsource
  obtain ⟨hmem', hkey'⟩ := mem_and_key_of_stored hnodes htarget
  refine ⟨List.mem_map.mpr ⟨_, hmem, hkey⟩, _, hmem', hkey', isFile_nodeRow repo owner hkind,
    ?_, ?_⟩
  · rw [nodeRow, hspan]
    rfl
  · rw [nodeRow, hspan]
    rfl

end Persist

namespace Operation

/-- Any operations one after the other keep the store intact. -/
theorem run_intact (operations : List Operation) {s : Service} (h : s.store.Intact) :
    (operations.foldl run s).store.Intact := by
  refine Store.intact_iff_upholds.mpr ?_
  refine run_upholds Store.lasting_anchored operations (fun o _ files _ => ?_)
    (Store.intact_iff_upholds.mp h)
  exact establishes_anchored (CodeGraph.edgesSound_build files)

/-- No edge dangles or disagrees with its target after any operations, in any
order and under any faults: both its ends are found under its repository, and
the target is a definition on the lines that the edge carries. Keys are
unique, so each end is the only node with its id. -/
theorem reached_edges_never_dangle (start : Service) (operations : List Operation) :
    ((reached start operations).nodes.map NodeRow.key).Nodup ∧
    ∀ repo, ∀ e ∈ (reached start operations).edgesOf repo, ∃ source target,
      (reached start operations).node? repo e.sourceId = some source
      ∧ (reached start operations).node? repo e.targetId = some target
      ∧ target.isFile = false
      ∧ target.startLine = some e.defStartLine
      ∧ target.endLine = some e.defEndLine := by
  have hempty : Store.Intact {} := ⟨by simp, by simp⟩
  have hintact : (reached start operations).Intact := run_intact operations hempty
  refine ⟨hintact.keys, fun repo e he => ?_⟩
  obtain ⟨hmem, hrepo⟩ := List.mem_filter.mp he
  obtain ⟨p, hp, rfl⟩ := List.mem_map.mp hmem
  obtain ⟨hsource, target, htarget, hkey, hrest⟩ := hintact.edges p hp
  obtain ⟨source, hmem', hkey'⟩ := List.mem_map.mp hsource
  rw [beq_iff_eq.mp hrepo] at hkey hkey'
  exact ⟨source, target, hintact.node?_eq_some hmem' hkey', hintact.node?_eq_some htarget hkey,
    hrest⟩

/-- A write that stops after its first node, and an ingest in its place. -/
def sampleRun : List Operation :=
  [.schedule [none, some (.database "disk I/O error")] .nodes,
    .write sampleFiles "r" "owner" 1 0,
    .ingest sampleTree ⟨"/"⟩ "r" "owner" {}]

theorem reached_edges_sample :
    ∃ e ∈ (reached {} sampleRun).edgesOf "r", ∃ source target,
      (reached {} sampleRun).node? "r" e.sourceId = some source
      ∧ (reached {} sampleRun).node? "r" e.targetId = some target
      ∧ target.startLine = some e.defStartLine := by
  have hsome : ((reached {} sampleRun).edgesOf "r").length = 1 := by
    decide +kernel
  obtain ⟨e, he⟩ := List.length_eq_one_iff.mp hsome
  have hmem : e ∈ (reached {} sampleRun).edgesOf "r" := by
    rw [he]
    exact List.mem_singleton_self e
  obtain ⟨source, target, hsource, htarget, -, hline, -⟩ :=
    (reached_edges_never_dangle {} sampleRun).2 "r" e hmem
  exact ⟨e, hmem, source, target, hsource, htarget, hline⟩

end Operation

end CodeMap
