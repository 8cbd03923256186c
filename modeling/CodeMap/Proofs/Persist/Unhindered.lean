/-
Writing a graph to a service without faults.

Such a service takes a batch at the first call (`offer_of_accepted`), so a run
succeeds as soon as the store accepts the batches one after the other. Since
rows are accepted in batches exactly when they are accepted at once, how the
rows are cut does not enter: `write_of_accepted` asks only whether the store
accepts the rows of the graph.
-/
import CodeMap.Proofs.Persist.Rounds

namespace CodeMap.Persist

/-- Each batch is accepted by the store that the batches before it leave. -/
def AcceptedInTurn : List Batch → Store → Prop
  | [], _ => True
  | b :: rest, s => b.AcceptedBy s ∧ AcceptedInTurn rest (b.addTo s)

theorem acceptedInTurn_nodes {batches : List (List NodeRow)} {s : Store}
    (h : s.AcceptsNodes batches.flatten) : AcceptedInTurn (batches.map .nodes) s := by
  induction batches generalizing s with
  | nil => trivial
  | cons rows rest ih =>
      rw [List.flatten_cons, Store.acceptsNodes_append] at h
      exact ⟨h.1, ih h.2⟩

theorem acceptedInTurn_edges {batches : List (List EdgeRow)} {s : Store}
    (h : Store.AcceptsEdges batches.flatten) : AcceptedInTurn (batches.map .edges) s := by
  induction batches generalizing s with
  | nil => trivial
  | cons rows rest ih =>
      rw [List.flatten_cons, Store.acceptsEdges_append] at h
      exact ⟨h.1, ih h.2⟩

/-- An accepted batch is taken at the first call. -/
theorem offer_of_accepted {b : Batch} {s : Service} (hcalm : s.Calm)
    (haccept : b.AcceptedBy s.store) (retries : Nat) :
    ∃ t, (offer b.insert retries).run.run s = (.ok (), t) ∧ t.Calm
      ∧ t.store = b.addTo s.store := by
  obtain ⟨t, hrun, hcalm', hstore⟩ := Batch.run_insert_of_accepted hcalm haccept
  refine ⟨t, ?_, hcalm', hstore⟩
  cases retries with
  | zero => exact hrun
  | succ retries => rw [offer, Session.run_tryCatch, hrun]

/-- A stage whose batches are accepted in turn takes them all. -/
theorem offerAll_of_accepted {α : Type} (stage : Stage) (wrap : List α → Batch)
    (insert : List α → Session Unit) (hinsert : ∀ batch, insert batch = (wrap batch).insert)
    (retries : Nat) :
    ∀ (batches : List (List α)) (index : Nat) {s : Service}, s.Calm →
      AcceptedInTurn (batches.map wrap) s.store →
      ∃ t, (offerAll stage insert retries index batches).run.run s = (.ok (), t) ∧ t.Calm
        ∧ t.store = s.store.addAll (batches.map wrap) := by
  intro batches
  induction batches with
  | nil =>
      intro index s hcalm _
      exact ⟨s, rfl, hcalm, rfl⟩
  | cons batch rest ih =>
      intro index s hcalm haccept
      obtain ⟨hfirst, hrest⟩ := haccept
      obtain ⟨t, hrun, hcalm', hstore⟩ := offer_of_accepted hcalm hfirst retries
      rw [← hstore] at hrest
      obtain ⟨u, hrun', hcalm'', hstore'⟩ := ih (index + 1) hcalm' hrest
      refine ⟨u, ?_, hcalm'', ?_⟩
      · rw [offerAll, Session.run_bind, Session.run_tryCatch, hinsert, hrun]
        exact hrun'
      · rw [hstore', hstore]
        rfl

/-- A graph whose rows the store accepts is written completely. -/
theorem write_of_accepted (g : CodeGraph) (repo owner : String) (size retries : Nat)
    {s : Service} (hcalm : s.Calm) (hnodes : s.store.AcceptsNodes (nodeRows g repo owner))
    (hedges : Store.AcceptsEdges (edgeRows g repo owner)) :
    ∃ t, (write g repo owner size retries).run.run s
        = (.ok ⟨g.nodes.length, g.edges.length⟩, t)
      ∧ t.store
        = (s.store.addNodes (nodeRows g repo owner)).addEdges (edgeRows g repo owner) := by
  rw [← (cut_batches size (nodeRows g repo owner)).flatten] at hnodes
  rw [← (cut_batches size (edgeRows g repo owner)).flatten] at hedges
  obtain ⟨t, hrun, hcalm', hstore⟩ :=
    offerAll_of_accepted .nodes Batch.nodes Session.insertNodes (fun _ => rfl) retries
      (nodeBatches g repo owner size) 0 hcalm (acceptedInTurn_nodes hnodes)
  obtain ⟨u, hrun', -, hstore'⟩ :=
    offerAll_of_accepted .edges Batch.edges Session.insertEdges (fun _ => rfl) retries
      (edgeBatches g repo owner size) 0 hcalm' (acceptedInTurn_edges hedges)
  refine ⟨u, ?_, ?_⟩
  · rw [write_eq, Session.run_bind, hrun]
    dsimp only
    rw [Session.run_bind, hrun']
    rfl
  · rw [hstore', hstore, ← Store.addAll_append]
    exact addAll_plan g repo owner size s.store

end CodeMap.Persist
