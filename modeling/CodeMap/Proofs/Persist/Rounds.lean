/-
The insert calls that writing a graph makes, whatever the service answers.

# Rounds

A batch is offered in a `Round`: some calls that fail for the moment, each of
them followed by another call with the same batch, and then the call that
settles the batch. `Round.Obeys` is the rule of repetition: only a passing
fault is followed by another call, there are at most `retries + 1` calls, and
a passing fault ends the round only after that many.

# Plans

The batches of a graph, nodes first, form its `plan`. A run works through the
plan from the front, one round per batch, until the plan is `Finished` or a
round fails and the run is `Stopped` there; no batch has two rounds. The
induction is over the list of batches (`offerAll_cases`), inside it one over
the retries (`offer_round`), and `write_cases` joins the two stages.

Since a failed call writes nothing, the rounds also say which rows are in the
store afterwards: those of the rounds that succeeded, in plan order
(`Finished.store`, `write_error`).
-/
import CodeMap.Persist
import CodeMap.Proofs.Store.Calls

namespace CodeMap.Persist

-- ================================================================= cutting

/-- The batches are the rows in order: nothing is lost or repeated, no batch
is empty or holds more than `size` rows, zero counting as one, and only the
last may hold fewer. -/
structure Cut {α : Type} (size : Nat) (rows : List α) (batches : List (List α)) : Prop where
  flatten : batches.flatten = rows
  nonempty : ∀ batch ∈ batches, batch ≠ []
  bounded : ∀ batch ∈ batches, batch.length ≤ max size 1
  full : ∀ batch ∈ batches.dropLast, batch.length = max size 1

theorem flatten_pieces {α : Type} (n : Nat) (xs : List α) : (pieces n xs).flatten = xs := by
  fun_induction pieces n xs with
  | case1 => rfl
  | case2 x xs ih =>
      rw [List.flatten_cons, ih, List.cons_append, List.take_append_drop]

theorem length_of_mem_pieces {α : Type} (n : Nat) (xs : List α) :
    ∀ piece ∈ pieces n xs, 0 < piece.length ∧ piece.length ≤ n + 1 := by
  fun_induction pieces n xs with
  | case1 => simp
  | case2 x xs ih =>
      intro piece hpiece
      rcases List.mem_cons.mp hpiece with rfl | hpiece
      · simp only [List.length_cons, List.length_take]
        omega
      · exact ih piece hpiece

/-- A piece that is not the last one is full: something was left after it. -/
theorem length_of_mem_dropLast_pieces {α : Type} (n : Nat) (xs : List α) :
    ∀ piece ∈ (pieces n xs).dropLast, piece.length = n + 1 := by
  fun_induction pieces n xs with
  | case1 => simp
  | case2 x xs ih =>
      intro piece hpiece
      by_cases hrest : xs.drop n = []
      · rw [hrest, pieces] at hpiece
        simp at hpiece
      · have hlong : n < xs.length := by
          rw [List.drop_eq_nil_iff] at hrest
          omega
        have hpieces : pieces n (xs.drop n) ≠ [] := by
          intro hnil
          have hflat := flatten_pieces n (xs.drop n)
          rw [hnil, List.flatten_nil] at hflat
          exact hrest hflat.symm
        rw [List.dropLast_cons_of_ne_nil hpieces] at hpiece
        rcases List.mem_cons.mp hpiece with rfl | hpiece
        · simp only [List.length_cons, List.length_take]
          omega
        · exact ih piece hpiece

theorem cut_batches {α : Type} (size : Nat) (rows : List α) :
    Cut size rows (batches size rows) := by
  have hsize : size - 1 + 1 = max size 1 := by omega
  refine ⟨flatten_pieces _ rows, fun b hb => ?_, fun b hb => ?_, fun b hb => ?_⟩
  · exact List.ne_nil_of_length_pos (length_of_mem_pieces _ rows b hb).1
  · rw [← hsize]
    exact (length_of_mem_pieces _ rows b hb).2
  · rw [← hsize]
    exact length_of_mem_dropLast_pieces _ rows b hb

theorem mem_of_mem_batches {α : Type} {size : Nat} {rows batch : List α} {x : α}
    (hbatch : batch ∈ batches size rows) (hx : x ∈ batch) : x ∈ rows := by
  rw [← (cut_batches size rows).flatten]
  exact List.mem_flatten.mpr ⟨batch, hbatch, hx⟩

-- ================================================================== rounds

/-- The calls that offer one batch: those that failed and were made again,
given by their faults, and then the one that settled it. -/
structure Round where
  batch : Batch
  faults : List Fault
  answer : Except Fault Unit

namespace Round

def attempts (r : Round) : List Attempt :=
  r.faults.map (fun fault => ⟨r.batch, .error fault⟩) ++ [⟨r.batch, r.answer⟩]

/-- The rule of repetition. -/
structure Obeys (r : Round) (retries : Nat) : Prop where
  passing : ∀ fault ∈ r.faults, fault.isTransient = true
  bounded : r.attempts.length ≤ retries + 1
  exhausted : ∀ fault, r.answer = .error fault → fault.isTransient = true →
    r.attempts.length = retries + 1

@[simp] theorem length_attempts (r : Round) : r.attempts.length = r.faults.length + 1 := by
  simp [attempts]

theorem committed_of_ok {r : Round} (h : r.answer = .ok ()) : committed r.attempts = [r.batch] := by
  simp [committed, attempts, h, Except.isOk, Except.toBool]

theorem committed_of_error {r : Round} {fault : Fault} (h : r.answer = .error fault) :
    committed r.attempts = [] := by
  simp [committed, attempts, h, Except.isOk, Except.toBool]

end Round

/-- Offering a batch is a round that obeys the rule. -/
theorem offer_round (b : Batch) (retries : Nat) :
    ∀ s : Service, ∃ (r : Round) (t : Service), r.batch = b ∧ r.Obeys retries
      ∧ (offer b.insert retries).run.run s = (r.answer, t) ∧ Made s r.attempts t := by
  induction retries with
  | zero =>
      intro s
      rcases hcall : b.insert.run.run s with ⟨answer, t⟩
      exact ⟨⟨b, [], answer⟩, t, rfl, ⟨by simp, by simp, by simp⟩, hcall, .single hcall⟩
  | succ retries ih =>
      intro s
      rw [offer, Session.run_tryCatch]
      rcases hcall : b.insert.run.run s with ⟨answer, t⟩
      cases answer with
      | ok =>
          exact ⟨⟨b, [], .ok ()⟩, t, rfl, ⟨by simp, by simp, by simp⟩, rfl, .single hcall⟩
      | error fault =>
          dsimp only
          by_cases hpass : fault.isTransient = true
          · -- the rest is a round with one retry less; this fault goes in front
            obtain ⟨r, u, hbatch, hobeys, hrun, hmade⟩ := ih t
            subst hbatch
            rw [if_pos hpass, hrun]
            refine ⟨⟨r.batch, fault :: r.faults, r.answer⟩, u, rfl, ⟨?_, ?_, ?_⟩, rfl, ?_⟩
            · intro f hf
              rcases List.mem_cons.mp hf with rfl | hf
              · exact hpass
              · exact hobeys.passing f hf
            · have := hobeys.bounded
              simp only [Round.length_attempts, List.length_cons] at this ⊢
              omega
            · intro f hf hf'
              have := hobeys.exhausted f hf hf'
              simp only [Round.length_attempts, List.length_cons] at this ⊢
              omega
            · exact .cons hcall hmade
          · rw [if_neg hpass]
            refine ⟨⟨b, [], .error fault⟩, t, rfl, ⟨by simp, by simp, ?_⟩, rfl, .single hcall⟩
            intro f hf hf'
            cases hf
            exact absurd hf' hpass

-- =================================================================== plans

/-- The calls of some rounds, one round after the other. -/
def calls (rounds : List Round) : List Attempt := rounds.flatMap Round.attempts

/-- Every batch of a plan was taken, each in one round. -/
structure Finished (retries : Nat) (plan : List Batch) (rounds : List Round) : Prop where
  order : rounds.map Round.batch = plan
  obeys : ∀ r ∈ rounds, r.Obeys retries
  taken : ∀ r ∈ rounds, r.answer = .ok ()

/-- The batches of a plan were taken, each in one round, up to one that failed
for good. -/
structure Stopped (retries : Nat) (plan : List Batch) (done : List Round) (last : Round)
    (source : Fault) : Prop where
  order : (done ++ [last]).map Round.batch <+: plan
  obeys : ∀ r ∈ done ++ [last], r.Obeys retries
  taken : ∀ r ∈ done, r.answer = .ok ()
  failed : last.answer = .error source

theorem committed_calls {rounds : List Round} (h : ∀ r ∈ rounds, r.answer = .ok ()) :
    committed (calls rounds) = rounds.map Round.batch := by
  induction rounds with
  | nil => rfl
  | cons r rest ih =>
      have hr := Round.committed_of_ok (h r (by simp))
      have hrest := ih fun r' hr' => h r' (by simp [hr'])
      rw [calls, List.flatMap_cons, committed_append, hr, ← calls, hrest]
      rfl

/-- Every call of some rounds offers the batch of one of them. -/
theorem batch_of_mem_calls {rounds : List Round} {a : Attempt} (ha : a ∈ calls rounds) :
    a.batch ∈ rounds.map Round.batch := by
  obtain ⟨r, hr, ha⟩ := List.mem_flatMap.mp ha
  have hbatch : a.batch = r.batch := by
    rcases List.mem_append.mp ha with ha | ha
    · obtain ⟨fault, -, rfl⟩ := List.mem_map.mp ha
      rfl
    · rw [List.mem_singleton.mp ha]
  exact hbatch ▸ List.mem_map_of_mem hr

namespace Finished

theorem nil (retries : Nat) : Finished retries [] [] := ⟨rfl, by simp, by simp⟩

theorem append {retries : Nat} {plan plan' : List Batch} {rounds rounds' : List Round}
    (h : Finished retries plan rounds) (h' : Finished retries plan' rounds') :
    Finished retries (plan ++ plan') (rounds ++ rounds') := by
  refine ⟨by rw [List.map_append, h.order, h'.order], fun r hr => ?_, fun r hr => ?_⟩
  · exact (List.mem_append.mp hr).elim (h.obeys r) (h'.obeys r)
  · exact (List.mem_append.mp hr).elim (h.taken r) (h'.taken r)

theorem length_eq {retries : Nat} {plan : List Batch} {rounds : List Round}
    (h : Finished retries plan rounds) : rounds.length = plan.length := by
  rw [← h.order, List.length_map]

/-- All batches of the plan are in the store. -/
theorem committed {retries : Nat} {plan : List Batch} {rounds : List Round}
    (h : Finished retries plan rounds) : committed (calls rounds) = plan := by
  rw [committed_calls h.taken, h.order]

end Finished

namespace Stopped

variable {retries : Nat} {plan plan' : List Batch} {done : List Round} {last : Round}
  {source : Fault}

/-- A round that fails stops the run at the first batch of what is left. -/
theorem first {rest : List Batch} (hobeys : last.Obeys retries)
    (hfailed : last.answer = .error source) :
    Stopped retries (last.batch :: rest) [] last source :=
  ⟨⟨rest, rfl⟩, by simpa using hobeys, by simp, hfailed⟩

theorem after {rounds : List Round} (h : Finished retries plan rounds)
    (h' : Stopped retries plan' done last source) :
    Stopped retries (plan ++ plan') (rounds ++ done) last source := by
  refine ⟨?_, fun r hr => ?_, fun r hr => ?_, h'.failed⟩
  · rw [List.append_assoc, List.map_append, h.order]
    exact (List.prefix_append_right_inj plan).mpr h'.order
  · rw [List.append_assoc, List.mem_append] at hr
    exact hr.elim (h.obeys r) (h'.obeys r)
  · exact (List.mem_append.mp hr).elim (h.taken r) (h'.taken r)

theorem extend (h : Stopped retries plan done last source) (plan' : List Batch) :
    Stopped retries (plan ++ plan') done last source :=
  ⟨h.order.trans (List.prefix_append plan plan'), h.obeys, h.taken, h.failed⟩

theorem length_lt (h : Stopped retries plan done last source) : done.length < plan.length := by
  have := h.order.length_le
  simp only [List.length_map, List.length_append, List.length_singleton] at this
  omega

/-- The batch that failed is the next one of the plan. -/
theorem getElem? (h : Stopped retries plan done last source) :
    plan[done.length]? = some last.batch := by
  obtain ⟨rest, hrest⟩ := h.order
  rw [← hrest, List.map_append, List.append_assoc, List.getElem?_append_right (by simp)]
  simp

/-- The batches before the one that failed are in the store. -/
theorem committed (h : Stopped retries plan done last source) :
    committed (calls (done ++ [last])) = plan.take done.length := by
  have hlast : CodeMap.committed (calls [last]) = [] := by
    rw [calls, List.flatMap_singleton]
    exact Round.committed_of_error h.failed
  have hdone : plan.take done.length = done.map Round.batch := by
    obtain ⟨rest, hrest⟩ := h.order
    rw [← hrest, List.map_append, List.append_assoc]
    exact List.take_left' (List.length_map Round.batch)
  rw [calls, List.flatMap_append, ← calls, ← calls, committed_append, committed_calls h.taken,
    hlast, List.append_nil, hdone]

end Stopped

/-- A stage works through its batches in order, one round each, until all are
taken or a round fails; the fault then names that batch. -/
theorem offerAll_cases {α : Type} (stage : Stage) (wrap : List α → Batch)
    (insert : List α → Session Unit) (hinsert : ∀ batch, insert batch = (wrap batch).insert)
    (retries : Nat) :
    ∀ (batches : List (List α)) (index : Nat) (s : Service), ∃ t,
      (∃ rounds, Finished retries (batches.map wrap) rounds ∧ Made s (calls rounds) t
        ∧ (offerAll stage insert retries index batches).run.run s = (.ok (), t)) ∨
      (∃ done last source, Stopped retries (batches.map wrap) done last source
        ∧ Made s (calls (done ++ [last])) t
        ∧ (offerAll stage insert retries index batches).run.run s
          = (.error (.batch stage.name (index + done.length) source), t)) := by
  intro batches
  induction batches with
  | nil =>
      intro index s
      exact ⟨s, .inl ⟨[], .nil retries, .nil s, rfl⟩⟩
  | cons batch rest ih =>
      intro index s
      obtain ⟨r, t, hbatch, hobeys, hoffer, hmade⟩ := offer_round (wrap batch) retries s
      rw [offerAll, Session.run_bind, Session.run_tryCatch, hinsert, hoffer, List.map_cons,
        ← hbatch]
      cases hanswer : r.answer with
      | error source =>
          refine ⟨t, .inr ⟨[], r, source, .first hobeys hanswer, ?_, rfl⟩⟩
          simpa [calls] using hmade
      | ok =>
          have hone : Finished retries [r.batch] [r] :=
            ⟨rfl, by simpa using hobeys, by simpa using hanswer⟩
          obtain ⟨u, ⟨rounds, hfin, hmade', hrun⟩ | ⟨done, last, source, hstop, hmade', hrun⟩⟩ :=
            ih (index + 1) t
          · exact ⟨u, .inl ⟨r :: rounds, hone.append hfin, hmade.append hmade', hrun⟩⟩
          · refine ⟨u, .inr ⟨r :: done, last, source, .after hone hstop, hmade.append hmade', ?_⟩⟩
            have hindex : index + 1 + done.length = index + (r :: done).length := by
              simp only [List.length_cons]
              omega
            rw [← hindex]
            exact hrun

-- ======================================================== writing a graph

section Write

variable (g : CodeGraph) (repo owner : String) (size : Nat)

/-- The node rows of a graph. -/
def nodeRows : List NodeRow := g.nodes.map (nodeRow repo owner)

/-- The edge rows of a graph. -/
def edgeRows : List EdgeRow := g.edges.map (edgeRow g repo owner)

def nodeBatches : List (List NodeRow) := batches size (nodeRows g repo owner)

def edgeBatches : List (List EdgeRow) := batches size (edgeRows g repo owner)

/-- The batches of a graph in the order of writing. -/
def plan : List Batch :=
  (nodeBatches g repo owner size).map .nodes ++ (edgeBatches g repo owner size).map .edges

/-- A batch by its stage and its number there. -/
def batchAt? : Stage → Nat → Option Batch
  | .nodes, index => (nodeBatches g repo owner size)[index]?.map .nodes
  | .edges, index => (edgeBatches g repo owner size)[index]?.map .edges

/-- The node rows that come before a batch. -/
def nodesBefore : Stage → Nat → List NodeRow
  | .nodes, index => ((nodeBatches g repo owner size).take index).flatten
  | .edges, _ => nodeRows g repo owner

/-- The edge rows that come before a batch. -/
def edgesBefore : Stage → Nat → List EdgeRow
  | .nodes, _ => []
  | .edges, index => ((edgeBatches g repo owner size).take index).flatten

/-- A store with everything that comes before a batch. -/
def storeBefore (s : Store) (stage : Stage) (index : Nat) : Store :=
  (s.addNodes (nodesBefore g repo owner size stage index)).addEdges
    (edgesBefore g repo owner size stage index)

theorem addAll_plan (s : Store) :
    s.addAll (plan g repo owner size)
      = (s.addNodes (nodeRows g repo owner)).addEdges (edgeRows g repo owner) := by
  rw [plan, Store.addAll_append, Store.addAll_nodes, Store.addAll_edges, nodeBatches, edgeBatches,
    (cut_batches size _).flatten, (cut_batches size _).flatten]

/-- The front of a plan that ends among the nodes. -/
theorem addAll_take_nodes (s : Store) {index : Nat}
    (hindex : index ≤ (nodeBatches g repo owner size).length) :
    s.addAll ((plan g repo owner size).take index)
      = storeBefore g repo owner size s .nodes index := by
  rw [plan, List.take_append_of_le_length (by rwa [List.length_map]), ← List.map_take,
    Store.addAll_nodes]
  exact (Store.addEdges_nil _).symm

/-- The front of a plan that ends among the edges. -/
theorem addAll_take_edges (s : Store) (index : Nat) :
    s.addAll ((plan g repo owner size).take ((nodeBatches g repo owner size).length + index))
      = storeBefore g repo owner size s .edges index := by
  have hlen : (nodeBatches g repo owner size).length
      = ((nodeBatches g repo owner size).map Batch.nodes).length := by
    rw [List.length_map]
  rw [plan, hlen, List.take_length_add_append, Store.addAll_append, Store.addAll_nodes,
    ← List.map_take, Store.addAll_edges, nodeBatches, (cut_batches size _).flatten]
  rfl

variable (retries : Nat) (s : Service)

/-- Writing is the stage of nodes and then the stage of edges. -/
theorem write_eq :
    write g repo owner size retries = (do
      offerAll .nodes Session.insertNodes retries 0 (nodeBatches g repo owner size)
      offerAll .edges Session.insertEdges retries 0 (edgeBatches g repo owner size)
      return ⟨g.nodes.length, g.edges.length⟩) := by
  simp [write, nodeBatches, edgeBatches, nodeRows, edgeRows]

/-- A run finishes the plan, or stops at one of its batches. -/
theorem write_cases : ∃ t,
    (∃ rounds, Finished retries (plan g repo owner size) rounds ∧ Made s (calls rounds) t
      ∧ (write g repo owner size retries).run.run s
        = (.ok ⟨g.nodes.length, g.edges.length⟩, t)) ∨
    (∃ done last source stage index,
      Stopped retries (plan g repo owner size) done last source
      ∧ Made s (calls (done ++ [last])) t
      ∧ batchAt? g repo owner size stage index = some last.batch
      ∧ s.store.addAll ((plan g repo owner size).take done.length)
        = storeBefore g repo owner size s.store stage index
      ∧ (write g repo owner size retries).run.run s
        = (.error (.batch stage.name index source), t)) := by
  rw [write_eq, Session.run_bind]
  obtain ⟨t, ⟨rounds, hfin, hmade, hrun⟩ | ⟨done, last, source, hstop, hmade, hrun⟩⟩ :=
    offerAll_cases .nodes Batch.nodes Session.insertNodes (fun _ => rfl) retries
      (nodeBatches g repo owner size) 0 s
  · rw [hrun]
    dsimp only
    rw [Session.run_bind]
    obtain ⟨u, ⟨rounds', hfin', hmade', hrun'⟩ | ⟨done, last, source, hstop, hmade', hrun'⟩⟩ :=
      offerAll_cases .edges Batch.edges Session.insertEdges (fun _ => rfl) retries
        (edgeBatches g repo owner size) 0 t
    · rw [hrun']
      refine ⟨u, .inl ⟨rounds ++ rounds', hfin.append hfin', ?_, rfl⟩⟩
      rw [calls, List.flatMap_append]
      exact hmade.append hmade'
    · rw [hrun']
      have hat := hstop.getElem?
      rw [List.getElem?_map] at hat
      refine ⟨u, .inr ⟨rounds ++ done, last, source, .edges, done.length, .after hfin hstop,
        ?_, hat, ?_, by rw [Nat.zero_add]⟩⟩
      · rw [List.append_assoc, calls, List.flatMap_append]
        exact hmade.append hmade'
      · rw [List.length_append, hfin.length_eq, List.length_map]
        exact addAll_take_edges g repo owner size s.store done.length
  · rw [hrun]
    have hat := hstop.getElem?
    have hlt := hstop.length_lt
    rw [List.getElem?_map] at hat
    rw [List.length_map] at hlt
    exact ⟨t, .inr ⟨done, last, source, .nodes, done.length, hstop.extend _, hmade, hat,
      addAll_take_nodes g repo owner size s.store (Nat.le_of_lt hlt), by rw [Nat.zero_add]⟩⟩

-- ======================================================== what a run leaves

/-- A finished plan leaves all rows of the graph behind. -/
theorem Finished.store {rounds : List Round} {t : Service}
    (h : Finished retries (plan g repo owner size) rounds) (hmade : Made s (calls rounds) t) :
    t.store
      = (s.store.addNodes (nodeRows g repo owner)).addEdges (edgeRows g repo owner) := by
  rw [hmade.store, h.committed, addAll_plan]

/-- A run that stops leaves the rows before the failed batch behind, and its
fault says which batch that is. -/
theorem write_error {fault : Fault} {t : Service}
    (h : (write g repo owner size retries).run.run s = (.error fault, t)) :
    ∃ source stage index batch, fault = .batch stage.name index source
      ∧ batchAt? g repo owner size stage index = some batch
      ∧ t.store = storeBefore g repo owner size s.store stage index := by
  obtain ⟨u, ⟨rounds, -, -, hrun⟩ | ⟨done, last, source, stage, index, hstop, hmade, hat, hstore,
    hrun⟩⟩ := write_cases g repo owner size retries s
  · rw [h] at hrun
    cases hrun
  · rw [h] at hrun
    cases hrun
    refine ⟨source, stage, index, last.batch, rfl, hat, ?_⟩
    rw [hmade.store, hstop.committed, hstore]

/-- The account of a run: its rounds, and how its result and the store it
leaves follow from them. -/
structure Account (rounds : List Round) (result : Except Fault PersistSummary) (t : Service) :
    Prop where
  /-- The rounds hold every call, in order; the log shows no other. -/
  made : Made s (calls rounds) t
  log : t.log = ((calls rounds).map fun a => (a.batch.stage, a.batch.size)).reverse ++ s.log
  /-- The batches are offered in the order of the plan, each in one round. -/
  order : rounds.map Round.batch <+: plan g repo owner size
  obeys : ∀ r ∈ rounds, r.Obeys retries
  /-- Nothing is offered after a round that failed. -/
  onward : ∀ r ∈ rounds.dropLast, r.answer = .ok ()
  ok_iff : (∃ summary, result = .ok summary) ↔
    rounds.map Round.batch = plan g repo owner size ∧ ∀ r ∈ rounds, r.answer = .ok ()
  /-- After a success every row is there, once more than before. -/
  ok : ∀ summary, result = .ok summary →
    summary = ⟨g.nodes.length, g.edges.length⟩
      ∧ t.store = (s.store.addNodes (nodeRows g repo owner)).addEdges (edgeRows g repo owner)
  /-- A fault names the batch of the last round and holds its last answer; the
  rows before that batch are there, and no others are new. -/
  error : ∀ fault, result = .error fault → ∃ last source stage index,
    fault = .batch stage.name index source
      ∧ rounds.getLast? = some last
      ∧ last.answer = .error source
      ∧ batchAt? g repo owner size stage index = some last.batch
      ∧ t.store = storeBefore g repo owner size s.store stage index

/-- Whatever the service answers, writing a graph cuts its rows into batches,
offers them in order under the rule of repetition, and commits each batch once
or, after a round that failed, not at all. -/
theorem write_commits_each_batch_once :
    Cut size (nodeRows g repo owner) (nodeBatches g repo owner size)
      ∧ Cut size (edgeRows g repo owner) (edgeBatches g repo owner size)
      ∧ ∃ rounds, Account g repo owner size retries s rounds
          ((write g repo owner size retries).run.run s).1
          ((write g repo owner size retries).run.run s).2 := by
  refine ⟨cut_batches size _, cut_batches size _, ?_⟩
  obtain ⟨t, ⟨rounds, hfin, hmade, hrun⟩ | ⟨done, last, source, stage, index, hstop, hmade, hat,
    hstore, hrun⟩⟩ := write_cases g repo owner size retries s
  · rw [hrun]
    refine ⟨rounds, hmade, hmade.log, ?_, hfin.obeys, ?_, ?_, ?_, ?_⟩
    · exact ⟨[], by rw [List.append_nil, hfin.order]⟩
    · intro r hr
      exact hfin.taken r ((List.dropLast_sublist rounds).subset hr)
    · exact ⟨fun _ => ⟨hfin.order, hfin.taken⟩, fun _ => ⟨_, rfl⟩⟩
    · intro summary hsummary
      cases hsummary
      exact ⟨rfl, hfin.store g repo owner size retries s hmade⟩
    · intro fault hfault
      cases hfault
  · rw [hrun]
    refine ⟨done ++ [last], hmade, hmade.log, hstop.order, hstop.obeys, ?_, ?_, ?_, ?_⟩
    · rw [List.dropLast_concat]
      exact hstop.taken
    · constructor
      · rintro ⟨summary, hsummary⟩
        cases hsummary
      · rintro ⟨-, hall⟩
        have hok := hall last (by simp)
        rw [hstop.failed] at hok
        cases hok
    · intro summary hsummary
      cases hsummary
    · intro fault hfault
      cases hfault
      refine ⟨last, source, stage, index, rfl, List.getLast?_concat, hstop.failed, hat, ?_⟩
      rw [hmade.store, hstop.committed, hstore]

end Write

end CodeMap.Persist
