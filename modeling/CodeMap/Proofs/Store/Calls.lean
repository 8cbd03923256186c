/-
Calls to a service, and what they leave behind.

A session is followed one step at a time (`run_bind`, `run_tryCatch`), and an
insert call is the only step that reaches the rows. A `Batch` is what such a
call offers and an `Attempt` is a call together with the answer it got;
`Made s attempts t` says that exactly these calls, in this order and with
these answers, lead from service `s` to service `t`.

# A failed call writes nothing

A call either succeeds, and then the store accepted the batch and has it at
its end, or fails, and then the store is what it was (`run_insert_ok`,
`run_insert_error`). Hence `Made.store`: the store after some calls is the
store before them with the batches of those calls that succeeded, whatever
failed in between.

# Services without faults

A `Calm` service has no fault on its schedules. It stays calm, and takes every
batch that its store accepts (`run_insert_of_accepted`).
-/
import CodeMap.Store.Service
import CodeMap.Proofs.Store.Rows

namespace CodeMap

-- ================================================================ sessions

namespace Session

variable {α β : Type}

@[simp] theorem run_get (s : Service) : (get : Session Service).run.run s = (.ok s, s) := rfl

@[simp] theorem run_set (s t : Service) : (set t : Session Unit).run.run s = (.ok (), t) := rfl

/-- What follows a step sees the service the step left; a fault skips it. -/
theorem run_bind (x : Session α) (f : α → Session β) (s : Service) :
    (x >>= f).run.run s
      = match x.run.run s with
        | (.ok a, t) => (f a).run.run t
        | (.error fault, t) => (.error fault, t) := by
  rw [ExceptT.run_bind, StateT.run_bind]
  rcases x.run.run s with ⟨r, t⟩
  cases r <;> rfl

/-- A handler starts from the service that the fault left. -/
theorem run_tryCatch (x : Session α) (f : Fault → Session α) (s : Service) :
    (tryCatch x f).run.run s
      = match x.run.run s with
        | (.ok a, t) => (.ok a, t)
        | (.error fault, t) => (f fault).run.run t := by
  rw [ExceptT.run_tryCatch, StateT.run_bind]
  rcases x.run.run s with ⟨r, t⟩
  cases r <;> rfl

end Session

-- ============================================================== insert calls

namespace Service

/-- The service once an insert call is on its log and the call's outcome is
off the schedule. -/
def noting (s : Service) (stage : Stage) (size : Nat) : Service :=
  ({ s with log := (stage, size) :: s.log } : Service).withSchedule (s.schedule stage).tail stage

/-- What an insert call is answered: the fault on the schedule, or else what
the store says. -/
def answer (s : Service) (stage : Stage) (insert : Store → Except Fault Store) :
    Except Fault Store :=
  match (s.schedule stage).head? with
  | some (some fault) => .error fault
  | _ => insert s.store

@[simp] theorem store_noting (s : Service) (stage : Stage) (size : Nat) :
    (s.noting stage size).store = s.store := by
  cases stage <;> rfl

end Service

namespace Session

/-- A call is noted whatever its answer; only a success changes the store. -/
theorem run_call (stage : Stage) (size : Nat) (insert : Store → Except Fault Store)
    (s : Service) :
    (call stage size insert).run.run s
      = match s.answer stage insert with
        | .ok store => (.ok (), { s.noting stage size with store })
        | .error fault => (.error fault, s.noting stage size) := by
  unfold call Service.answer
  rw [run_bind, run_get]
  dsimp only
  rcases (s.schedule stage).head? with _ | _ | fault
  · dsimp only
    rw [run_bind, run_set]
    cases insert s.store <;> rfl
  · dsimp only
    rw [run_bind, run_set]
    cases insert s.store <;> rfl
  · rfl

end Session

/-- What one insert call offers. -/
inductive Batch where
  | nodes (rows : List NodeRow)
  | edges (rows : List EdgeRow)

namespace Batch

def stage : Batch → Stage
  | nodes _ => .nodes
  | edges _ => .edges

def size : Batch → Nat
  | nodes rows => rows.length
  | edges rows => rows.length

/-- What the store says to a batch. -/
def insertInto : Batch → Store → Except Fault Store
  | nodes rows, s => s.insertNodes rows
  | edges rows, s => s.insertEdges rows

/-- The call that offers a batch. -/
def insert : Batch → Session Unit
  | nodes rows => Session.insertNodes rows
  | edges rows => Session.insertEdges rows

/-- The store with a batch at its end. -/
def addTo : Batch → Store → Store
  | nodes rows, s => s.addNodes rows
  | edges rows, s => s.addEdges rows

/-- The store takes a batch. -/
def AcceptedBy : Batch → Store → Prop
  | nodes rows, s => s.AcceptsNodes rows
  | edges rows, _ => Store.AcceptsEdges rows

theorem insertInto_eq_ok_iff {b : Batch} {s t : Store} :
    b.insertInto s = .ok t ↔ b.AcceptedBy s ∧ t = b.addTo s := by
  cases b with
  | nodes rows => exact Store.insertNodes_eq_ok_iff
  | edges rows => exact Store.insertEdges_eq_ok_iff

theorem run_insert (b : Batch) (s : Service) :
    b.insert.run.run s
      = match s.answer b.stage b.insertInto with
        | .ok store => (.ok (), { s.noting b.stage b.size with store })
        | .error fault => (.error fault, s.noting b.stage b.size) := by
  cases b with
  | nodes rows => exact Session.run_call .nodes rows.length (·.insertNodes rows) s
  | edges rows => exact Session.run_call .edges rows.length (·.insertEdges rows) s

/-- A call that succeeds: the store accepted the batch and now has it. -/
theorem run_insert_ok {b : Batch} {s t : Service} (h : b.insert.run.run s = (.ok (), t)) :
    b.AcceptedBy s.store ∧ t.store = b.addTo s.store := by
  rw [run_insert] at h
  cases hans : s.answer b.stage b.insertInto with
  | error fault =>
      rw [hans] at h
      cases h
  | ok store =>
      rw [hans] at h
      cases h
      -- a scheduled fault is no success, so it was the store that answered
      have hinto : b.insertInto s.store = .ok store := by
        unfold Service.answer at hans
        split at hans
        · cases hans
        · exact hans
      exact insertInto_eq_ok_iff.mp hinto

/-- A call that fails writes nothing. -/
theorem run_insert_error {b : Batch} {s t : Service} {fault : Fault}
    (h : b.insert.run.run s = (.error fault, t)) : t.store = s.store := by
  rw [run_insert] at h
  cases hans : s.answer b.stage b.insertInto with
  | error fault' =>
      rw [hans] at h
      cases h
      exact Service.store_noting s b.stage b.size
  | ok store =>
      rw [hans] at h
      cases h

/-- Every call is on the log. -/
theorem log_of_run_insert {b : Batch} {s t : Service} {answer : Except Fault Unit}
    (h : b.insert.run.run s = (answer, t)) : t.log = (b.stage, b.size) :: s.log := by
  have hlog : (s.noting b.stage b.size).log = (b.stage, b.size) :: s.log := by
    cases b <;> rfl
  rw [run_insert] at h
  cases hans : s.answer b.stage b.insertInto with
  | error fault =>
      rw [hans] at h
      cases h
      exact hlog
  | ok store =>
      rw [hans] at h
      cases h
      exact hlog

end Batch

-- ================================================================ histories

/-- An insert call and its answer. -/
structure Attempt where
  batch : Batch
  answer : Except Fault Unit

/-- Exactly these insert calls, in this order and with these answers, lead
from one service to the other. -/
inductive Made : Service → List Attempt → Service → Prop where
  | nil (s : Service) : Made s [] s
  | cons {s t u : Service} {a : Attempt} {rest : List Attempt} :
      a.batch.insert.run.run s = (a.answer, t) → Made t rest u → Made s (a :: rest) u

/-- The batches of the calls that succeeded. -/
def committed (attempts : List Attempt) : List Batch :=
  (attempts.filter (·.answer.isOk)).map Attempt.batch

theorem committed_append (as bs : List Attempt) :
    committed (as ++ bs) = committed as ++ committed bs := by
  simp [committed]

/-- A store with batches at its end, one after the other. -/
def Store.addAll (s : Store) (batches : List Batch) : Store :=
  batches.foldl (fun s b => b.addTo s) s

namespace Made

theorem single {s t : Service} {a : Attempt}
    (h : a.batch.insert.run.run s = (a.answer, t)) : Made s [a] t :=
  .cons h (.nil t)

theorem append {s t u : Service} {as bs : List Attempt} (has : Made s as t)
    (hbs : Made t bs u) : Made s (as ++ bs) u := by
  induction has with
  | nil => exact hbs
  | cons hcall _ ih => exact .cons hcall (ih hbs)

/-- The log shows these calls and no others. -/
theorem log {s t : Service} {attempts : List Attempt} (h : Made s attempts t) :
    t.log = (attempts.map fun a => (a.batch.stage, a.batch.size)).reverse ++ s.log := by
  induction h with
  | nil => rfl
  | @cons s t u a rest hcall _ ih =>
      rw [ih, Batch.log_of_run_insert hcall, List.map_cons, List.reverse_cons,
        List.append_assoc]
      rfl

/-- The store after some calls: what was there, and then the batches of the
calls that succeeded. -/
theorem store {s t : Service} {attempts : List Attempt} (h : Made s attempts t) :
    t.store = s.store.addAll (committed attempts) := by
  induction h with
  | nil => rfl
  | @cons s t u a rest hcall _ ih =>
      obtain ⟨batch, answer⟩ := a
      cases answer with
      | error fault =>
          rw [ih, Batch.run_insert_error hcall]
          rfl
      | ok =>
          rw [ih, (Batch.run_insert_ok hcall).2]
          rfl

end Made

namespace Store

theorem addAll_append (s : Store) (as bs : List Batch) :
    s.addAll (as ++ bs) = (s.addAll as).addAll bs := by
  simp [addAll]

/-- Node batches add up to their rows. -/
theorem addAll_nodes (s : Store) (batches : List (List NodeRow)) :
    s.addAll (batches.map Batch.nodes) = s.addNodes batches.flatten := by
  induction batches generalizing s with
  | nil => exact (addNodes_nil s).symm
  | cons rows rest ih =>
      show (s.addNodes rows).addAll (rest.map Batch.nodes) = _
      rw [ih, addNodes_addNodes, List.flatten_cons]

/-- Edge batches add up to their rows. -/
theorem addAll_edges (s : Store) (batches : List (List EdgeRow)) :
    s.addAll (batches.map Batch.edges) = s.addEdges batches.flatten := by
  induction batches generalizing s with
  | nil => exact (addEdges_nil s).symm
  | cons rows rest ih =>
      show (s.addEdges rows).addAll (rest.map Batch.edges) = _
      rw [ih, addEdges_addEdges, List.flatten_cons]

end Store

-- ================================================== services without faults

/-- No fault lies ahead of a service. -/
structure Service.Calm (s : Service) : Prop where
  nodes : ∀ outcome ∈ s.nodeSchedule, outcome = none
  edges : ∀ outcome ∈ s.edgeSchedule, outcome = none
  removals : ∀ outcome ∈ s.removalSchedule, outcome = none

namespace Service.Calm

theorem schedule {s : Service} (h : s.Calm) (stage : Stage) :
    ∀ outcome ∈ s.schedule stage, outcome = none := by
  cases stage with
  | nodes => exact h.nodes
  | edges => exact h.edges

/-- Without faults it is the store that answers. -/
theorem answer {s : Service} (h : s.Calm) (stage : Stage)
    (insert : Store → Except Fault Store) : s.answer stage insert = insert s.store := by
  unfold Service.answer
  split
  next fault hhead =>
    have hmem : some fault ∈ s.schedule stage := List.mem_of_mem_head? hhead
    cases h.schedule stage _ hmem
  next => rfl

theorem noting {s : Service} (h : s.Calm) (stage : Stage) (size : Nat) :
    (s.noting stage size).Calm := by
  cases stage with
  | nodes => exact ⟨fun o ho => h.nodes o (List.mem_of_mem_tail ho), h.edges, h.removals⟩
  | edges => exact ⟨h.nodes, fun o ho => h.edges o (List.mem_of_mem_tail ho), h.removals⟩

end Service.Calm

/-- A calm service takes every batch its store accepts, and stays calm. -/
theorem Batch.run_insert_of_accepted {b : Batch} {s : Service} (hcalm : s.Calm)
    (haccept : b.AcceptedBy s.store) :
    ∃ t, b.insert.run.run s = (.ok (), t) ∧ t.Calm ∧ t.store = b.addTo s.store := by
  have hinto : b.insertInto s.store = .ok (b.addTo s.store) :=
    insertInto_eq_ok_iff.mpr ⟨haccept, rfl⟩
  have hcalm' := hcalm.noting b.stage b.size
  refine ⟨{ s.noting b.stage b.size with store := b.addTo s.store }, ?_,
    ⟨hcalm'.nodes, hcalm'.edges, hcalm'.removals⟩, rfl⟩
  rw [run_insert, hcalm.answer, hinto]

-- ================================================================= removals

namespace Session

/-- A removal that succeeds takes all rows of the repository. -/
theorem run_deleteRepo_ok {repo : String} {s t : Service} {removed : RowCounts}
    (h : (deleteRepo repo).run.run s = (.ok removed, t)) :
    t.store = (s.store.deleteRepo repo).2 := by
  unfold deleteRepo at h
  rw [run_bind, run_get] at h
  dsimp only at h
  split at h
  · cases h
  · cases h
    rfl

/-- A removal that fails takes none. -/
theorem run_deleteRepo_error {repo : String} {s t : Service} {fault : Fault}
    (h : (deleteRepo repo).run.run s = (.error fault, t)) : t.store = s.store := by
  unfold deleteRepo at h
  rw [run_bind, run_get] at h
  dsimp only at h
  split at h
  · cases h
    rfl
  · cases h

/-- A calm service removes a repository, and stays calm. -/
theorem run_deleteRepo_of_calm (repo : String) {s : Service} (hcalm : s.Calm) :
    ∃ t, (deleteRepo repo).run.run s = (.ok (s.store.counts repo), t) ∧ t.Calm
      ∧ t.store = (s.store.deleteRepo repo).2 := by
  have hcalm' : ({ s with
      store := (s.store.deleteRepo repo).2
      removalSchedule := s.removalSchedule.tail } : Service).Calm :=
    ⟨hcalm.nodes, hcalm.edges, fun o ho => hcalm.removals o (List.mem_of_mem_tail ho)⟩
  refine ⟨_, ?_, hcalm', rfl⟩
  unfold deleteRepo
  rw [run_bind, run_get]
  dsimp only
  split
  next fault hhead => cases hcalm.removals _ (List.mem_of_mem_head? hhead)
  next => rfl

end Session

end CodeMap
