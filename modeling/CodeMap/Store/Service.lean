/-
A store behind a service that may fail. Every insert call is logged; what
happens to the coming calls of a stage, and to the coming removals, is laid
down by a schedule, and a call that fails changes nothing.
-/
import CodeMap.Store

namespace CodeMap

/-- The two kinds of insert calls. -/
inductive Stage where
  | nodes
  | edges
  deriving DecidableEq, Repr

def Stage.name : Stage → String
  | nodes => "nodes"
  | edges => "edges"

/-- What happens to a coming call: it reaches the store, or fails. -/
abbrev Outcome := Option Fault

/-- A store with its schedule and its log. A schedule that has run out lets
calls pass. -/
structure Service where
  store : Store := {}
  nodeSchedule : List Outcome := []
  edgeSchedule : List Outcome := []
  removalSchedule : List Outcome := []
  /-- Insert calls with their batch sizes, latest first. -/
  log : List (Stage × Nat) := []
  deriving Inhabited

namespace Service

def schedule (s : Service) : Stage → List Outcome
  | .nodes => s.nodeSchedule
  | .edges => s.edgeSchedule

def withSchedule (s : Service) (outcomes : List Outcome) : Stage → Service
  | .nodes => { s with nodeSchedule := outcomes }
  | .edges => { s with edgeSchedule := outcomes }

/-- Lets `skip` calls of a stage pass, then fails `times` calls. -/
def interrupt (s : Service) (stage : Stage) (skip times : Nat) (fault : Fault) : Service :=
  s.withSchedule (List.replicate skip none ++ List.replicate times (some fault)) stage

end Service

/-- Work against a service; the service keeps what was done before a fault. -/
abbrev Session := ExceptT Fault (StateM Service)

namespace Session

/-- One insert call: it is logged, takes its outcome off the schedule, and
reaches the store if the outcome allows. -/
def call (stage : Stage) (size : Nat) (insert : Store → Except Fault Store) : Session Unit := do
  let s ← get
  let logged : Service := { s with log := (stage, size) :: s.log }
  let later := logged.withSchedule (s.schedule stage).tail stage
  match (s.schedule stage).head? with
  | some (some fault) =>
    set later
    throw fault
  | _ =>
    set later
    match insert s.store with
    | .ok store => set { later with store }
    | .error fault => throw fault

def insertNodes (batch : List NodeRow) : Session Unit :=
  call .nodes batch.length (·.insertNodes batch)

def insertEdges (batch : List EdgeRow) : Session Unit :=
  call .edges batch.length (·.insertEdges batch)

/-- Removes a repository, if the outcome on the schedule allows: all its rows
or none. -/
def deleteRepo (repo : String) : Session RowCounts := do
  let s ← get
  let later : Service := { s with removalSchedule := s.removalSchedule.tail }
  match s.removalSchedule.head? with
  | some (some fault) =>
    set later
    throw fault
  | _ =>
    let (removed, store) := s.store.deleteRepo repo
    set { later with store }
    return removed

end Session

end CodeMap
