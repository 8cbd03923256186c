/-
Repositories in one store do not interfere.

An `Action` is one call to a store, about one repository; the rows of an
insert all belong to it, which the action carries as a proof. `answers` runs
actions one after the other and keeps each with its answer.

# Two runs

One run performs all actions, the other only those about one repository. The
two stores differ in every other respect, also in the numbers of the edges,
but they stay `Alike`: they hold the same node rows and the same edge rows of
the repository, each in the same order. An action about another repository
leaves the rows alone (`alike_perform_other`), and an action about the
repository itself answers from them and changes them in the same way on both
sides (`perform_alike`). An insert is the one action that reads before it
writes: whether a key is taken is a question about the repository's own rows,
so the first row that is refused, and with it the fault, is the same.
-/
import CodeMap.Proofs.Store.Rows

namespace CodeMap.Store

-- ================================================================= actions

/-- A call to a store. -/
inductive Action where
  | insertNodes (repo : String) (rows : List NodeRow) (own : ∀ n ∈ rows, n.repoId = repo)
  | insertEdges (repo : String) (rows : List EdgeRow) (own : ∀ e ∈ rows, e.repoId = repo)
  | deleteRepo (repo : String)
  | setDocstring (repo id text : String)
  | node? (repo id : String)
  | outgoing (repo id : String)
  | incoming (repo id : String)
  | nodesInFile (repo path : String)
  | nodesUnderPath (repo path : String)
  | findByName (repo name : String)
  | counts (repo : String)

/-- What a call is answered. -/
inductive Answer where
  | inserted (result : Except Fault Unit)
  | removed (rows : RowCounts)
  | annotated (found : Bool)
  | node (row : Option NodeRow)
  | nodes (rows : List NodeRow)
  | edges (rows : List EdgeRow)
  | counted (rows : RowCounts)

/-- The answer to an insert and the store after it; a fault leaves the store
as it was. -/
def settle (s : Store) : Except Fault Store → Answer × Store
  | .ok t => (.inserted (.ok ()), t)
  | .error fault => (.inserted (.error fault), s)

namespace Action

/-- The repository an action is about. -/
def repo : Action → String
  | insertNodes repo _ _ => repo
  | insertEdges repo _ _ => repo
  | deleteRepo repo => repo
  | setDocstring repo _ _ => repo
  | node? repo _ => repo
  | outgoing repo _ => repo
  | incoming repo _ => repo
  | nodesInFile repo _ => repo
  | nodesUnderPath repo _ => repo
  | findByName repo _ => repo
  | counts repo => repo

/-- The answer to an action and the store after it. -/
def perform (s : Store) : Action → Answer × Store
  | insertNodes _ rows _ => s.settle (s.insertNodes rows)
  | insertEdges _ rows _ => s.settle (s.insertEdges rows)
  | deleteRepo repo => (.removed (s.deleteRepo repo).1, (s.deleteRepo repo).2)
  | setDocstring repo id text =>
    (.annotated (s.setDocstring repo id text).1, (s.setDocstring repo id text).2)
  | node? repo id => (.node (s.node? repo id), s)
  | outgoing repo id => (.edges (s.outgoing repo id), s)
  | incoming repo id => (.edges (s.incoming repo id), s)
  | nodesInFile repo path => (.nodes (s.nodesInFile repo path), s)
  | nodesUnderPath repo path => (.nodes (s.nodesUnderPath repo path), s)
  | findByName repo name => (.nodes (s.findByName repo name), s)
  | counts repo => (.counted (s.counts repo), s)

end Action

/-- The actions of a run, each with its answer. -/
def answers (s : Store) : List Action → List (Action × Answer)
  | [] => []
  | a :: rest => (a, (a.perform s).1) :: answers (a.perform s).2 rest

-- ============================================================= alike stores

/-- Two stores hold the same rows of a repository in the same order. The
numbers of the edges may differ. -/
structure Alike (repo : String) (s t : Store) : Prop where
  nodes : s.nodesOf repo = t.nodesOf repo
  edges : s.edgesOf repo = t.edgesOf repo

theorem Alike.refl (repo : String) (s : Store) : Alike repo s s := ⟨rfl, rfl⟩

theorem Alike.trans {repo : String} {s t u : Store} (h : Alike repo s t) (h' : Alike repo t u) :
    Alike repo s u :=
  ⟨h.nodes.trans h'.nodes, h.edges.trans h'.edges⟩

theorem SameRows.alike {repo : String} {s t : Store} (h : SameRows repo s t) : Alike repo s t :=
  ⟨h.nodes, h.edgesOf⟩

/-- Whether a key is taken only depends on the repository's own nodes. -/
theorem hasKey_eq_any (s : Store) (repo id : String) :
    s.hasKey repo id = (s.nodesOf repo).any (·.nodeId == id) := by
  rw [nodesOf, List.any_filter, hasKey]

theorem Alike.hasKey {repo : String} {s t : Store} (h : Alike repo s t) (id : String) :
    s.hasKey repo id = t.hasKey repo id := by
  rw [hasKey_eq_any, hasKey_eq_any, h.nodes]

theorem Alike.addNodes {repo : String} {s t : Store} (h : Alike repo s t) (rows : List NodeRow) :
    Alike repo (s.addNodes rows) (t.addNodes rows) :=
  ⟨by rw [nodesOf_addNodes, nodesOf_addNodes, h.nodes], h.edges⟩

theorem Alike.addEdges {repo : String} {s t : Store} (h : Alike repo s t) (rows : List EdgeRow) :
    Alike repo (s.addEdges rows) (t.addEdges rows) :=
  ⟨h.nodes, by rw [edgesOf_addEdges, edgesOf_addEdges, h.edges]⟩

theorem Alike.deleteRepo {repo : String} (s t : Store) :
    Alike repo (s.deleteRepo repo).2 (t.deleteRepo repo).2 :=
  ⟨by rw [nodesOf_deleteRepo, nodesOf_deleteRepo], by rw [edgesOf_deleteRepo, edgesOf_deleteRepo]⟩

-- =============================================================== docstrings

/-- A node after a text was attached to the node with a key. -/
def withDocstring (repo id text : String) (n : NodeRow) : NodeRow :=
  if n.repoId == repo && n.nodeId == id then { n with docstring := some text } else n

theorem repoId_withDocstring (repo id text : String) (n : NodeRow) :
    (withDocstring repo id text n).repoId = n.repoId := by
  unfold withDocstring
  split <;> rfl

/-- Attaching a text changes the rows of a repository one by one. -/
theorem nodesOf_setDocstring (s : Store) (repo id text other : String) :
    (s.setDocstring repo id text).2.nodesOf other
      = (s.nodesOf other).map (withDocstring repo id text) := by
  show (s.nodes.map (withDocstring repo id text)).filter (·.repoId == other) = _
  rw [List.filter_map, nodesOf]
  congr 2
  funext n
  rw [Function.comp_apply, repoId_withDocstring]

theorem Alike.setDocstring {repo : String} {s t : Store} (h : Alike repo s t) (id text : String) :
    Alike repo (s.setDocstring repo id text).2 (t.setDocstring repo id text).2 :=
  ⟨by rw [nodesOf_setDocstring, nodesOf_setDocstring, h.nodes], h.edges⟩

/-- A text attached in one repository is not seen in another. -/
theorem alike_setDocstring (s : Store) {repo other : String} (hother : other ≠ repo)
    (id text : String) : Alike other (s.setDocstring repo id text).2 s := by
  refine ⟨?_, rfl⟩
  have hsame : ∀ n ∈ s.nodesOf other, withDocstring repo id text n = n := by
    intro n hn
    have hrepo : n.repoId = other := beq_iff_eq.mp (List.mem_filter.mp hn).2
    simp [withDocstring, hrepo, hother]
  rw [nodesOf_setDocstring, List.map_congr_left hsame, List.map_id']

-- ================================================================== inserts

/-- Two inserts came out alike: both succeeded and left stores that are alike,
or both failed with the same fault. -/
def SameOutcome (repo : String) : Except Fault Store → Except Fault Store → Prop
  | .ok s, .ok t => Alike repo s t
  | .error fault, .error fault' => fault = fault'
  | _, _ => False

/-- If single rows come out alike then so do batches: the induction is over
the rows, and the first fault ends both sides. -/
theorem sameOutcome_foldlM {α : Type} {repo : String} {insert : Store → α → Except Fault Store}
    {rows : List α}
    (hstep : ∀ a ∈ rows, ∀ {s t : Store}, Alike repo s t →
      SameOutcome repo (insert s a) (insert t a)) :
    ∀ {s t : Store}, Alike repo s t →
      SameOutcome repo (rows.foldlM insert s) (rows.foldlM insert t) := by
  induction rows with
  | nil =>
      intro s t h
      exact h
  | cons a rest ih =>
      intro s t h
      have hfirst := hstep a (by simp) h
      rw [List.foldlM_cons, List.foldlM_cons]
      cases hs : insert s a with
      | error fault =>
          rw [hs] at hfirst
          cases ht : insert t a with
          | error fault' =>
              rw [ht] at hfirst
              exact hfirst
          | ok t' =>
              rw [ht] at hfirst
              exact hfirst.elim
      | ok s' =>
          rw [hs] at hfirst
          cases ht : insert t a with
          | error fault =>
              rw [ht] at hfirst
              exact hfirst.elim
          | ok t' =>
              rw [ht] at hfirst
              exact ih (fun b hb => hstep b (by simp [hb])) hfirst

/-- A node is refused on both sides, for the same reason, or on neither. -/
theorem Alike.insertNode {repo : String} {s t : Store} (h : Alike repo s t) {n : NodeRow}
    (hn : n.repoId = repo) : SameOutcome repo (s.insertNode n) (t.insertNode n) := by
  have hkey : s.hasKey n.repoId n.nodeId = t.hasKey n.repoId n.nodeId := by
    rw [hn]
    exact h.hasKey n.nodeId
  unfold Store.insertNode
  rw [← hkey]
  by_cases hfit : (!(fits n.startLine && fits n.endLine)) = true
  · simp only [hfit, if_true]
    rfl
  · simp only [hfit]
    by_cases htaken : s.hasKey n.repoId n.nodeId = true
    · simp only [htaken, if_true]
      rfl
    · simp only [htaken]
      exact h.addNodes [n]

/-- The lines of an edge decide alone whether it is refused. -/
theorem Alike.insertEdge {repo : String} {s t : Store} (h : Alike repo s t) (e : EdgeRow) :
    SameOutcome repo (s.insertEdge e) (t.insertEdge e) := by
  unfold Store.insertEdge
  split
  · exact h.addEdges [e]
  · rfl

theorem Alike.settle {repo : String} {s t : Store} (h : Alike repo s t)
    {r r' : Except Fault Store} (hr : SameOutcome repo r r') :
    (s.settle r).1 = (t.settle r').1 ∧ Alike repo (s.settle r).2 (t.settle r').2 := by
  cases r with
  | error fault =>
      cases r' with
      | error fault' =>
          obtain rfl : fault = fault' := hr
          exact ⟨rfl, h⟩
      | ok t' => exact hr.elim
  | ok s' =>
      cases r' with
      | error fault => exact hr.elim
      | ok t' => exact ⟨rfl, hr⟩

/-- An insert that leaves the rows of a repository alone if it succeeds leaves
them alone in any case. -/
theorem alike_settle {other : String} {s : Store} {r : Except Fault Store}
    (hr : ∀ t, r = .ok t → Alike other t s) : Alike other (s.settle r).2 s := by
  cases r with
  | error fault => exact .refl other s
  | ok t => exact hr t rfl

-- ================================================================= isolation

/-- An action about one repository leaves the rows of the others alone. -/
theorem alike_perform_other (a : Action) {other : String} (hother : other ≠ a.repo) (s : Store) :
    Alike other (a.perform s).2 s := by
  cases a with
  | insertNodes repo rows own =>
      refine alike_settle fun t ht => ?_
      obtain ⟨-, rfl⟩ := insertNodes_eq_ok_iff.mp ht
      exact (sameRows_addNodes s own hother).alike
  | insertEdges repo rows own =>
      refine alike_settle fun t ht => ?_
      obtain ⟨-, rfl⟩ := insertEdges_eq_ok_iff.mp ht
      exact (sameRows_addEdges s own hother).alike
  | deleteRepo repo => exact (sameRows_deleteRepo s hother).alike
  | setDocstring repo id text => exact alike_setDocstring s hother id text
  | node? | outgoing | incoming | nodesInFile | nodesUnderPath | findByName | counts =>
      exact .refl other s

/-- An action about a repository answers alike on stores that are alike there,
and leaves them alike. -/
theorem perform_alike (a : Action) {s t : Store} (h : Alike a.repo s t) :
    (a.perform s).1 = (a.perform t).1 ∧ Alike a.repo (a.perform s).2 (a.perform t).2 := by
  have hread := sameAnswers_of_rows h.nodes h.edges
  cases a with
  | insertNodes repo rows own =>
      have hrow : ∀ n ∈ rows, ∀ {s t : Store}, Alike repo s t →
          SameOutcome repo (s.insertNode n) (t.insertNode n) :=
        fun n hn _ _ h' => h'.insertNode (own n hn)
      exact h.settle (sameOutcome_foldlM hrow h)
  | insertEdges repo rows own =>
      have hrow : ∀ e ∈ rows, ∀ {s t : Store}, Alike repo s t →
          SameOutcome repo (s.insertEdge e) (t.insertEdge e) :=
        fun e _ _ _ h' => h'.insertEdge e
      exact h.settle (sameOutcome_foldlM hrow h)
  | deleteRepo repo => exact ⟨congrArg Answer.removed hread.counts, .deleteRepo s t⟩
  | setDocstring repo id text =>
      exact ⟨congrArg Answer.annotated (h.hasKey id), h.setDocstring id text⟩
  | node? repo id => exact ⟨congrArg Answer.node (hread.node? id), h⟩
  | outgoing repo id => exact ⟨congrArg Answer.edges (hread.outgoing id), h⟩
  | incoming repo id => exact ⟨congrArg Answer.edges (hread.incoming id), h⟩
  | nodesInFile repo path => exact ⟨congrArg Answer.nodes (hread.nodesInFile path), h⟩
  | nodesUnderPath repo path => exact ⟨congrArg Answer.nodes (hread.nodesUnderPath path), h⟩
  | findByName repo name => exact ⟨congrArg Answer.nodes (hread.findByName name), h⟩
  | counts repo => exact ⟨congrArg Answer.counted hread.counts, h⟩

/-- Stores that are alike for a repository answer its actions alike, whatever
is done to other repositories in between on one side. -/
theorem answers_of_alike (repo : String) (actions : List Action) :
    ∀ {s t : Store}, Alike repo s t →
      (s.answers actions).filter (·.1.repo == repo)
        = t.answers (actions.filter (·.repo == repo)) := by
  induction actions with
  | nil =>
      intro s t _
      rfl
  | cons a rest ih =>
      intro s t h
      by_cases hrepo : a.repo = repo
      · subst hrepo
        obtain ⟨hanswer, hnext⟩ := perform_alike a h
        simp only [answers, List.filter_cons, beq_self_eq_true, if_true]
        rw [hanswer, ih hnext]
      · have hskip : (a.repo == repo) = false := beq_eq_false_iff_ne.mpr hrepo
        simp only [answers, List.filter_cons, hskip]
        exact ih ((alike_perform_other a (Ne.symm hrepo) s).trans h)

/-- Repositories in one store do not interfere: in any interleaving of actions,
the answers to the actions about a repository, faults and orders included, are
those of the run that leaves out all actions about other repositories. -/
theorem answers_isolate_repositories (s : Store) (actions : List Action) (repo : String) :
    (s.answers actions).filter (·.1.repo == repo)
      = s.answers (actions.filter (·.repo == repo)) :=
  answers_of_alike repo actions (.refl repo s)

end CodeMap.Store
