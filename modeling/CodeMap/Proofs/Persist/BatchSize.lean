/-
How rows are cut into batches does not show in the end.

Without faults the only thing that can stop a run is a node whose key is taken,
by a stored node or by one that the run wrote before it. Which node is the first
such is settled by the rows alone (`FirstConflict`). Its batch fails and leaves
nothing, the batches before it were accepted one after the other, so the batch
size decides where a run stops and what it has written by then, but not whether
it stops, nor what it then complains about.

The place of a row among the batches is found along the recursion that cuts them
(`pieces_split`): as many batches lie before it as its position holds the size.
-/
import CodeMap.Proofs.Ingest.Keys
import CodeMap.Proofs.Store.Fidelity

namespace CodeMap

-- =================================================================== places

namespace Persist

/-- The piece that holds a row: the rows before it are those of the earlier
pieces and those that come first in its own. -/
theorem pieces_split {α : Type} (n : Nat) (rows : List α) :
    ∀ {i : Nat} {x : α}, rows[i]? = some x →
      ∃ full before after rest, pieces n rows = full ++ (before ++ x :: after) :: rest
        ∧ full.length = i / (n + 1) ∧ full.flatten ++ before = rows.take i := by
  fun_induction pieces n rows with
  | case1 =>
      intro i x hx
      cases hx
  | case2 y rows ih =>
      intro i x hx
      by_cases hi : i < n + 1
      · -- the row is in the first piece
        have hpiece : ((y :: rows).take (n + 1))[i]? = some x := by
          rw [List.getElem?_take_of_lt hi, hx]
        obtain ⟨hlt, rfl⟩ := List.getElem?_eq_some_iff.mp hpiece
        refine ⟨[], (y :: rows).take i, ((y :: rows).take (n + 1)).drop (i + 1),
          pieces n (rows.drop n), ?_, (Nat.div_eq_of_lt hi).symm, rfl⟩
        have hfront : (y :: rows).take i = ((y :: rows).take (n + 1)).take i := by
          rw [List.take_take, Nat.min_eq_left (Nat.le_of_lt hi)]
        rw [hfront, ← List.drop_eq_getElem_cons, List.take_append_drop]
        rfl
      · -- the row is in a later piece, and the first one is full
        obtain ⟨j, rfl⟩ := Nat.exists_eq_add_of_le (Nat.le_of_not_lt hi)
        have hlater : (rows.drop n)[j]? = some x := by
          rw [List.getElem?_drop, ← hx, Nat.add_right_comm, List.getElem?_cons_succ]
        obtain ⟨full, before, after, rest, hpieces, hlength, htake⟩ := ih hlater
        refine ⟨(y :: rows.take n) :: full, before, after, rest, by rw [hpieces]; rfl, ?_, ?_⟩
        · rw [List.length_cons, hlength, Nat.add_div_left j (Nat.succ_pos n)]
        · rw [List.flatten_cons, List.append_assoc, htake, List.take_add]
          rfl

end Persist

-- ================================================================ conflicts

namespace Store

/-- A row whose key is taken, by a stored node or by a row before it. -/
def Conflicts (s : Store) (rows : List NodeRow) (i : Nat) (n : NodeRow) : Prop :=
  rows[i]? = some n
    ∧ (n.key ∈ s.nodes.map NodeRow.key ∨ n.key ∈ (rows.take i).map NodeRow.key)

/-- The first row whose key is taken. -/
structure FirstConflict (s : Store) (rows : List NodeRow) (i : Nat) (n : NodeRow) : Prop where
  taken : s.Conflicts rows i n
  first : ∀ j < i, ∀ m, ¬ s.Conflicts rows j m

/-- What is said about a node whose key is taken. -/
def refusal (n : NodeRow) : Fault :=
  .database ("failed to insert node '" ++ n.qualifiedName ++ "': " ++ keyTaken)

/-- Rows that fit are accepted as long as no key among them is taken. -/
theorem acceptsNodes_take_iff {s : Store} {rows : List NodeRow} (hfit : ∀ n ∈ rows, n.Fits)
    (i : Nat) : s.AcceptsNodes (rows.take i) ↔ ∀ j < i, ∀ m, ¬ s.Conflicts rows j m := by
  induction i with
  | zero => simp [acceptsNodes_nil]
  | succ i ih =>
      rw [List.take_add_one, acceptsNodes_append, ih, Nat.forall_lt_succ_right]
      refine and_congr_right fun _ => ?_
      cases hrow : rows[i]? with
      | none => simp [acceptsNodes_nil, Conflicts, hrow]
      | some n =>
          have hn : n.Fits := hfit n (List.mem_of_getElem? hrow)
          rw [Option.toList_some, acceptsNodes_singleton, nodes_addNodes, List.map_append,
            List.mem_append]
          simp [Conflicts, hrow, hn]

/-- Either the rows are accepted or there is a first one whose key is taken. -/
theorem acceptsNodes_or_firstConflict {s : Store} {rows : List NodeRow}
    (hfit : ∀ n ∈ rows, n.Fits) :
    s.AcceptsNodes rows ∨ ∃ i n, s.FirstConflict rows i n := by
  have hupto : ∀ i, (∀ j < i, ∀ m, ¬ s.Conflicts rows j m) ∨ ∃ j n, s.FirstConflict rows j n := by
    intro i
    induction i with
    | zero => exact .inl fun j hj => absurd hj (Nat.not_lt_zero j)
    | succ i ih =>
        rcases ih with hnone | hfound
        · by_cases hnext : ∃ n, s.Conflicts rows i n
          · obtain ⟨n, hn⟩ := hnext
            exact .inr ⟨i, n, hn, hnone⟩
          · exact .inl (Nat.forall_lt_succ_right.mpr ⟨hnone, not_exists.mp hnext⟩)
        · exact .inr hfound
  have hall := hupto rows.length
  rw [← acceptsNodes_take_iff hfit, List.take_length] at hall
  exact hall

/-- A batch fails over the first of its rows whose key is taken. -/
theorem insertNodes_eq_refusal {s : Store} {before after : List NodeRow} {n : NodeRow}
    (haccept : s.AcceptsNodes before) (hfit : n.Fits)
    (htaken : n.key ∈ (s.addNodes before).nodes.map NodeRow.key) :
    s.insertNodes (before ++ n :: after) = .error (refusal n) := by
  have hbefore : before.foldlM insertNode s = .ok (s.addNodes before) :=
    insertNodes_eq_ok_iff.mpr ⟨haccept, rfl⟩
  have hrow : (s.addNodes before).insertNode n = .error (refusal n) := by
    have hkey := (hasKey_eq_true_iff _ _ _).mpr htaken
    simp [insertNode, hfit.1, hfit.2, hkey, refusal]
  rw [insertNodes, List.foldlM_append, hbefore]
  show (n :: after).foldlM insertNode (s.addNodes before) = _
  rw [List.foldlM_cons, hrow]
  rfl

end Store

-- ===================================================================== runs

namespace Persist

/-- A batch that the store refuses is offered once. -/
theorem offer_of_refused {b : Batch} {s : Service} {fault : Fault} (hcalm : s.Calm)
    (hrefused : b.insertInto s.store = .error fault) (hlasting : fault.isTransient = false)
    (retries : Nat) :
    ∃ t, (offer b.insert retries).run.run s = (.error fault, t) ∧ t.store = s.store := by
  have hcall : b.insert.run.run s = (.error fault, s.noting b.stage b.size) := by
    rw [Batch.run_insert, hcalm.answer, hrefused]
  refine ⟨s.noting b.stage b.size, ?_, Service.store_noting s b.stage b.size⟩
  cases retries with
  | zero => exact hcall
  | succ retries =>
      rw [offer, Session.run_tryCatch, hcall]
      dsimp only
      rw [if_neg (by rw [hlasting]; exact Bool.false_ne_true)]
      rfl

/-- The batches of a stage can be offered in two parts. -/
theorem offerAll_append {α : Type} (stage : Stage) (insert : List α → Session Unit)
    (retries : Nat) (bs : List (List α)) : ∀ (as : List (List α)) (index : Nat),
      offerAll stage insert retries index (as ++ bs) = (do
        offerAll stage insert retries index as
        offerAll stage insert retries (index + as.length) bs) := by
  intro as
  induction as with
  | nil =>
      intro index
      simp [offerAll]
  | cons batch as ih =>
      intro index
      have hindex : index + 1 + as.length = index + (batch :: as).length := by
        rw [List.length_cons]
        omega
      rw [List.cons_append, offerAll, ih, hindex, offerAll, bind_assoc]

/-- A stage stops at the first batch that the store refuses. -/
theorem offerAll_of_refused {α : Type} (stage : Stage) (wrap : List α → Batch)
    (insert : List α → Session Unit) (hinsert : ∀ batch, insert batch = (wrap batch).insert)
    (retries : Nat) {full rest : List (List α)} {batch : List α} {s : Service} {fault : Fault}
    (hcalm : s.Calm) (haccept : AcceptedInTurn (full.map wrap) s.store)
    (hrefused : (wrap batch).insertInto (s.store.addAll (full.map wrap)) = .error fault)
    (hlasting : fault.isTransient = false) :
    ∃ t, (offerAll stage insert retries 0 (full ++ batch :: rest)).run.run s
        = (.error (.batch stage.name full.length fault), t)
      ∧ t.store = s.store.addAll (full.map wrap) := by
  obtain ⟨t, hrun, hcalm', hstore⟩ :=
    offerAll_of_accepted stage wrap insert hinsert retries full 0 hcalm haccept
  rw [← hstore] at hrefused
  obtain ⟨u, hrun', hstore'⟩ := offer_of_refused hcalm' hrefused hlasting retries
  refine ⟨u, ?_, hstore'.trans hstore⟩
  rw [offerAll_append, Session.run_bind, hrun]
  dsimp only
  rw [offerAll, Session.run_bind, Session.run_tryCatch, hinsert, hrun', Nat.zero_add]
  rfl

section Write

variable (repo owner : String) (size retries : Nat)

/-- A run stops at the batch of the first node whose key is taken. -/
theorem write_of_conflict {g : CodeGraph} (hlines : g.LinesFit) {s : Service} (hcalm : s.Calm)
    {i : Nat} {n : NodeRow} (hfirst : s.store.FirstConflict (nodeRows g repo owner) i n) :
    ∃ t, (write g repo owner size retries).run.run s
        = (.error (.batch "nodes" (i / max size 1) (Store.refusal n)), t)
      ∧ t.store
        = s.store.addNodes ((nodeBatches g repo owner size).take (i / max size 1)).flatten := by
  obtain ⟨⟨hrow, htaken⟩, hbefore⟩ := hfirst
  obtain ⟨full, before, after, rest, hcut, hlength, htake⟩ := pieces_split (size - 1) _ hrow
  have hsize : size - 1 + 1 = max size 1 := by omega
  have hbatches : nodeBatches g repo owner size = full ++ (before ++ n :: after) :: rest := hcut
  have hfits := fits_of_mem_nodeRows repo owner hlines
  have haccept := (Store.acceptsNodes_take_iff hfits i).mpr hbefore
  rw [← htake, Store.acceptsNodes_append] at haccept
  have hkey : n.key ∈ ((s.store.addNodes full.flatten).addNodes before).nodes.map NodeRow.key := by
    rw [Store.addNodes_addNodes, htake, Store.nodes_addNodes, List.map_append, List.mem_append]
    exact htaken
  have hrefused : (s.store.addAll (full.map Batch.nodes)).insertNodes (before ++ n :: after)
      = .error (Store.refusal n) := by
    rw [Store.addAll_nodes]
    exact Store.insertNodes_eq_refusal haccept.2 (hfits n (List.mem_of_getElem? hrow)) hkey
  obtain ⟨t, hrun, hstore⟩ :=
    offerAll_of_refused .nodes Batch.nodes Session.insertNodes (fun _ => rfl) retries hcalm
      (acceptedInTurn_nodes haccept.1) hrefused rfl
  rw [hlength, hsize] at hrun
  refine ⟨t, ?_, ?_⟩
  · rw [write_eq, Session.run_bind, hbatches, hrun]
    rfl
  · rw [hstore, Store.addAll_nodes, hbatches, ← hsize, ← hlength, List.take_left]

/-- The batch size does not matter. Without faults, runs with different batch
sizes succeed together, with the same summary and the same store. If they fail,
they all fail over the first node whose key is taken, with the same complaint.
The fault names the batch that holds this node, by its position and the batch
size, and the nodes of the batches before that one are all that was written. -/
theorem write_independent_of_batch_size {g : CodeGraph} (hlines : g.LinesFit) {s : Service}
    (hcalm : s.Calm) (size' : Nat) :
    let run (b : Nat) := (write g repo owner b retries).run.run s
    ((∃ summary, (run size).1 = .ok summary) ↔ ∃ summary, (run size').1 = .ok summary)
    ∧ (∀ summary, (run size).1 = .ok summary →
        (run size').1 = .ok summary ∧ (run size').2.store = (run size).2.store)
    ∧ ∀ fault, (run size).1 = .error fault →
        ∃ i n, s.store.FirstConflict (nodeRows g repo owner) i n
          ∧ ∀ b, (run b).1 = .error (.batch "nodes" (i / max b 1) (Store.refusal n))
            ∧ (run b).2.store
              = s.store.addNodes ((nodeBatches g repo owner b).take (i / max b 1)).flatten := by
  intro run
  rcases Store.acceptsNodes_or_firstConflict (fits_of_mem_nodeRows repo owner hlines) with
    haccept | ⟨i, n, hfirst⟩
  · have hok : ∀ b, (run b).1 = .ok ⟨g.nodes.length, g.edges.length⟩
        ∧ (run b).2.store
          = (s.store.addNodes (nodeRows g repo owner)).addEdges (edgeRows g repo owner) := by
      intro b
      obtain ⟨t, hrun, hstore⟩ := write_of_accepted g repo owner b retries hcalm haccept
        (acceptsEdges_edgeRows repo owner hlines)
      exact ⟨congrArg Prod.fst hrun, (congrArg (·.2.store) hrun).trans hstore⟩
    refine ⟨⟨fun _ => ⟨_, (hok size').1⟩, fun _ => ⟨_, (hok size).1⟩⟩, fun summary hrun => ?_,
      fun fault hrun => ?_⟩
    · rw [(hok size).1] at hrun
      exact ⟨(hok size').1.trans hrun, (hok size').2.trans (hok size).2.symm⟩
    · rw [(hok size).1] at hrun
      cases hrun
  · have hstop : ∀ b, (run b).1 = .error (.batch "nodes" (i / max b 1) (Store.refusal n))
        ∧ (run b).2.store
          = s.store.addNodes ((nodeBatches g repo owner b).take (i / max b 1)).flatten := by
      intro b
      obtain ⟨t, hrun, hstore⟩ := write_of_conflict repo owner b retries hlines hcalm hfirst
      exact ⟨congrArg Prod.fst hrun, (congrArg (·.2.store) hrun).trans hstore⟩
    have hfails : ∀ b summary, (run b).1 ≠ .ok summary := by
      intro b summary hrun
      rw [(hstop b).1] at hrun
      cases hrun
    exact ⟨⟨fun ⟨_, hrun⟩ => absurd hrun (hfails _ _), fun ⟨_, hrun⟩ => absurd hrun (hfails _ _)⟩,
      fun _ hrun => absurd hrun (hfails _ _), fun _ _ => ⟨i, n, hfirst, hstop⟩⟩

end Write

/-- Three nodes, of which the last has the name of the first. -/
def repeatedName : CodeGraph where
  nodes := ["a.py", "b.py", "a.py"].map fun name => ⟨.file, name, name, ⟨name⟩, none, ""⟩
  edges := []

/-- A function that the file around it calls. -/
def calledOnce : CodeGraph where
  nodes := [⟨.file, "a.py", "a.py", ⟨"a.py"⟩, none, ""⟩,
    ⟨.function, "f", "a.py:f", ⟨"a.py"⟩, some (LineSpan.of 0 1), ""⟩]
  edges := [⟨0, 1, "call", "f", some (LineSpan.of 2 2), LineSpan.of 0 1⟩]

/-- The number of the batch that a run stopped at. -/
def stoppedAt? : Except Fault PersistSummary → Option Nat
  | .error (.batch _ index _) => some index
  | _ => none

/-- With names of their own all rows are stored, one at a time or all at once.
With a repeated name, one node at a time the last batch of three fails, and in
pairs the last of two, with the same complaint. -/
theorem write_independent_of_batch_size_sample :
    (((write calledOnce "r" "o" 1 3).run.run {}).1 = .ok ⟨2, 1⟩
      ∧ ((write calledOnce "r" "o" 500 3).run.run {}).1 = .ok ⟨2, 1⟩
      ∧ ((write calledOnce "r" "o" 500 3).run.run {}).2.store
        = ((write calledOnce "r" "o" 1 3).run.run {}).2.store)
    ∧ ∃ n, ((write repeatedName "r" "o" 1 3).run.run {}).1
        = .error (.batch "nodes" 2 (Store.refusal n))
      ∧ ((write repeatedName "r" "o" 2 3).run.run {}).1
        = .error (.batch "nodes" 1 (Store.refusal n)) := by
  have hcalm : Service.Calm {} := ⟨by decide, by decide, by decide⟩
  constructor
  · have hlines : calledOnce.LinesFit := ⟨by decide, by decide, by decide⟩
    have hrun : ((write calledOnce "r" "o" 1 3).run.run {}).1 = .ok ⟨2, 1⟩ := by decide +kernel
    obtain ⟨-, hok, -⟩ :=
      @write_independent_of_batch_size "r" "o" 1 3 calledOnce hlines {} hcalm 500
    obtain ⟨hsame, hstore⟩ := hok _ hrun
    exact ⟨hrun, hsame, hstore⟩
  · have hlines : repeatedName.LinesFit := ⟨by decide, by decide, by decide⟩
    obtain ⟨-, -, herror⟩ :=
      @write_independent_of_batch_size "r" "o" 1 3 repeatedName hlines {} hcalm 2
    have hindex : stoppedAt? ((write repeatedName "r" "o" 1 3).run.run {}).1 = some 2 := by
      decide +kernel
    cases hrun : ((write repeatedName "r" "o" 1 3).run.run {}).1 with
    | ok summary =>
        rw [hrun] at hindex
        cases hindex
    | error fault =>
        obtain ⟨i, n, -, hall⟩ := herror fault hrun
        rw [(hall 1).1] at hindex
        have hi : i = 2 := (Nat.div_one i).symm.trans (Option.some.inj hindex)
        subst hi
        exact ⟨n, hrun ▸ (hall 1).1, (hall 2).1⟩

end Persist

end CodeMap
