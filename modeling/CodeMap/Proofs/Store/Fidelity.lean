/-
Stored rows are what was inserted, and stay so.

A `Change` is a call that can alter a store; reading alters nothing, so a run
is a list of changes. A `Call` is a change with its answer, and what a run
leaves behind is said in terms of its calls alone: `Stored` names the rows
that a call stored and no later call removed, `annotated` gives such a row the
text that was attached to it last, and `edgesSince` lists the edges that were
stored since a repository was last removed.

# One call

`Call.effect` is what a call does to a store, whatever its answer
(`Change.store_run`): a call that failed does nothing. From it follow the two
equations that carry the runs, for the nodes (`nodes_effect`) and for the
edges of a repository (`edgesOf_effect`).

# Runs

The induction is over the calls from the last one backwards, since both
`edgesSince` and `annotated` are about what came last. Faults may be on the
schedules of the service; they show in the answers and nowhere else.

Rows are followed as a whole. That the tables keep them column by column, and
that reading the columns gives the rows back, is shown in
`CodeMap.Proofs.Store.Statements`.
-/
import CodeMap.Proofs.Store.Calls
import CodeMap.Proofs.Store.Isolation
import Mathlib.Data.List.DropRight

namespace CodeMap

-- ================================================================= refusals

namespace Store

theorem fits_eq_false_iff (line : Option Nat) :
    fits line = false ↔ ∃ l, line = some l ∧ maxLine < l := by
  cases line with
  | none => simp [fits]
  | some l => simp [fits]

/-- A row does not fit if one of its lines is too large. -/
theorem not_fits_iff (n : NodeRow) :
    ¬n.Fits ↔ ∃ l, (n.startLine = some l ∨ n.endLine = some l) ∧ maxLine < l := by
  rw [NodeRow.Fits, not_and_or, Bool.not_eq_true, Bool.not_eq_true, fits_eq_false_iff,
    fits_eq_false_iff]
  constructor
  · rintro (⟨l, hl, hlarge⟩ | ⟨l, hl, hlarge⟩)
    · exact ⟨l, .inl hl, hlarge⟩
    · exact ⟨l, .inr hl, hlarge⟩
  · rintro ⟨l, hl | hl, hlarge⟩
    · exact .inl ⟨l, hl, hlarge⟩
    · exact .inr ⟨l, hl, hlarge⟩

/-- A batch is accepted if each of its rows is, after the rows before it. -/
theorem acceptsNodes_iff_each {s : Store} {rows : List NodeRow} :
    s.AcceptsNodes rows ↔
      ∀ earlier n later, rows = earlier ++ n :: later → (s.addNodes earlier).AcceptsNodes [n] := by
  constructor
  · rintro h earlier n later rfl
    have hrest := ((acceptsNodes_append s earlier (n :: later)).mp h).2
    exact ((acceptsNodes_append (s.addNodes earlier) [n] later).mp hrest).1
  · intro h
    induction rows using List.reverseRecOn with
    | nil => exact acceptsNodes_nil s
    | append_singleton rows n ih =>
        refine (acceptsNodes_append s rows [n]).mpr ⟨ih fun earlier m later heq => ?_, ?_⟩
        · exact h earlier m (later ++ [n]) (by rw [heq, List.append_assoc, List.cons_append])
        · exact h rows n [] rfl

/-- An insert fails exactly if some row repeats a stored key or the key of an
earlier row, or has a line that is too large. -/
theorem insertNodes_eq_error_iff {s : Store} {rows : List NodeRow} :
    (∃ fault, s.insertNodes rows = .error fault) ↔
      ∃ earlier n later, rows = earlier ++ n :: later ∧
        (n.key ∈ s.nodes.map NodeRow.key ∨ n.key ∈ earlier.map NodeRow.key
          ∨ ∃ l, (n.startLine = some l ∨ n.endLine = some l) ∧ maxLine < l) := by
  have hfails : (∃ fault, s.insertNodes rows = .error fault) ↔ ¬s.AcceptsNodes rows := by
    cases hresult : s.insertNodes rows with
    | error fault =>
        have hno : ¬s.AcceptsNodes rows := by
          intro haccept
          have hok := insertNodes_eq_ok_iff.mpr ⟨haccept, rfl⟩
          rw [hresult] at hok
          cases hok
        exact ⟨fun _ => hno, fun _ => ⟨fault, rfl⟩⟩
    | ok t => simp [(insertNodes_eq_ok_iff.mp hresult).1]
  rw [hfails, acceptsNodes_iff_each]
  have hrow : ∀ earlier (n : NodeRow), ¬(s.addNodes earlier).AcceptsNodes [n] ↔
      n.key ∈ s.nodes.map NodeRow.key ∨ n.key ∈ earlier.map NodeRow.key
        ∨ ∃ l, (n.startLine = some l ∨ n.endLine = some l) ∧ maxLine < l := by
    intro earlier n
    rw [acceptsNodes_singleton, not_and_or, not_fits_iff, not_not, nodes_addNodes,
      List.map_append, List.mem_append, or_comm, or_assoc]
  simp only [not_forall, exists_prop, hrow]

-- =============================================================== docstrings

theorem key_withDocstring (repo id text : String) (n : NodeRow) :
    (withDocstring repo id text n).key = n.key := by
  unfold withDocstring
  split <;> rfl

theorem Keyed.setDocstring {s : Store} (h : s.Keyed) (repo id text : String) :
    (s.setDocstring repo id text).2.Keyed := by
  have hsame : NodeRow.key ∘ withDocstring repo id text = NodeRow.key :=
    funext (key_withDocstring repo id text)
  show ((s.nodes.map (withDocstring repo id text)).map NodeRow.key).Nodup
  rw [List.map_map, hsame]
  exact h

end Store

-- ==================================================================== calls

/-- A call that can alter a store. -/
inductive Change where
  | insert (batch : Batch)
  | deleteRepo (repo : String)
  | setDocstring (repo id text : String)

/-- The answer to a change, and the service after it. -/
def Change.run (s : Service) : Change → Except Fault Unit × Service
  | insert batch => batch.insert.run.run s
  | deleteRepo repo =>
    match (Session.deleteRepo repo).run.run s with
    | (.ok _, t) => (.ok (), t)
    | (.error fault, t) => (.error fault, t)
  | setDocstring repo id text =>
    (.ok (), { s with store := (s.store.setDocstring repo id text).2 })

/-- A change and its answer. -/
structure Call where
  change : Change
  answer : Except Fault Unit

namespace Call

/-- The nodes that a call stored. -/
def nodes (call : Call) : List NodeRow :=
  match call.answer, call.change with
  | .ok _, .insert (.nodes rows) => rows
  | _, _ => []

/-- The edges that a call stored. -/
def edges (call : Call) : List EdgeRow :=
  match call.answer, call.change with
  | .ok _, .insert (.edges rows) => rows
  | _, _ => []

/-- Whether a call removed a repository. -/
def removes (repo : String) (call : Call) : Bool :=
  match call.answer, call.change with
  | .ok _, .deleteRepo other => other == repo
  | _, _ => false

/-- The text that a call attached to the node with a key. -/
def text? (repo id : String) (call : Call) : Option String :=
  match call.answer, call.change with
  | .ok _, .setDocstring repo' id' text => if repo' = repo ∧ id' = id then some text else none
  | _, _ => none

/-- What a call makes of a node that was there before. -/
def annotate (call : Call) (n : NodeRow) : NodeRow :=
  { n with docstring := (call.text? n.repoId n.nodeId).or n.docstring }

/-- What a call does to a store: nothing if it failed. -/
def effect (s : Store) (call : Call) : Store :=
  match call.answer, call.change with
  | .error _, _ => s
  | .ok _, .insert batch => batch.addTo s
  | .ok _, .deleteRepo repo => (s.deleteRepo repo).2
  | .ok _, .setDocstring repo id text => (s.setDocstring repo id text).2

end Call

namespace Change

/-- The store after a change is what the call makes of the store before it. -/
theorem store_run {c : Change} {s t : Service} {answer : Except Fault Unit}
    (h : c.run s = (answer, t)) : t.store = Call.effect s.store ⟨c, answer⟩ := by
  cases c with
  | insert batch =>
      cases answer with
      | error fault => exact Batch.run_insert_error h
      | ok => exact (Batch.run_insert_ok h).2
  | deleteRepo repo =>
      dsimp only [Change.run] at h
      rcases hrun : (Session.deleteRepo repo).run.run s with ⟨fault | removed, u⟩
      · rw [hrun] at h
        cases h
        exact Session.run_deleteRepo_error hrun
      · rw [hrun] at h
        cases h
        exact Session.run_deleteRepo_ok hrun
  | setDocstring repo id text =>
      cases h
      rfl

/-- No change makes two nodes share a key. -/
theorem keyed_run (c : Change) {s : Service} (h : s.store.Keyed) : (c.run s).2.store.Keyed := by
  rcases hrun : c.run s with ⟨answer, t⟩
  rw [store_run hrun]
  cases answer with
  | error fault => exact h
  | ok =>
      cases c with
      | insert batch =>
          have haccept := (Batch.run_insert_ok hrun).1
          cases batch with
          | nodes rows => exact h.addNodes haccept
          | edges rows => exact h
      | deleteRepo repo => exact h.deleteRepo repo
      | setDocstring repo id text => exact h.setDocstring repo id text

end Change

namespace Call

/-- A call that neither removes nor attaches anything leaves the nodes that
were there alone. -/
theorem kept_eq_self {call : Call} (hremoves : ∀ repo, call.removes repo = false)
    (htext : ∀ repo id, call.text? repo id = none) (rows : List NodeRow) :
    (rows.filter fun n => !call.removes n.repoId).map call.annotate = rows := by
  have hfilter : (rows.filter fun n => !call.removes n.repoId) = rows := by
    rw [List.filter_eq_self]
    intro n _
    rw [hremoves]
    rfl
  have hsame : ∀ n ∈ rows, call.annotate n = n := by
    intro n _
    rw [annotate, htext, Option.none_or]
  rw [hfilter, List.map_congr_left hsame, List.map_id']

/-- The nodes after a call: those that it did not remove, with the text that it
attached, and those that it stored. -/
theorem nodes_effect (call : Call) (s : Store) :
    (call.effect s).nodes
      = (s.nodes.filter fun n => !call.removes n.repoId).map call.annotate ++ call.nodes := by
  obtain ⟨change, fault | _⟩ := call
  · rw [kept_eq_self (fun _ => rfl) (fun _ _ => rfl)]
    exact (List.append_nil _).symm
  · cases change with
    | insert batch =>
        cases batch with
        | nodes rows =>
            rw [kept_eq_self (fun _ => rfl) (fun _ _ => rfl)]
            rfl
        | edges rows =>
            rw [kept_eq_self (fun _ => rfl) (fun _ _ => rfl)]
            exact (List.append_nil _).symm
    | deleteRepo repo =>
        have hfilter : (s.nodes.filter fun n => !(n.repoId == repo))
            = s.nodes.filter fun n => !(repo == n.repoId) :=
          List.filter_congr fun n _ => by rw [BEq.comm]
        exact hfilter.trans ((List.map_id' _).symm.trans (List.append_nil _).symm)
    | setDocstring repo id text =>
        have hrow : ∀ n : NodeRow, Store.withDocstring repo id text n
            = annotate ⟨.setDocstring repo id text, .ok ()⟩ n := by
          intro n
          by_cases hkey : repo = n.repoId ∧ id = n.nodeId
          · simp [Store.withDocstring, annotate, text?, hkey]
          · have hno : ¬(n.repoId = repo ∧ n.nodeId = id) := fun h => hkey ⟨h.1.symm, h.2.symm⟩
            simp [Store.withDocstring, annotate, text?, hkey, hno]
        have hfilter : (s.nodes.filter fun _ => true) = s.nodes := List.filter_true s.nodes
        show s.nodes.map (Store.withDocstring repo id text)
          = (s.nodes.filter fun _ => true).map (annotate ⟨.setDocstring repo id text, .ok ()⟩) ++ []
        rw [hfilter, List.append_nil, funext hrow]

/-- The edges of a repository after a call: those that were there, unless it
removed the repository, and those that it stored. -/
theorem edgesOf_effect (call : Call) (s : Store) (repo : String) :
    (call.effect s).edgesOf repo
      = (if call.removes repo then [] else s.edgesOf repo)
        ++ call.edges.filter (·.repoId == repo) := by
  obtain ⟨change, fault | _⟩ := call
  · exact (List.append_nil _).symm
  · cases change with
    | insert batch =>
        cases batch with
        | nodes rows => exact (List.append_nil _).symm
        | edges rows => exact Store.edgesOf_addEdges s rows repo
    | deleteRepo other =>
        show (s.deleteRepo other).2.edgesOf repo
          = (if (other == repo) = true then [] else s.edgesOf repo) ++ []
        rw [List.append_nil]
        by_cases hother : other = repo
        · rw [hother, beq_self_eq_true, if_pos rfl, Store.edgesOf_deleteRepo]
        · rw [if_neg (by rwa [beq_iff_eq])]
          exact (Store.sameRows_deleteRepo s (Ne.symm hother)).edgesOf
    | setDocstring => exact (List.append_nil _).symm

end Call

-- ===================================================================== runs

namespace Service

/-- The service after some changes. -/
def after (s : Service) (changes : List Change) : Service :=
  changes.foldl (fun s c => (c.run s).2) s

/-- The changes of a run with their answers. -/
def calls (s : Service) : List Change → List Call
  | [] => []
  | c :: rest => ⟨c, (c.run s).1⟩ :: calls (c.run s).2 rest

theorem after_concat (s : Service) (changes : List Change) (c : Change) :
    s.after (changes ++ [c]) = (c.run (s.after changes)).2 := by
  rw [after, List.foldl_append]
  rfl

theorem calls_concat (s : Service) (changes : List Change) (c : Change) :
    s.calls (changes ++ [c]) = s.calls changes ++ [⟨c, (c.run (s.after changes)).1⟩] := by
  induction changes generalizing s with
  | nil => rfl
  | cons d rest ih =>
      rw [List.cons_append, calls, ih, calls]
      rfl

/-- One more change has the effect of its call. -/
theorem store_after_concat (s : Service) (changes : List Change) (c : Change) :
    (s.after (changes ++ [c])).store
      = Call.effect (s.after changes).store ⟨c, (c.run (s.after changes)).1⟩ := by
  rw [after_concat]
  exact Change.store_run rfl

/-- No run makes two nodes share a key. -/
theorem keyed_after (changes : List Change) : ∀ {s : Service}, s.store.Keyed →
    (s.after changes).store.Keyed := by
  induction changes with
  | nil =>
      intro s h
      exact h
  | cons c rest ih =>
      intro s h
      exact ih (c.keyed_run h)

end Service

/-- A row was stored by one of some calls and not removed by a later one;
`since` are the calls that came after it. -/
def Stored (calls : List Call) (n : NodeRow) (since : List Call) : Prop :=
  ∃ before call, calls = before ++ call :: since ∧ n ∈ call.nodes
    ∧ ∀ later ∈ since, later.removes n.repoId = false

/-- A row with the text that was last attached to it, if any was. -/
def NodeRow.annotated (n : NodeRow) (since : List Call) : NodeRow :=
  { n with
    docstring := ((since.filterMap (Call.text? n.repoId n.nodeId)).getLast?).or n.docstring }

/-- The edges of a repository that were stored since it was last removed, in
the order in which they were stored. -/
def edgesSince (repo : String) (calls : List Call) : List EdgeRow :=
  ((calls.rtakeWhile fun call => !call.removes repo).flatMap Call.edges).filter (·.repoId == repo)

/-- The last call stored the row, or an earlier one did and the last did not
remove it. -/
theorem stored_concat_iff {calls since : List Call} {last : Call} {n : NodeRow} :
    Stored (calls ++ [last]) n since ↔
      (since = [] ∧ n ∈ last.nodes)
      ∨ ∃ earlier, since = earlier ++ [last] ∧ Stored calls n earlier
        ∧ last.removes n.repoId = false := by
  constructor
  · rintro ⟨before, call, hcalls, hn, hkept⟩
    rcases List.eq_nil_or_concat since with rfl | ⟨earlier, c, rfl⟩
    · obtain ⟨-, hlast⟩ := List.append_inj' hcalls rfl
      cases hlast
      exact .inl ⟨rfl, hn⟩
    · rw [List.concat_eq_append] at hcalls hkept ⊢
      rw [← List.cons_append, ← List.append_assoc] at hcalls
      obtain ⟨hearlier, hlast⟩ := List.append_inj' hcalls rfl
      cases hlast
      refine .inr ⟨earlier, rfl, ⟨before, call, hearlier, hn, fun c hc => ?_⟩, ?_⟩
      · exact hkept c (List.mem_append_left _ hc)
      · exact hkept last (List.mem_append_right _ (List.mem_singleton_self last))
  · rintro (⟨rfl, hn⟩ | ⟨earlier, rfl, ⟨before, call, rfl, hn, hkept⟩, hlast⟩)
    · exact ⟨calls, last, rfl, hn, by simp⟩
    · refine ⟨before, call, by simp, hn, fun c hc => ?_⟩
      rcases List.mem_append.mp hc with hc | hc
      · exact hkept c hc
      · rw [List.mem_singleton.mp hc]
        exact hlast

/-- A later text takes the place of an earlier one. -/
theorem annotated_concat (n : NodeRow) (since : List Call) (last : Call) :
    n.annotated (since ++ [last]) = last.annotate (n.annotated since) := by
  have htext : ((since ++ [last]).filterMap (Call.text? n.repoId n.nodeId)).getLast?
      = (last.text? n.repoId n.nodeId).or
        (since.filterMap (Call.text? n.repoId n.nodeId)).getLast? := by
    rw [List.filterMap_append, List.getLast?_append]
    cases hlast : last.text? n.repoId n.nodeId with
    | none => simp [hlast]
    | some text => simp [hlast]
  unfold NodeRow.annotated Call.annotate
  rw [htext, Option.or_assoc]

theorem edgesSince_concat (repo : String) (calls : List Call) (last : Call) :
    edgesSince repo (calls ++ [last])
      = (if last.removes repo then [] else edgesSince repo calls)
        ++ last.edges.filter (·.repoId == repo) := by
  unfold edgesSince
  rw [List.rtakeWhile_concat]
  cases hremoves : last.removes repo with
  | false => simp
  | true =>
      -- a removal stores no edges
      have hnone : last.edges = [] := by
        unfold Call.removes at hremoves
        split at hremoves
        next hanswer hchange => rw [Call.edges, hanswer, hchange]
        next => cases hremoves
      simp [hnone]

namespace Service

/-- The nodes after a run are the rows that its calls stored and did not
remove, each with the text that was attached to it last. -/
theorem mem_nodes_after {start : Service} (hstart : start.store = {}) (changes : List Change)
    (m : NodeRow) :
    m ∈ (start.after changes).store.nodes ↔
      ∃ n since, Stored (start.calls changes) n since ∧ m = n.annotated since := by
  induction changes using List.reverseRecOn generalizing m with
  | nil =>
      constructor
      · intro hm
        have hnone : m ∈ start.store.nodes := hm
        rw [hstart] at hnone
        cases hnone
      · rintro ⟨n, since, ⟨before, call, hcalls, -, -⟩, -⟩
        simp [calls] at hcalls
  | append_singleton changes c ih =>
      rw [store_after_concat, calls_concat, Call.nodes_effect, List.mem_append]
      generalize (⟨c, (c.run (start.after changes)).1⟩ : Call) = last
      constructor
      · rintro (hold | hnew)
        · obtain ⟨old, hfiltered, rfl⟩ := List.mem_map.mp hold
          obtain ⟨hmem, hkept⟩ := List.mem_filter.mp hfiltered
          obtain ⟨n, since, hstored, rfl⟩ := (ih old).mp hmem
          refine ⟨n, since ++ [last], stored_concat_iff.mpr (.inr ⟨since, rfl, hstored, ?_⟩),
            (annotated_concat n since last).symm⟩
          simpa [NodeRow.annotated] using hkept
        · exact ⟨m, [], stored_concat_iff.mpr (.inl ⟨rfl, hnew⟩), rfl⟩
      · rintro ⟨n, since, hstored, rfl⟩
        rcases stored_concat_iff.mp hstored with ⟨rfl, hn⟩ | ⟨earlier, rfl, hearlier, hkept⟩
        · exact .inr hn
        · refine .inl (List.mem_map.mpr ⟨n.annotated earlier, List.mem_filter.mpr ⟨?_, ?_⟩,
            (annotated_concat n earlier last).symm⟩)
          · exact (ih _).mpr ⟨n, earlier, hearlier, rfl⟩
          · simpa [NodeRow.annotated] using hkept

/-- The edges of a repository after a run are those that were stored since it
was last removed, in the order in which they were stored. -/
theorem edgesOf_after {start : Service} (hstart : start.store = {}) (changes : List Change)
    (repo : String) :
    (start.after changes).store.edgesOf repo = edgesSince repo (start.calls changes) := by
  induction changes using List.reverseRecOn with
  | nil =>
      show start.store.edgesOf repo = []
      rw [hstart]
      rfl
  | append_singleton changes c ih =>
      rw [store_after_concat, calls_concat, Call.edgesOf_effect, edgesSince_concat, ih]

end Service

/-- Stored rows are faithful and do not change except for docstrings, whatever
the run and whatever faults strike on the way. No two nodes share a key. An
insert of nodes fails exactly if a row repeats a stored key or the key of an
earlier row of its batch or has a line that is too large, and a call that
fails leaves the store as it was. A look-up returns exactly the row that was
stored under the key and not removed since, with the text that was attached to
it last. The edges that leave or arrive at a node are exactly those stored
since the repository was last removed, in the order in which they were stored,
so that each is listed as often at its source as at its target. -/
theorem stored_rows_are_faithful (schedules : Service) (changes : List Change) :
    let start : Service := { schedules with store := {} }
    let calls := start.calls changes
    let s := (start.after changes).store
    (s.nodes.map NodeRow.key).Nodup
    ∧ (∀ rows, (∃ fault, s.insertNodes rows = .error fault) ↔
        ∃ earlier n later, rows = earlier ++ n :: later ∧
          (n.key ∈ s.nodes.map NodeRow.key ∨ n.key ∈ earlier.map NodeRow.key
            ∨ ∃ l, (n.startLine = some l ∨ n.endLine = some l) ∧ Store.maxLine < l))
    ∧ (∀ (batch : Batch) (fault : Fault) (t : Service),
        batch.insert.run.run (start.after changes) = (.error fault, t) → t.store = s)
    ∧ (∀ repo id m, s.node? repo id = some m ↔
        ∃ n since, Stored calls n since ∧ n.key = (repo, id) ∧ m = n.annotated since)
    ∧ (∀ repo id, s.outgoing repo id = (edgesSince repo calls).filter (·.sourceId == id)
        ∧ s.incoming repo id = (edgesSince repo calls).filter (·.targetId == id))
    ∧ ∀ repo (e : EdgeRow),
        (s.outgoing repo e.sourceId).count e = (s.incoming repo e.targetId).count e := by
  intro start calls s
  have hkeyed : s.Keyed := Service.keyed_after changes List.nodup_nil
  have hedges : ∀ repo, s.edgesOf repo = edgesSince repo calls := Service.edgesOf_after rfl changes
  refine ⟨hkeyed, fun rows => Store.insertNodes_eq_error_iff, fun batch fault t h => ?_,
    fun repo id m => ?_, fun repo id => ?_, fun repo e => ?_⟩
  · exact Batch.run_insert_error h
  · rw [hkeyed.node?_eq_some_iff, Service.mem_nodes_after rfl]
    constructor
    · rintro ⟨⟨n, since, hstored, rfl⟩, hkey⟩
      exact ⟨n, since, hstored, hkey, rfl⟩
    · rintro ⟨n, since, hstored, hkey, rfl⟩
      exact ⟨⟨n, since, hstored, rfl⟩, hkey⟩
  · rw [Store.outgoing, Store.incoming, hedges]
    exact ⟨rfl, rfl⟩
  · have hcount : ∀ p : EdgeRow → Bool, p e = true →
        ((s.edgesOf repo).filter p).count e = (s.edgesOf repo).count e :=
      fun p hp => List.count_filter hp
    exact (hcount (·.sourceId == e.sourceId) (beq_self_eq_true _)).trans
      (hcount (·.targetId == e.targetId) (beq_self_eq_true _)).symm

end CodeMap
