/-
What the operations of a store do to its rows.

# Inserting

An insert appends its whole batch or nothing. `addNodes` and `addEdges` are
the stores that a successful insert leaves behind, and `AcceptsNodes` and
`AcceptsEdges` say when it succeeds, so that `insertNodes_eq_ok_iff` and
`insertEdges_eq_ok_iff` are all that later proofs know about inserting. Both
conditions pass from a list of rows to its parts (`acceptsNodes_append`,
`acceptsEdges_append`): what is accepted at once is accepted in batches.

# Reading

Every question about a repository is answered from the rows of that
repository, `nodesOf` and `edgesOf` (`sameAnswers_of_rows`). It is therefore
enough to follow these two lists through an operation.

# Keys

A `Keyed` store has no two nodes with one key, so that looking a key up finds
the row that has it (`Keyed.node?_eq_some_iff`). Every store that was filled
by inserts is keyed, since a batch with a taken key is not accepted.
-/
import CodeMap.Store
import Mathlib.Data.List.Nodup

namespace CodeMap

-- ======================================================= when rows fit

/-- What no two stored nodes share. -/
def NodeRow.key (n : NodeRow) : String × String := (n.repoId, n.nodeId)

/-- The lines of a node can be stored. -/
def NodeRow.Fits (n : NodeRow) : Prop :=
  Store.fits n.startLine = true ∧ Store.fits n.endLine = true

/-- The lines of an edge can be stored. -/
def EdgeRow.Fits (e : EdgeRow) : Prop :=
  (Store.fits e.refStartLine = true ∧ Store.fits e.refEndLine = true) ∧
    e.defStartLine ≤ Store.maxLine ∧ e.defEndLine ≤ Store.maxLine

namespace Store

-- ==================================================== stores with more rows

/-- The store with further nodes at its end. -/
def addNodes (s : Store) (rows : List NodeRow) : Store :=
  { s with nodes := s.nodes ++ rows }

/-- Edges with the numbers after `n`. -/
def numberFrom (n : Nat) : List EdgeRow → List (Nat × EdgeRow)
  | [] => []
  | e :: rest => (n + 1, e) :: numberFrom (n + 1) rest

/-- The store with further edges at its end. -/
def addEdges (s : Store) (rows : List EdgeRow) : Store :=
  { s with
    edges := s.edges ++ numberFrom s.lastEdge rows
    lastEdge := s.lastEdge + rows.length }

@[simp] theorem nodes_addNodes (s : Store) (rows : List NodeRow) :
    (s.addNodes rows).nodes = s.nodes ++ rows := rfl

@[simp] theorem addNodes_nil (s : Store) : s.addNodes [] = s := by
  simp [addNodes]

@[simp] theorem addEdges_nil (s : Store) : s.addEdges [] = s := by
  simp [addEdges, numberFrom]

/-- Nodes are appended in one go or in two. -/
theorem addNodes_addNodes (s : Store) (as bs : List NodeRow) :
    (s.addNodes as).addNodes bs = s.addNodes (as ++ bs) := by
  simp [addNodes]

/-- Later edges are numbered on from the earlier ones. -/
theorem numberFrom_append (n : Nat) (as bs : List EdgeRow) :
    numberFrom n (as ++ bs)
      = numberFrom n as ++ numberFrom (n + as.length) bs := by
  induction as generalizing n with
  | nil => rfl
  | cons e rest ih =>
      have hn : n + 1 + rest.length = n + (rest.length + 1) := by omega
      simp only [List.cons_append, numberFrom, ih, List.length_cons, hn]

/-- Edges are appended in one go or in two, under the same numbers. -/
theorem addEdges_addEdges (s : Store) (as bs : List EdgeRow) :
    (s.addEdges as).addEdges bs = s.addEdges (as ++ bs) := by
  simp [addEdges, numberFrom_append, Nat.add_assoc]

/-- Numbering keeps the edges and their order. -/
@[simp] theorem map_snd_numberFrom (n : Nat) (rows : List EdgeRow) :
    (numberFrom n rows).map (·.2) = rows := by
  induction rows generalizing n with
  | nil => rfl
  | cons e rest ih => simp [numberFrom, ih]

/-- Numbers go up: every new one is larger than all that were given. -/
theorem lt_of_mem_numberFrom {n : Nat} {rows : List EdgeRow} {p : Nat × EdgeRow}
    (hp : p ∈ numberFrom n rows) : n < p.1 := by
  induction rows generalizing n with
  | nil => cases hp
  | cons e rest ih =>
      rcases List.mem_cons.mp hp with rfl | hp
      · exact Nat.lt_succ_self n
      · have := ih hp
        omega

-- ========================================================= all or nothing

/-- A batch inserted row by row, where one row is taken exactly if it is
accepted, is taken exactly if it is accepted as a whole. -/
private theorem foldlM_eq_ok_iff {α : Type} {insert : Store → α → Except Fault Store}
    {Accepts : Store → List α → Prop} {add : Store → List α → Store}
    (hnil : ∀ s, Accepts s [] ∧ add s [] = s)
    (hcons : ∀ s a rest, Accepts s (a :: rest) ↔ Accepts s [a] ∧ Accepts (add s [a]) rest)
    (hadd : ∀ s a rest, add (add s [a]) rest = add s (a :: rest))
    (hone : ∀ s t a, insert s a = .ok t ↔ Accepts s [a] ∧ t = add s [a]) :
    ∀ {rows : List α} {s t : Store},
      rows.foldlM insert s = .ok t ↔ Accepts s rows ∧ t = add s rows := by
  intro rows
  induction rows with
  | nil =>
      intro s t
      rw [(hnil s).2]
      simp [(hnil s).1, pure, Except.pure, eq_comm]
  | cons a rest ih =>
      intro s t
      rw [List.foldlM_cons, hcons, ← hadd s a rest]
      cases hstep : insert s a with
      | error fault =>
          have hno : ¬Accepts s [a] := by
            intro haccept
            have hok := (hone s _ a).mpr ⟨haccept, rfl⟩
            rw [hstep] at hok
            cases hok
          simp [bind, Except.bind, hno]
      | ok s₁ =>
          obtain ⟨haccept, rfl⟩ := (hone s s₁ a).mp hstep
          simp [bind, Except.bind, ih, haccept]

-- =========================================================== inserting nodes

/-- A batch of nodes can be inserted: its lines fit, its keys differ from each
other and from the stored ones. -/
structure AcceptsNodes (s : Store) (rows : List NodeRow) : Prop where
  fits : ∀ n ∈ rows, n.Fits
  distinct : (rows.map NodeRow.key).Nodup
  fresh : ∀ n ∈ rows, n.key ∉ s.nodes.map NodeRow.key

/-- A key is taken if some node has it. -/
theorem hasKey_eq_true_iff (s : Store) (repo id : String) :
    s.hasKey repo id = true ↔ (repo, id) ∈ s.nodes.map NodeRow.key := by
  simp [hasKey, NodeRow.key]

theorem acceptsNodes_nil (s : Store) : s.AcceptsNodes [] :=
  ⟨by simp, by simp, by simp⟩

theorem acceptsNodes_singleton {s : Store} {n : NodeRow} :
    s.AcceptsNodes [n] ↔ n.Fits ∧ n.key ∉ s.nodes.map NodeRow.key := by
  constructor
  · intro h
    exact ⟨h.fits n (by simp), h.fresh n (by simp)⟩
  · rintro ⟨hfit, hfresh⟩
    exact ⟨by simpa using hfit, by simp, by simpa using hfresh⟩

/-- Rows are accepted at once exactly when they are accepted one part after
the other. -/
theorem acceptsNodes_append (s : Store) (as bs : List NodeRow) :
    s.AcceptsNodes (as ++ bs) ↔ s.AcceptsNodes as ∧ (s.addNodes as).AcceptsNodes bs := by
  constructor
  · rintro ⟨hfits, hdistinct, hfresh⟩
    rw [List.map_append, List.nodup_append] at hdistinct
    obtain ⟨has, hbs, hdisj⟩ := hdistinct
    refine ⟨⟨fun n hn => hfits n (by simp [hn]), has, fun n hn => hfresh n (by simp [hn])⟩,
      fun n hn => hfits n (by simp [hn]), hbs, fun n hn => ?_⟩
    rw [nodes_addNodes, List.map_append, List.mem_append]
    rintro (hold | hnew)
    · exact hfresh n (by simp [hn]) hold
    · exact hdisj _ hnew _ (List.mem_map_of_mem hn) rfl
  · rintro ⟨ha, hb⟩
    have hsplit : ∀ n ∈ bs,
        n.key ∉ s.nodes.map NodeRow.key ∧ n.key ∉ as.map NodeRow.key := by
      intro n hn
      have hfresh := hb.fresh n hn
      rw [nodes_addNodes, List.map_append, List.mem_append, not_or] at hfresh
      exact hfresh
    refine ⟨fun n hn => ?_, ?_, fun n hn => ?_⟩
    · rcases List.mem_append.mp hn with hn | hn
      · exact ha.fits n hn
      · exact hb.fits n hn
    · rw [List.map_append, List.nodup_append]
      refine ⟨ha.distinct, hb.distinct, fun a hmema b hmemb heq => ?_⟩
      obtain ⟨n, hn, rfl⟩ := List.mem_map.mp hmemb
      exact (hsplit n hn).2 (heq ▸ hmema)
    · rcases List.mem_append.mp hn with hn | hn
      · exact ha.fresh n hn
      · exact (hsplit n hn).1

/-- One node is inserted exactly if it fits and its key is free. -/
theorem insertNode_eq_ok_iff (s t : Store) (n : NodeRow) :
    s.insertNode n = .ok t ↔ s.AcceptsNodes [n] ∧ t = s.addNodes [n] := by
  have hkey : n.key ∉ s.nodes.map NodeRow.key ↔ ¬s.hasKey n.repoId n.nodeId = true :=
    not_congr (hasKey_eq_true_iff s n.repoId n.nodeId).symm
  rw [acceptsNodes_singleton, hkey]
  unfold insertNode NodeRow.Fits
  by_cases hfit : fits n.startLine = true ∧ fits n.endLine = true
  · by_cases hk : s.hasKey n.repoId n.nodeId = true
    · simp [hfit, hk]
    · simp [hfit, hk, addNodes, eq_comm]
  · have hno : (fits n.startLine && fits n.endLine) = false := by
      rw [← Bool.and_eq_true] at hfit
      exact Bool.eq_false_iff.mpr hfit
    simp [hno, hfit]

/-- Inserting nodes succeeds exactly when they are accepted, and then appends
them. -/
theorem insertNodes_eq_ok_iff {s t : Store} {rows : List NodeRow} :
    s.insertNodes rows = .ok t ↔ s.AcceptsNodes rows ∧ t = s.addNodes rows :=
  foldlM_eq_ok_iff (fun s => ⟨acceptsNodes_nil s, addNodes_nil s⟩)
    (fun s a rest => acceptsNodes_append s [a] rest)
    (fun s a rest => addNodes_addNodes s [a] rest) insertNode_eq_ok_iff

-- =========================================================== inserting edges

/-- A batch of edges can be inserted: its lines fit. -/
def AcceptsEdges (rows : List EdgeRow) : Prop := ∀ e ∈ rows, e.Fits

/-- Edges fit one by one. -/
theorem acceptsEdges_append (as bs : List EdgeRow) :
    AcceptsEdges (as ++ bs) ↔ AcceptsEdges as ∧ AcceptsEdges bs := by
  simp only [AcceptsEdges, List.mem_append]
  exact ⟨fun h => ⟨fun e he => h e (.inl he), fun e he => h e (.inr he)⟩,
    fun h e he => he.elim (h.1 e) (h.2 e)⟩

/-- One edge is inserted exactly if it fits. -/
theorem insertEdge_eq_ok_iff (s t : Store) (e : EdgeRow) :
    s.insertEdge e = .ok t ↔ AcceptsEdges [e] ∧ t = s.addEdges [e] := by
  have hfits : [e.refStartLine, e.refEndLine, some e.defStartLine, some e.defEndLine].all fits
      = true ↔ AcceptsEdges [e] := by
    simp [AcceptsEdges, EdgeRow.Fits, fits, and_assoc]
  unfold insertEdge
  by_cases h : AcceptsEdges [e]
  · rw [if_pos (hfits.mpr h)]
    simp [h, addEdges, numberFrom, eq_comm]
  · rw [if_neg (fun hall => h (hfits.mp hall))]
    simp [h]

/-- Inserting edges succeeds exactly when they are accepted, and then appends
them under the next numbers. -/
theorem insertEdges_eq_ok_iff {s t : Store} {rows : List EdgeRow} :
    s.insertEdges rows = .ok t ↔ AcceptsEdges rows ∧ t = s.addEdges rows :=
  foldlM_eq_ok_iff (fun s => ⟨by simp [AcceptsEdges], addEdges_nil s⟩)
    (fun _ a rest => acceptsEdges_append [a] rest)
    (fun s a rest => addEdges_addEdges s [a] rest) insertEdge_eq_ok_iff

-- ==================================================== one repository's rows

/-- The edge rows of a repository with their numbers. -/
def numberedEdgesOf (s : Store) (repo : String) : List (Nat × EdgeRow) :=
  s.edges.filter (·.2.repoId == repo)

/-- Two stores hold the same rows of a repository. -/
structure SameRows (repo : String) (s t : Store) : Prop where
  nodes : s.nodesOf repo = t.nodesOf repo
  edges : s.numberedEdgesOf repo = t.numberedEdgesOf repo

theorem edgesOf_eq_map (s : Store) (repo : String) :
    s.edgesOf repo = (s.numberedEdgesOf repo).map (·.2) := by
  simp only [edgesOf, numberedEdgesOf, List.filter_map]
  rfl

theorem SameRows.refl (repo : String) (s : Store) : SameRows repo s s := ⟨rfl, rfl⟩

theorem SameRows.trans {repo : String} {s t u : Store} (h : SameRows repo s t)
    (h' : SameRows repo t u) : SameRows repo s u :=
  ⟨h.nodes.trans h'.nodes, h.edges.trans h'.edges⟩

theorem SameRows.edgesOf {repo : String} {s t : Store} (h : SameRows repo s t) :
    s.edgesOf repo = t.edgesOf repo := by
  rw [edgesOf_eq_map, edgesOf_eq_map, h.edges]

/-- New nodes of a repository follow those that it had. -/
theorem nodesOf_addNodes (s : Store) (rows : List NodeRow) (repo : String) :
    (s.addNodes rows).nodesOf repo
      = s.nodesOf repo ++ rows.filter (·.repoId == repo) := by
  simp [nodesOf]

@[simp] theorem nodesOf_addEdges (s : Store) (rows : List EdgeRow) (repo : String) :
    (s.addEdges rows).nodesOf repo = s.nodesOf repo := rfl

@[simp] theorem edgesOf_addNodes (s : Store) (rows : List NodeRow) (repo : String) :
    (s.addNodes rows).edgesOf repo = s.edgesOf repo := rfl

/-- New edges of a repository follow those that it had. -/
theorem edgesOf_addEdges (s : Store) (rows : List EdgeRow) (repo : String) :
    (s.addEdges rows).edgesOf repo
      = s.edgesOf repo ++ rows.filter (·.repoId == repo) := by
  simp [edgesOf, addEdges]

/-- Nodes of one repository leave the rows of the others alone. -/
theorem sameRows_addNodes (s : Store) {rows : List NodeRow} {repo other : String}
    (hrows : ∀ n ∈ rows, n.repoId = repo) (hother : other ≠ repo) :
    SameRows other (s.addNodes rows) s := by
  have hnone : rows.filter (·.repoId == other) = [] := by
    rw [List.filter_eq_nil_iff]
    intro n hn
    rw [hrows n hn, beq_iff_eq]
    exact hother.symm
  exact ⟨by rw [nodesOf_addNodes, hnone, List.append_nil], rfl⟩

/-- Edges of one repository leave the rows of the others alone. -/
theorem sameRows_addEdges (s : Store) {rows : List EdgeRow} {repo other : String}
    (hrows : ∀ e ∈ rows, e.repoId = repo) (hother : other ≠ repo) :
    SameRows other (s.addEdges rows) s := by
  have hnone : (numberFrom s.lastEdge rows).filter (·.2.repoId == other) = [] := by
    rw [List.filter_eq_nil_iff]
    intro p hp
    have hmem : p.2 ∈ (numberFrom s.lastEdge rows).map (·.2) := List.mem_map_of_mem hp
    rw [map_snd_numberFrom] at hmem
    rw [hrows p.2 hmem, beq_iff_eq]
    exact hother.symm
  refine ⟨rfl, ?_⟩
  show (s.edges ++ numberFrom s.lastEdge rows).filter (·.2.repoId == other) = _
  rw [List.filter_append, hnone, List.append_nil]
  rfl

@[simp] theorem nodesOf_deleteRepo (s : Store) (repo : String) :
    (s.deleteRepo repo).2.nodesOf repo = [] := by
  simp [deleteRepo, nodesOf, List.filter_filter]

@[simp] theorem edgesOf_deleteRepo (s : Store) (repo : String) :
    (s.deleteRepo repo).2.edgesOf repo = [] := by
  simp [deleteRepo, edgesOf]

/-- Edges that are added where a repository had none have new numbers. -/
theorem lastEdge_lt_of_mem {s : Store} {repo : String} (hnone : s.edgesOf repo = [])
    {rows : List EdgeRow} :
    ∀ p ∈ (s.addEdges rows).numberedEdgesOf repo, s.lastEdge < p.1 := by
  intro p hp
  rw [edgesOf_eq_map, List.map_eq_nil_iff] at hnone
  have hsplit : (s.addEdges rows).numberedEdgesOf repo
      = s.numberedEdgesOf repo ++ (numberFrom s.lastEdge rows).filter (·.2.repoId == repo) :=
    List.filter_append s.edges (numberFrom s.lastEdge rows)
  rw [hsplit, hnone, List.nil_append] at hp
  exact lt_of_mem_numberFrom (List.mem_filter.mp hp).1

/-- Removing a repository leaves the rows of the others alone. -/
theorem sameRows_deleteRepo (s : Store) {repo other : String} (hother : other ≠ repo) :
    SameRows other (s.deleteRepo repo).2 s := by
  have hkeep : ∀ id : String, ((id == other) && (id != repo)) = (id == other) := by
    intro id
    by_cases hid : id = other
    · subst hid
      simp [hother]
    · simp [hid]
  constructor
  · simp [deleteRepo, nodesOf, List.filter_filter, hkeep]
  · simp [deleteRepo, numberedEdgesOf, List.filter_filter, hkeep]

-- ================================================================= reading

/-- Two stores answer every question about a repository alike. -/
structure SameAnswers (repo : String) (s t : Store) : Prop where
  node? : ∀ id, s.node? repo id = t.node? repo id
  outgoing : ∀ id, s.outgoing repo id = t.outgoing repo id
  incoming : ∀ id, s.incoming repo id = t.incoming repo id
  nodesInFile : ∀ path, s.nodesInFile repo path = t.nodesInFile repo path
  nodesUnderPath : ∀ path, s.nodesUnderPath repo path = t.nodesUnderPath repo path
  findByName : ∀ name, s.findByName repo name = t.findByName repo name
  counts : s.counts repo = t.counts repo

/-- Looking a node up only reads the nodes of its repository. -/
theorem node?_eq_find? (s : Store) (repo id : String) :
    s.node? repo id = (s.nodesOf repo).find? (·.nodeId == id) := by
  rw [nodesOf, List.find?_filter, Store.node?]
  congr 1
  funext n
  rw [Bool.eq_iff_iff, Bool.and_eq_true, decide_eq_true_eq]

/-- Every question about a repository is answered from its rows. -/
theorem sameAnswers_of_rows {repo : String} {s t : Store}
    (hnodes : s.nodesOf repo = t.nodesOf repo) (hedges : s.edgesOf repo = t.edgesOf repo) :
    SameAnswers repo s t where
  node? id := by rw [node?_eq_find?, node?_eq_find?, hnodes]
  outgoing id := by rw [Store.outgoing, Store.outgoing, hedges]
  incoming id := by rw [Store.incoming, Store.incoming, hedges]
  nodesInFile path := by rw [Store.nodesInFile, Store.nodesInFile, hnodes]
  nodesUnderPath path := by rw [Store.nodesUnderPath, Store.nodesUnderPath, hnodes]
  findByName name := by rw [Store.findByName, Store.findByName, hnodes]
  counts := by rw [Store.counts, Store.counts, hnodes, hedges]

-- ==================================================================== keys

/-- No two stored nodes share a key. -/
def Keyed (s : Store) : Prop := (s.nodes.map NodeRow.key).Nodup

instance (s : Store) : Decidable s.Keyed :=
  inferInstanceAs (Decidable (s.nodes.map NodeRow.key).Nodup)

/-- Accepted rows have keys of their own. -/
theorem Keyed.addNodes {s : Store} (h : s.Keyed) {rows : List NodeRow}
    (haccept : s.AcceptsNodes rows) : (s.addNodes rows).Keyed := by
  show ((s.nodes ++ rows).map NodeRow.key).Nodup
  rw [List.map_append, List.nodup_append]
  refine ⟨h, haccept.distinct, fun a ha b hb heq => ?_⟩
  obtain ⟨n, hn, rfl⟩ := List.mem_map.mp hb
  exact haccept.fresh n hn (heq ▸ ha)

/-- Removing rows frees keys and repeats none. -/
theorem Keyed.deleteRepo {s : Store} (h : s.Keyed) (repo : String) :
    (s.deleteRepo repo).2.Keyed :=
  h.sublist (List.filter_sublist.map NodeRow.key)

/-- What a look-up compares is the key. -/
theorem key_eq_iff (n : NodeRow) (repo id : String) :
    (n.repoId == repo && n.nodeId == id) = true ↔ n.key = (repo, id) := by
  rw [Bool.and_eq_true, beq_iff_eq, beq_iff_eq, NodeRow.key, Prod.mk.injEq]

/-- What a look-up finds is stored under the key. -/
theorem mem_of_node?_eq_some {s : Store} {repo id : String} {n : NodeRow}
    (h : s.node? repo id = some n) : n ∈ s.nodes ∧ n.key = (repo, id) := by
  have hmatch := List.find?_some h
  exact ⟨List.mem_of_find?_eq_some h, (key_eq_iff n repo id).mp hmatch⟩

/-- Looking a key up finds exactly the row that has it. -/
theorem Keyed.node?_eq_some_iff {s : Store} (h : s.Keyed) {repo id : String} {n : NodeRow} :
    s.node? repo id = some n ↔ n ∈ s.nodes ∧ n.key = (repo, id) := by
  constructor
  · exact mem_of_node?_eq_some
  · rintro ⟨hmem, hkey⟩
    cases hfound : s.node? repo id with
    | none =>
        have hno := List.find?_eq_none.mp hfound n hmem
        rw [key_eq_iff] at hno
        exact absurd hkey hno
    | some m =>
        obtain ⟨hmem', hkey'⟩ := mem_of_node?_eq_some hfound
        rw [List.inj_on_of_nodup_map h hmem' hmem (hkey'.trans hkey.symm)]

/-- The rows of a repository are those that their own ids find. -/
theorem Keyed.node?_nodeId_iff {s : Store} (h : s.Keyed) {repo : String} {n : NodeRow} :
    s.node? repo n.nodeId = some n ↔ n ∈ s.nodesOf repo := by
  rw [h.node?_eq_some_iff, nodesOf, List.mem_filter, NodeRow.key, Prod.mk.injEq, beq_iff_eq]
  simp

end Store

end CodeMap
