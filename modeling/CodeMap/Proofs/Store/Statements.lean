/-
What the statements of a graph store put into its tables is what they get out.

# Columns

An insert fills columns by name and a selection asks for them by name, while
the table keeps its own order. `selected_inserted` is about any table: columns
that are distinct and declared come back as they were given, whatever the
order of the declaration. Both kinds of rows are instances of it, and since a
row is read back from its own parameters (`ofValues?_parameters`), what is
selected of a record is the row that was inserted.

# Selections

A selection goes through records; the questions of a store go through rows.
`mapM_matching` moves the condition and the order from the records to the
rows, and each question of the store is then the answer to its statement. Edges
are selected in the order of their numbers, which is the order of insertion in
every store that gave the numbers itself (`Numbered`).
-/
import CodeMap.Store.Statements
import CodeMap.Proofs.Order
import CodeMap.Proofs.Store.Fidelity
import Mathlib.Data.String.Basic

namespace CodeMap

open Sql

namespace Sql

-- ================================================================== columns

/-- A name finds the value that was computed from it. -/
theorem lookup_zip_map {β : Type} (names : List String) (f : String → β) (name : String) :
    (names.zip (names.map f)).lookup name = if name ∈ names then some (f name) else none := by
  induction names with
  | nil => rfl
  | cons first rest ih =>
      rw [List.map_cons, List.zip_cons_cons, List.lookup_cons, ih]
      by_cases hfirst : name = first
      · rw [hfirst, beq_self_eq_true, if_pos List.mem_cons_self]
      · have hmem : name ∈ first :: rest ↔ name ∈ rest := by simp [hfirst]
        rw [beq_false_of_ne hfirst]
        simp only [hmem]

/-- Distinct names look up what they were zipped with. -/
theorem map_lookup_zip {β : Type} {names : List String} (hdistinct : names.Nodup)
    {values : List β} (hlength : names.length = values.length) :
    names.map (fun name => (names.zip values).lookup name) = values.map some := by
  induction names generalizing values with
  | nil =>
      rw [List.length_nil, eq_comm, List.length_eq_zero_iff] at hlength
      rw [hlength]
      rfl
  | cons first rest ih =>
      obtain ⟨value, others, rfl⟩ : ∃ value others, values = value :: others := by
        cases values with
        | nil => cases hlength
        | cons value others => exact ⟨value, others, rfl⟩
      obtain ⟨hfirst, hrest⟩ := List.nodup_cons.mp hdistinct
      have hlater : ∀ name ∈ rest, ((first :: rest).zip (value :: others)).lookup name
          = (rest.zip others).lookup name := by
        intro name hname
        have hne : (name == first) = false := beq_false_of_ne fun h => hfirst (h ▸ hname)
        rw [List.zip_cons_cons, List.lookup_cons, hne]
      rw [List.map_cons, List.map_cons, List.map_congr_left hlater,
        ih hrest (Nat.succ.inj hlength), List.zip_cons_cons, List.lookup_cons, beq_self_eq_true]

namespace TableDeclaration

variable {d : TableDeclaration} {columns : List String} {parameters : List Value}

/-- A declared column has the parameter that an insert gives under its name. -/
theorem value_inserted {name : String} (hdeclared : name ∈ d.names) (unfilled : Value) :
    d.value (d.inserted columns parameters unfilled) name
      = ((columns.zip parameters).lookup name).getD unfilled := by
  rw [value, inserted, lookup_zip_map, if_pos hdeclared, Option.getD_some]

/-- Selecting the columns that an insert filled gives its parameters back. -/
theorem selected_inserted (hdeclared : ∀ name ∈ columns, name ∈ d.names)
    (hdistinct : columns.Nodup) (hlength : columns.length = parameters.length)
    (unfilled : Value) :
    d.selected columns (d.inserted columns parameters unfilled) = parameters := by
  have hvalue : ∀ name ∈ columns, d.value (d.inserted columns parameters unfilled) name
      = ((columns.zip parameters).lookup name).getD unfilled :=
    fun name hname => value_inserted (hdeclared name hname) unfilled
  calc d.selected columns (d.inserted columns parameters unfilled)
      = columns.map (fun name => ((columns.zip parameters).lookup name).getD unfilled) :=
        List.map_congr_left hvalue
    _ = (columns.map fun name => (columns.zip parameters).lookup name).map (·.getD unfilled) :=
        by rw [List.map_map]; rfl
    _ = (parameters.map some).map (·.getD unfilled) := by rw [map_lookup_zip hdistinct hlength]
    _ = parameters := by rw [List.map_map]; exact List.map_id parameters

end TableDeclaration

-- =================================================================== values

@[simp] theorem readOptional?_ofLine (line : Option Nat) :
    (ofLine line).readOptional? Value.readNatural? = some line := by
  cases line <;> rfl

@[simp] theorem readOptional?_ofText (text : Option String) :
    (ofText text).readOptional? Value.readText? = some text := by
  cases text <;> rfl

theorem isParameter_text (s : String) : (Value.text s).isParameter = true := rfl

/-- A number can be a parameter if it is no larger than the largest line. -/
theorem isParameter_integer (n : Nat) :
    (Value.integer n).isParameter = true ↔ n ≤ Store.maxLine := by
  unfold Value.isParameter fitsSigned64 Store.maxLine
  rw [Bool.and_eq_true, decide_eq_true_eq, decide_eq_true_eq]
  omega

/-- A line can be a parameter if it can be stored. -/
theorem isParameter_ofLine (line : Option Nat) :
    (ofLine line).isParameter = Store.fits line := by
  cases line with
  | none => rfl
  | some l =>
      rw [Bool.eq_iff_iff, ofLine, isParameter_integer, Store.fits, Option.all_some,
        decide_eq_true_eq]

theorem isParameter_ofText (text : Option String) : (ofText text).isParameter = true := by
  cases text <;> rfl

theorem order_ofLine (a b : Option Nat) : (ofLine a).order (ofLine b) = NodeRow.orderLine a b := by
  have hlines : ∀ m n : Nat, compare (m : Int) n = compare m n := by
    intro m n
    simp only [compare, compareOfLessAndEq, Int.ofNat_lt, Int.ofNat_inj]
  cases a with
  | none => cases b <;> rfl
  | some m =>
      cases b with
      | none => rfl
      | some n => exact hlines m n

end Sql

-- ===================================================================== rows

namespace NodeRow

/-- A node is what is read from its parameters. -/
theorem ofValues?_parameters (n : NodeRow) : ofValues? n.parameters = some n := by
  simp [ofValues?, parameters, Value.readText?]

/-- The table of nodes gives back what was inserted. -/
theorem selected_record (n : NodeRow) :
    TableDeclaration.nodes.selected columns n.record = n.parameters :=
  TableDeclaration.selected_inserted (by decide) (by decide) rfl .null

/-- What is selected of the record of a node is the node. -/
theorem ofValues?_selected_record (n : NodeRow) :
    ofValues? (TableDeclaration.nodes.selected columns n.record) = some n := by
  rw [selected_record, ofValues?_parameters]

/-- A node fits if each parameter of its insert can be one. -/
theorem fits_iff_parameters (n : NodeRow) :
    n.Fits ↔ ∀ v ∈ n.parameters, v.isParameter = true := by
  simp [parameters, isParameter_text, isParameter_ofLine, isParameter_ofText, Fits]

/-- Records are ordered as their rows are. -/
theorem order_record (a b : NodeRow) :
    orderRows (TableDeclaration.nodes.selected orderColumns a.record)
      (TableDeclaration.nodes.selected orderColumns b.record) = a.order b := by
  show (compare a.filePath b.filePath).then
    (((ofLine a.startLine).order (ofLine b.startLine)).then
      ((compare a.qualifiedName b.qualifiedName).then .eq)) = a.order b
  rw [order_ofLine, Ordering.then_eq]
  rfl

end NodeRow

namespace EdgeRow

/-- An edge is what is read from its parameters. -/
theorem ofValues?_parameters (e : EdgeRow) : ofValues? e.parameters = some e := by
  simp [ofValues?, parameters, Value.readText?, Value.readNatural?]

/-- The table of edges gives back what was inserted, whatever its number. -/
theorem selected_record (number : Nat) (e : EdgeRow) :
    TableDeclaration.edges.selected columns (e.record number) = e.parameters :=
  TableDeclaration.selected_inserted (by decide) (by decide) rfl (.integer number)

/-- What is selected of the record of an edge is the edge. -/
theorem ofValues?_selected_record (number : Nat) (e : EdgeRow) :
    ofValues? (TableDeclaration.edges.selected columns (e.record number)) = some e := by
  rw [selected_record, ofValues?_parameters]

/-- An edge fits if each parameter of its insert can be one. -/
theorem fits_iff_parameters (e : EdgeRow) :
    e.Fits ↔ ∀ v ∈ e.parameters, v.isParameter = true := by
  simp [parameters, isParameter_text, isParameter_ofLine, isParameter_integer, Fits, and_assoc]

end EdgeRow

-- =============================================================== selections

/-- Conditions and orders of records are conditions and orders of what the
records were made of, if that can be read from them. -/
theorem Sql.TableDeclaration.mapM_matching {α β : Type} {d : TableDeclaration}
    {columns : List String} {record : α → List Value} {f : α → β}
    {read? : List Value → Option β}
    (hread : ∀ a, read? (d.selected columns (record a)) = some (f a))
    (entries : List α) (condition : Condition) (order : List String) :
    (d.matching (entries.map record) condition order).mapM (fun r => read? (d.selected columns r))
      = some (((entries.filter fun a => condition (d.value (record a))).mergeSort fun a b =>
          (orderRows (d.selected order (record a)) (d.selected order (record b))).isLE).map f) := by
  have hread' : ((fun r => read? (d.selected columns r)) ∘ record) = fun a => some (f a) :=
    funext hread
  have hmap : d.matching (entries.map record) condition order
      = ((entries.filter fun a => condition (d.value (record a))).mergeSort fun a b =>
          (orderRows (d.selected order (record a)) (d.selected order (record b))).isLE).map
          record := by
    rw [matching, List.filter_map]
    exact (List.map_mergeSort (f := record) fun _ _ _ _ => rfl).symm
  rw [hmap, List.mapM_map, hread']
  exact List.mapM_pure

namespace Sql.Condition

variable {row : String → Value} {column s : String}

/-- Texts are equal if they compare as equal. -/
theorem equals_text (hcolumn : row column = .text s) (t : String) :
    equals column t row = (s == t) := by
  rw [equals, hcolumn, Bool.eq_iff_iff, beq_iff_eq, beq_iff_eq]
  exact compare_eq_iff_eq

/-- A text is in a range if it is no earlier than its start and earlier than its
end. -/
theorem within_text (hcolumn : row column = .text s) (lower upper : String) :
    within column lower upper row = (decide (lower ≤ s) && decide (s < upper)) := by
  have hlower : (compare s lower).isGE = decide (lower ≤ s) := by
    rw [Bool.eq_iff_iff, decide_eq_true_eq, Ordering.isGE_iff_ne_lt]
    exact compare_ge_iff_ge
  have hupper : (compare s upper).isLT = decide (s < upper) := by
    rw [Bool.eq_iff_iff, decide_eq_true_eq, Ordering.isLT_iff_eq_lt]
    exact compare_lt_iff_lt
  rw [within, hcolumn]
  exact congrArg₂ Bool.and hlower hupper

end Sql.Condition

open Sql.Condition

-- ======================================================== questions about nodes

/-- The columns of a node in its table. -/
def NodeRow.column (n : NodeRow) : String → Value := TableDeclaration.nodes.value n.record

namespace Store

/-- Nodes that are selected in the order of nodes. -/
theorem selectNodes_orderColumns (s : Store) (condition : Condition) :
    s.selectNodes condition NodeRow.orderColumns
      = some (sortRows (s.nodes.filter fun n => condition n.column)) := by
  rw [selectNodes, nodeRecords, TableDeclaration.mapM_matching (f := id)
    NodeRow.ofValues?_selected_record, List.map_id, sortRows]
  simp only [NodeRow.order_record]
  rfl

/-- Nodes that are selected without an order stay in the order of insertion. -/
theorem selectNodes_nil (s : Store) (condition : Condition) :
    s.selectNodes condition [] = some (s.nodes.filter fun n => condition n.column) := by
  rw [selectNodes, nodeRecords, TableDeclaration.mapM_matching (f := id)
    NodeRow.ofValues?_selected_record, List.map_id]
  exact congrArg some (List.mergeSort_of_pairwise (List.pairwise_of_forall fun _ _ => rfl))

theorem equals_repo (repo : String) (n : NodeRow) :
    equals "repo_id" repo n.column = (n.repoId == repo) := equals_text rfl repo

/-- The first of two conditions settles the repository. -/
theorem filter_column_repo (s : Store) (repo : String) (condition : Condition) :
    (s.nodes.filter fun n => bothOf (equals "repo_id" repo) condition n.column)
      = (s.nodesOf repo).filter fun n => condition n.column := by
  rw [nodesOf, List.filter_filter]
  refine List.filter_congr fun n _ => ?_
  rw [bothOf, equals_repo, Bool.and_comm]

/-- The nodes of a repository with a text in some further column. -/
theorem filter_column_text (s : Store) {name : String} {field : NodeRow → String}
    (hfield : ∀ n : NodeRow, n.column name = .text (field n)) (repo text : String) :
    (s.nodes.filter fun n => bothOf (equals "repo_id" repo) (equals name text) n.column)
      = (s.nodesOf repo).filter fun n => field n == text := by
  have htext : ∀ n : NodeRow, equals name text n.column = (field n == text) :=
    fun n => equals_text (hfield n) text
  rw [filter_column_repo]
  simp only [htext]

/-- A look-up answers with the first node that its statement selects. -/
theorem selectNodes_key (s : Store) (repo id : String) :
    (s.selectNodes (bothOf (equals "repo_id" repo) (equals "node_id" id)) []).map List.head?
      = some (s.node? repo id) := by
  rw [selectNodes_nil, filter_column_text s (fun _ => rfl), Option.map_some, node?_eq_find?,
    List.head?_filter]

/-- The nodes of a file. -/
theorem selectNodes_file (s : Store) (repo path : String) :
    s.selectNodes (bothOf (equals "repo_id" repo) (equals "file_path" path)) NodeRow.orderColumns
      = some (s.nodesInFile repo path) := by
  rw [selectNodes_orderColumns, filter_column_text s (fun _ => rfl), nodesInFile]

/-- The nodes with a short name. -/
theorem selectNodes_name (s : Store) (repo name : String) :
    s.selectNodes (bothOf (equals "repo_id" repo) (equals "name" name)) NodeRow.orderColumns
      = some (s.findByName repo name) := by
  rw [selectNodes_orderColumns, filter_column_text s (fun _ => rfl), findByName]

/-- The nodes at or below a path that is no top of all paths: those of the file
with that path, and those of the files in the range below it. -/
theorem selectNodes_range (s : Store) {repo path top : String} (htop : trimSlashes path = top)
    (hproper : ¬(top = "" ∨ top = ".")) :
    s.selectNodes (bothOf (equals "repo_id" repo)
        (oneOf (equals "file_path" top) (within "file_path" (top ++ "/") (top ++ "0"))))
        NodeRow.orderColumns
      = some (s.nodesUnderPath repo path) := by
  have hrange : ∀ n : NodeRow,
      oneOf (equals "file_path" top) (within "file_path" (top ++ "/") (top ++ "0")) n.column
        = atOrBelow top n.filePath := by
    intro n
    have hfile : equals "file_path" top n.column = (n.filePath == top) := equals_text rfl top
    have hbelow : within "file_path" (top ++ "/") (top ++ "0") n.column
        = (decide (top ++ "/" ≤ n.filePath) && decide (n.filePath < top ++ "0")) :=
      within_text rfl _ _
    rw [oneOf, hfile, hbelow, atOrBelow]
  rw [selectNodes_orderColumns, filter_column_repo, nodesUnderPath, htop, if_neg hproper]
  simp only [hrange]

/-- The nodes at or below the top of all paths: all of the repository. -/
theorem selectNodes_repo (s : Store) {repo path : String}
    (htop : trimSlashes path = "" ∨ trimSlashes path = ".") :
    s.selectNodes (equals "repo_id" repo) NodeRow.orderColumns
      = some (s.nodesUnderPath repo path) := by
  rw [selectNodes_orderColumns, nodesUnderPath, if_pos htop, nodesOf]
  simp only [equals_repo]

end Store

-- ======================================================== questions about edges

/-- The columns of an edge in its table. -/
def EdgeRow.column (number : Nat) (e : EdgeRow) : String → Value :=
  TableDeclaration.edges.value (e.record number)

/-- The numbers of a store ascend in the order of insertion, up to the last
number given. -/
structure Store.Numbered (s : Store) : Prop where
  ascending : (s.edges.map (·.1)).Pairwise (· < ·)
  given : ∀ number ∈ s.edges.map (·.1), number ≤ s.lastEdge

namespace Store

theorem numbered_empty : Numbered {} := ⟨List.Pairwise.nil, fun _ h => nomatch h⟩

/-- New numbers are the next ones. -/
theorem map_fst_numberFrom (n : Nat) (rows : List EdgeRow) :
    (numberFrom n rows).map (·.1) = List.range' (n + 1) rows.length := by
  induction rows generalizing n with
  | nil => rfl
  | cons e rest ih => rw [numberFrom, List.map_cons, ih, List.length_cons, List.range'_succ]

/-- New edges get numbers above all that were given. -/
theorem Numbered.addEdges {s : Store} (h : s.Numbered) (rows : List EdgeRow) :
    (s.addEdges rows).Numbered := by
  have hnumbers : (s.addEdges rows).edges.map (·.1)
      = s.edges.map (·.1) ++ List.range' (s.lastEdge + 1) rows.length := by
    rw [← map_fst_numberFrom, ← List.map_append]
    rfl
  constructor
  · rw [hnumbers, List.pairwise_append]
    refine ⟨h.ascending, List.pairwise_lt_range', fun a ha b hb => ?_⟩
    have hold : a ≤ s.lastEdge := h.given a ha
    have hnew := (List.mem_range'_1.mp hb).1
    omega
  · intro number hnumber
    show number ≤ s.lastEdge + rows.length
    rw [hnumbers, List.mem_append] at hnumber
    rcases hnumber with hold | hnew
    · exact Nat.le_add_right_of_le (h.given number hold)
    · have hlast := (List.mem_range'_1.mp hnew).2
      omega

/-- Numbers that are left stay in order, and the last one given stays given. -/
theorem Numbered.deleteRepo {s : Store} (h : s.Numbered) (repo : String) :
    (s.deleteRepo repo).2.Numbered := by
  have hsublist : ((s.deleteRepo repo).2.edges.map (·.1)).Sublist (s.edges.map (·.1)) :=
    List.filter_sublist.map _
  exact ⟨h.ascending.sublist hsublist, fun number hnumber => h.given number (hsublist.mem hnumber)⟩

/-- A call keeps the numbers in order, whatever it does. -/
theorem Numbered.effect {s : Store} (h : s.Numbered) (call : Call) : (call.effect s).Numbered := by
  obtain ⟨change, fault | _⟩ := call
  · exact h
  · cases change with
    | insert batch =>
        cases batch with
        | nodes rows => exact ⟨h.ascending, h.given⟩
        | edges rows => exact h.addEdges rows
    | deleteRepo repo => exact h.deleteRepo repo
    | setDocstring repo id text => exact ⟨h.ascending, h.given⟩

/-- Every run from the empty store keeps the numbers in order. -/
theorem numbered_after {start : Service} (hstart : start.store = {}) (changes : List Change) :
    (start.after changes).store.Numbered := by
  induction changes using List.reverseRecOn with
  | nil =>
      show start.store.Numbered
      rw [hstart]
      exact numbered_empty
  | append_singleton changes c ih =>
      rw [Service.store_after_concat]
      exact ih.effect _

/-- Edges that are selected in the order of their numbers stay in the order of
insertion. -/
theorem selectEdges_orderColumns {s : Store} (h : s.Numbered) (condition : Condition) :
    s.selectEdges condition EdgeRow.orderColumns
      = some ((s.edges.filter fun p => condition (p.2.column p.1)).map (·.2)) := by
  have hread : ∀ p : Nat × EdgeRow, EdgeRow.ofValues?
      (TableDeclaration.edges.selected EdgeRow.columns (p.2.record p.1)) = some p.2 :=
    fun p => EdgeRow.ofValues?_selected_record p.1 p.2
  have hordered : s.edges.Pairwise fun p q =>
      (orderRows (TableDeclaration.edges.selected EdgeRow.orderColumns (p.2.record p.1))
        (TableDeclaration.edges.selected EdgeRow.orderColumns (q.2.record q.1))).isLE = true := by
    refine (List.pairwise_map.mp h.ascending).imp fun {p q} hlt => ?_
    show ((compare (p.1 : Int) q.1).then .eq).isLE = true
    rw [Ordering.then_eq, Int.isLE_compare]
    omega
  rw [selectEdges, edgeRecords, TableDeclaration.mapM_matching hread,
    List.mergeSort_of_pairwise (hordered.sublist List.filter_sublist)]
  rfl

/-- The edges of a repository with a text in some further column. -/
theorem selectEdges_repo {s : Store} (h : s.Numbered) {name : String} {field : EdgeRow → String}
    (hfield : ∀ number (e : EdgeRow), e.column number name = .text (field e)) (repo id : String) :
    s.selectEdges (bothOf (equals "repo_id" repo) (equals name id)) EdgeRow.orderColumns
      = some ((s.edgesOf repo).filter fun e => field e == id) := by
  have hcondition : ∀ p : Nat × EdgeRow,
      bothOf (equals "repo_id" repo) (equals name id) (p.2.column p.1)
        = (field p.2 == id && p.2.repoId == repo) := by
    intro p
    have hrepo : equals "repo_id" repo (p.2.column p.1) = (p.2.repoId == repo) :=
      equals_text rfl repo
    rw [bothOf, hrepo, equals_text (hfield p.1 p.2) id, Bool.and_comm]
  rw [selectEdges_orderColumns h, edgesOf, List.filter_filter, List.filter_map]
  simp only [hcondition]
  rfl

/-- The edges at either end of a node, after any run from the empty store. -/
theorem selectEdges_ends {start : Service} (hstart : start.store = {}) (changes : List Change)
    (repo id : String) :
    let s := (start.after changes).store
    s.selectEdges (bothOf (equals "repo_id" repo) (equals "source_id" id)) EdgeRow.orderColumns
        = some (s.outgoing repo id)
    ∧ s.selectEdges (bothOf (equals "repo_id" repo) (equals "target_id" id)) EdgeRow.orderColumns
        = some (s.incoming repo id) := by
  have hnumbered := numbered_after hstart changes
  exact ⟨selectEdges_repo hnumbered (fun _ _ => rfl) repo id,
    selectEdges_repo hnumbered (fun _ _ => rfl) repo id⟩

end Store

end CodeMap
