/-
The search from a stack finds what reading the whole tree would find.

# The invariant

What is still to be searched are the nodes of the trees on the stack, the top
one first and each tree in pre-order. A round keeps the first wanted node among
them where it is (`wanted_of_next`):

- a tree that starts below the row is taken off with all its nodes. None of them
  is wanted, because no node starts before the ones it lies in (`StartsInOrder`,
  and only here it is needed);
- a tree whose root is not wanted gives way to its children. They are pushed
  last one first, so their nodes come off in the order in which they stood
  behind the root.

A round that ends the search has the first wanted node in its hands or an empty
stack (`wanted_of_answer`). Every other round takes a node off the stack for
good, so a search of a tree has at most one round more than the tree has nodes
(`exists_runs`).
-/
import CodeMap.Proofs.Syntax.Nodes

namespace CodeMap.Syntax.Tree

variable {kinds : List String} {row : Nat}

-- ============================================================== vocabulary

/-- No node starts on an earlier row than the node right above it. -/
inductive StartsInOrder : Tree → Prop where
  | node {k : String} {f : Option String} {e : Extent} {cs : List Tree}
      (start : ∀ c ∈ cs, e.start.row ≤ c.startRow)
      (below : ∀ c ∈ cs, StartsInOrder c) : StartsInOrder (node k f e cs)

/-- A node of one of the kinds that starts on the row. -/
def Wanted (kinds : List String) (row : Nat) (t : Tree) : Prop :=
  t.kind ∈ kinds ∧ t.startRow = row

instance (kinds : List String) (row : Nat) (t : Tree) : Decidable (Wanted kinds row t) :=
  inferInstanceAs (Decidable (_ ∧ _))

/-- The first wanted node of a list. -/
def firstWanted? (kinds : List String) (row : Nat) (ts : List Tree) : Option Tree :=
  ts.find? fun t => decide (Wanted kinds row t)

/-- A search that comes to an answer after a number of rounds. -/
inductive Runs (kinds : List String) (row : Nat) : Nat → List Tree → Option Tree → Prop where
  | answer {stack : List Tree} {found : Option Tree}
      (h : searchRound kinds row stack = .answer found) : Runs kinds row 1 stack found
  | next {n : Nat} {stack left : List Tree} {found : Option Tree}
      (h : searchRound kinds row stack = .next left)
      (rest : Runs kinds row n left found) : Runs kinds row (n + 1) stack found

-- =================================================================== trees

theorem StartsInOrder.child {t c : Tree} (h : t.StartsInOrder) (hc : c ∈ t.children) :
    t.startRow ≤ c.startRow ∧ c.StartsInOrder := by
  cases h with
  | node start below => exact ⟨start c hc, below c hc⟩

/-- All nodes of a tree start on the row of the root or later. -/
theorem StartsInOrder.startRow_le {t : Tree} (h : t.StartsInOrder) :
    ∀ n ∈ t.nodes, t.startRow ≤ n.startRow := by
  induction h with
  | @node k f e cs start below ih =>
      intro n hn
      rw [nodes_node] at hn
      rcases List.mem_cons.mp hn with rfl | hn
      · exact Nat.le_refl _
      · obtain ⟨c, hc, hn⟩ := List.mem_flatMap.mp hn
        exact Nat.le_trans (start c hc) (ih c hc n hn)

theorem firstWanted?_append (ts us : List Tree) :
    firstWanted? kinds row (ts ++ us)
      = (firstWanted? kinds row ts).or (firstWanted? kinds row us) := by
  unfold firstWanted?
  exact List.find?_append

theorem firstWanted?_cons_of_wanted {t : Tree} (h : Wanted kinds row t) (ts : List Tree) :
    firstWanted? kinds row (t :: ts) = some t := by
  unfold firstWanted?
  exact List.find?_cons_of_pos (decide_eq_true h)

theorem firstWanted?_cons_of_not {t : Tree} (h : ¬ Wanted kinds row t) (ts : List Tree) :
    firstWanted? kinds row (t :: ts) = firstWanted? kinds row ts := by
  unfold firstWanted?
  exact List.find?_cons_of_neg (by rwa [decide_eq_true_eq])

theorem wanted_of_firstWanted? {ts : List Tree} {t : Tree}
    (h : firstWanted? kinds row ts = some t) : t ∈ ts ∧ Wanted kinds row t := by
  unfold firstWanted? at h
  have hwanted := List.find?_some h
  exact ⟨List.mem_of_find?_eq_some h, of_decide_eq_true hwanted⟩

theorem firstWanted?_eq_none_iff {ts : List Tree} :
    firstWanted? kinds row ts = none ↔ ∀ t ∈ ts, ¬ Wanted kinds row t := by
  simp only [firstWanted?, List.find?_eq_none, decide_eq_true_eq]

-- ================================================================== rounds

theorem contains_and_beq_iff {t : Tree} :
    (kinds.contains t.kind && t.startRow == row) = true ↔ Wanted kinds row t := by
  rw [Bool.and_eq_true, List.contains_iff_mem, beq_iff_eq]
  rfl

/-- What a round does with the tree on top of the stack. -/
theorem searchRound_cons (kinds : List String) (row : Nat) (t : Tree) (stack : List Tree) :
    (row < t.startRow ∧ searchRound kinds row (t :: stack) = .next stack)
      ∨ (Wanted kinds row t ∧ searchRound kinds row (t :: stack) = .answer (some t))
      ∨ (¬ Wanted kinds row t
        ∧ searchRound kinds row (t :: stack) = .next (t.children ++ stack)) := by
  rw [← pushAll_eq stack t.children]
  by_cases hbelow : row < t.startRow
  · refine .inl ⟨hbelow, ?_⟩
    simp only [searchRound]
    rw [if_pos hbelow]
  · by_cases hwanted : Wanted kinds row t
    · refine .inr (.inl ⟨hwanted, ?_⟩)
      simp only [searchRound]
      rw [if_neg hbelow, if_pos (contains_and_beq_iff.mpr hwanted)]
    · refine .inr (.inr ⟨hwanted, ?_⟩)
      simp only [searchRound]
      rw [if_neg hbelow, if_neg fun h => hwanted (contains_and_beq_iff.mp h)]

/-- A round that ends the search answers with the first wanted node. -/
theorem wanted_of_answer {stack : List Tree} {found : Option Tree}
    (h : searchRound kinds row stack = .answer found) :
    found = firstWanted? kinds row (stack.flatMap nodes) := by
  cases stack with
  | nil =>
      injection h with h
      exact h.symm
  | cons t stack =>
      obtain ⟨-, hround⟩ | ⟨hwanted, hround⟩ | ⟨-, hround⟩ :=
        searchRound_cons kinds row t stack
      · rw [hround] at h
        cases h
      · rw [hround] at h
        injection h with h
        rw [List.flatMap_cons, nodes_eq, List.cons_append, firstWanted?_cons_of_wanted hwanted]
        exact h.symm
      · rw [hround] at h
        cases h

/-- A round that goes on leaves the first wanted node where it is. -/
theorem wanted_of_next {stack left : List Tree} (hordered : ∀ t ∈ stack, t.StartsInOrder)
    (h : searchRound kinds row stack = .next left) :
    firstWanted? kinds row (left.flatMap nodes) = firstWanted? kinds row (stack.flatMap nodes)
      ∧ ∀ t ∈ left, t.StartsInOrder := by
  cases stack with
  | nil => cases h
  | cons t stack =>
      have htop := hordered t List.mem_cons_self
      have hrest : ∀ u ∈ stack, u.StartsInOrder := fun u hu =>
        hordered u (List.mem_cons_of_mem t hu)
      obtain ⟨hbelow, hround⟩ | ⟨-, hround⟩ | ⟨hwanted, hround⟩ :=
        searchRound_cons kinds row t stack
      · rw [hround] at h
        injection h with h
        subst h
        have hnone : firstWanted? kinds row t.nodes = none := by
          refine firstWanted?_eq_none_iff.mpr fun n hn hn' => ?_
          have hstart := htop.startRow_le n hn
          rw [hn'.2] at hstart
          omega
        refine ⟨?_, hrest⟩
        rw [List.flatMap_cons, firstWanted?_append, hnone, Option.none_or]
      · rw [hround] at h
        cases h
      · rw [hround] at h
        injection h with h
        subst h
        refine ⟨?_, fun u hu => ?_⟩
        · rw [List.flatMap_cons, nodes_eq t, List.flatMap_append, List.cons_append,
            firstWanted?_cons_of_not hwanted]
        · rcases List.mem_append.mp hu with hu | hu
          · exact (htop.child hu).2
          · exact hrest u hu

-- ==================================================================== runs

theorem searchStack_of_answer {stack : List Tree} {found : Option Tree}
    (h : searchRound kinds row stack = .answer found) : searchStack kinds row stack = found := by
  rw [searchStack]
  split
  next found' h' =>
    rw [h] at h'
    injection h' with h'
    exact h'.symm
  next left h' =>
    rw [h] at h'
    cases h'

theorem searchStack_of_next {stack left : List Tree}
    (h : searchRound kinds row stack = .next left) :
    searchStack kinds row stack = searchStack kinds row left := by
  rw [searchStack]
  split
  next found h' =>
    rw [h] at h'
    cases h'
  next left' h' =>
    rw [h] at h'
    injection h' with h'
    rw [h']

/-- Every search comes to its answer, after at most one round for each node on
the stack and one for the empty stack. -/
theorem exists_runs (kinds : List String) (row : Nat) (stack : List Tree) :
    ∃ n ≤ nodeCountOf stack + 1, Runs kinds row n stack (searchStack kinds row stack) := by
  induction hcount : nodeCountOf stack using Nat.strongRecOn generalizing stack with
  | ind count ih =>
      subst hcount
      cases hround : searchRound kinds row stack with
      | answer found =>
          refine ⟨1, Nat.le_add_left 1 _, ?_⟩
          rw [searchStack_of_answer hround]
          exact .answer hround
      | next left =>
          have hfewer := nodeCountOf_lt hround
          obtain ⟨n, hn, hruns⟩ := ih _ hfewer left rfl
          refine ⟨n + 1, by omega, ?_⟩
          rw [searchStack_of_next hround]
          exact .next hround hruns

/-- The answer of a search is the first wanted node on the stack. -/
theorem Runs.eq_firstWanted? {n : Nat} {stack : List Tree} {found : Option Tree}
    (h : Runs kinds row n stack found) (hordered : ∀ t ∈ stack, t.StartsInOrder) :
    found = firstWanted? kinds row (stack.flatMap nodes) := by
  induction h with
  | answer h => exact wanted_of_answer h
  | next h _ ih =>
      obtain ⟨hsame, hordered'⟩ := wanted_of_next hordered h
      rw [ih hordered', hsame]

theorem firstStartingOn?_eq (kinds : List String) (row : Nat) {root : Tree}
    (h : root.StartsInOrder) :
    firstStartingOn? kinds row root = firstWanted? kinds row root.nodes := by
  obtain ⟨n, -, hruns⟩ := exists_runs kinds row [root]
  have hanswer := hruns.eq_firstWanted? fun t ht => by
    rw [List.mem_singleton.mp ht]
    exact h
  rw [List.flatMap_singleton] at hanswer
  exact hanswer

/-- The search from a stack that holds a tree finds the first wanted node of the
tree in pre-order.

Let no node of a tree start on an earlier row than the node right above it. The
search ends after at most one round more than the tree has nodes. Its answer is
the first node in pre-order, the root included, of one of the kinds that starts
on the row, and there is none if and only if there is no such node. -/
theorem search_finds_first_in_preorder (kinds : List String) (row : Nat) {root : Tree}
    (h : root.StartsInOrder) :
    (∃ n ≤ root.nodeCount + 1, Runs kinds row n [root] (firstStartingOn? kinds row root))
      ∧ firstStartingOn? kinds row root
        = root.nodes.find? (fun t => decide (t.kind ∈ kinds ∧ t.startRow = row))
      ∧ (firstStartingOn? kinds row root = none
        ↔ ∀ t ∈ root.nodes, ¬ (t.kind ∈ kinds ∧ t.startRow = row)) := by
  refine ⟨?_, firstStartingOn?_eq kinds row h, ?_⟩
  · have hruns := exists_runs kinds row [root]
    rw [nodeCountOf, nodeCountOf, Nat.add_zero] at hruns
    exact hruns
  · rw [firstStartingOn?_eq kinds row h]
    exact firstWanted?_eq_none_iff

/-- A call whose last argument is a function with a function in it; the next row
holds another one. -/
def callTree : Tree :=
  .node "program" none ⟨⟨0, 0⟩, ⟨40, 2⟩⟩
    [.node "call" none ⟨⟨0, 0⟩, ⟨20, 1⟩⟩
      [.node "identifier" (some "function") ⟨⟨0, 0⟩, ⟨3, 0⟩⟩ [],
        .node "arrow_function" none ⟨⟨4, 1⟩, ⟨19, 1⟩⟩
          [.node "arrow_function" none ⟨⟨10, 1⟩, ⟨19, 1⟩⟩ []]],
      .node "arrow_function" none ⟨⟨25, 2⟩, ⟨40, 2⟩⟩
        [.node "arrow_function" none ⟨⟨30, 2⟩, ⟨40, 2⟩⟩ []]]

/-- Of the two functions on row 1 the outer one is found. -/
theorem search_finds_outer_function :
    callTree.StartsInOrder
      ∧ firstStartingOn? ["arrow_function"] 1 callTree
        = some (.node "arrow_function" none ⟨⟨4, 1⟩, ⟨19, 1⟩⟩
          [.node "arrow_function" none ⟨⟨10, 1⟩, ⟨19, 1⟩⟩ []]) := by
  have hleaf : ∀ k f e, (Tree.node k f e []).StartsInOrder := fun k f e =>
    .node (fun c hc => by cases hc) fun c hc => by cases hc
  have hfunction : ∀ e e', e.start.row ≤ e'.start.row →
      (Tree.node "arrow_function" none e [.node "arrow_function" none e' []]).StartsInOrder := by
    intro e e' hstart
    refine .node (fun c hc => ?_) fun c hc => ?_
    · rw [List.mem_singleton.mp hc]
      exact hstart
    · rw [List.mem_singleton.mp hc]
      exact hleaf _ _ _
  have hcall : callTree.StartsInOrder := by
    refine .node (by decide) (List.forall_mem_cons.mpr ⟨.node (by decide) ?_, ?_⟩)
    · exact List.forall_mem_cons.mpr ⟨hleaf _ _ _,
        List.forall_mem_singleton.mpr (hfunction _ _ (by decide))⟩
    · exact List.forall_mem_singleton.mpr (hfunction _ _ (by decide))
  refine ⟨hcall, ?_⟩
  rw [(search_finds_first_in_preorder ["arrow_function"] 1 hcall).2.1]
  rfl

end CodeMap.Syntax.Tree
