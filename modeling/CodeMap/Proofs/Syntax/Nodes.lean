/-
The nodes of a tree, in pre-order.

A visit knows more than a node, namely the way up to the root. What the way up
looks like depends on where the visit starts, and which nodes are visited does
not (`map_node_visitsFrom`). So the nodes of a tree come by recursion on the
tree (`nodes_node`), which is what statements on nodes rest on. Of the way up it is
enough to know that it consists of nodes of the tree that hold the visited one
(`around_of_mem_visits`).
-/
import CodeMap.Syntax.Tree
import Mathlib.Data.List.Basic

namespace CodeMap.Syntax.Tree

/-- What holds of a node if it holds of its children holds of every tree. -/
theorem induction {motive : Tree → Prop}
    (node : ∀ k f e cs, (∀ c ∈ cs, motive c) → motive (node k f e cs)) : ∀ t, motive t
  | .node k f e cs => node k f e cs fun c _ => induction node c

/-- The nodes of a tree, in pre-order. -/
def nodes (t : Tree) : List Tree := t.visits.map Visit.node

/-- Which nodes are visited does not depend on where the visit starts. -/
theorem map_node_visitsOf {g : Tree → List Tree} {cs : List Tree}
    (h : ∀ c ∈ cs, ∀ place ancestors, (visitsFrom place ancestors c).map Visit.node = g c)
    (place : List Nat) (ancestors : List Tree) (i : Nat) :
    (visitsOf place ancestors i cs).map Visit.node = cs.flatMap g := by
  induction cs generalizing i with
  | nil => rfl
  | cons c rest ih =>
      rw [visitsOf, List.map_append, List.flatMap_cons, h c List.mem_cons_self,
        ih fun c' hc' => h c' (List.mem_cons_of_mem c hc')]

/-- A visit from anywhere meets the nodes of the tree. -/
theorem map_node_visitsFrom (t : Tree) :
    ∀ place ancestors, (visitsFrom place ancestors t).map Visit.node = t.nodes := by
  induction t using induction with
  | node k f e cs ih =>
      intro place ancestors
      rw [nodes, visits, visitsFrom, visitsFrom, List.map_cons, List.map_cons,
        map_node_visitsOf ih, map_node_visitsOf ih]

/-- The nodes of a tree are its root and the nodes of its children, in their order.
-/
theorem nodes_node (k : String) (f : Option String) (e : Extent) (cs : List Tree) :
    (node k f e cs).nodes = node k f e cs :: cs.flatMap nodes := by
  rw [nodes, visits, visitsFrom, List.map_cons,
    map_node_visitsOf fun c _ => map_node_visitsFrom c]

theorem self_mem_nodes (t : Tree) : t ∈ t.nodes := by
  cases t with
  | node k f e cs =>
      rw [nodes_node]
      exact List.mem_cons_self

/-- The nodes of a child are nodes of its parent. -/
theorem mem_nodes_of_child {c t : Tree} (hc : c ∈ t.children) {n : Tree} (hn : n ∈ c.nodes) :
    n ∈ t.nodes := by
  cases t with
  | node k f e cs =>
      rw [nodes_node]
      exact List.mem_cons_of_mem _ (List.mem_flatMap.mpr ⟨c, hc, hn⟩)

/-- The nodes below a node of a tree are nodes of the tree. -/
theorem mem_nodes_trans {t u n : Tree} (hu : u ∈ t.nodes) (hn : n ∈ u.nodes) : n ∈ t.nodes := by
  induction t using induction with
  | node k f e cs ih =>
      rw [nodes_node] at hu
      rcases List.mem_cons.mp hu with rfl | hu
      · exact hn
      · obtain ⟨c, hc, hu⟩ := List.mem_flatMap.mp hu
        exact mem_nodes_of_child hc (ih c hc hu)

theorem nodes_eq (t : Tree) : t.nodes = t :: t.children.flatMap nodes := by
  cases t with
  | node k f e cs => exact nodes_node k f e cs

-- ================================================================== visits

/-- Children are visited one after the other. -/
theorem visitsOf_append (place : List Nat) (ancestors : List Tree) (i : Nat)
    (before after : List Tree) :
    visitsOf place ancestors i (before ++ after)
      = visitsOf place ancestors i before
        ++ visitsOf place ancestors (i + before.length) after := by
  induction before generalizing i with
  | nil => rfl
  | cons c rest ih =>
      rw [List.cons_append, visitsOf, visitsOf, ih, List.append_assoc, List.length_cons,
        Nat.add_assoc i 1, Nat.add_comm 1]

/-- A visit below the children of a node is one below one of them. -/
theorem exists_child_of_mem_visitsOf {place : List Nat} {ancestors : List Tree} {i : Nat}
    {cs : List Tree} {v : Visit} (h : v ∈ visitsOf place ancestors i cs) :
    ∃ before c after, cs = before ++ c :: after
      ∧ v ∈ visitsFrom ((i + before.length) :: place) ancestors c := by
  induction cs generalizing i with
  | nil => cases h
  | cons c rest ih =>
      rw [visitsOf] at h
      rcases List.mem_append.mp h with h | h
      · exact ⟨[], c, rest, rfl, h⟩
      · obtain ⟨before, c', after, rfl, hv⟩ := ih h
        refine ⟨c :: before, c', after, rfl, ?_⟩
        rw [List.length_cons, Nat.add_comm before.length, ← Nat.add_assoc]
        exact hv

/-- What is visited are nodes of the tree. -/
theorem node_mem_of_mem_visitsFrom {place : List Nat} {ancestors : List Tree} {t : Tree}
    {v : Visit} (h : v ∈ visitsFrom place ancestors t) : v.node ∈ t.nodes := by
  rw [← map_node_visitsFrom t place ancestors]
  exact List.mem_map_of_mem h

/-- On the way up from a node are the ancestors that the visit starts with and
nodes of the tree that hold the node. -/
theorem around_of_mem_visitsFrom {t : Tree} {v : Visit} :
    ∀ {place : List Nat} {ancestors : List Tree}, v ∈ visitsFrom place ancestors t →
      ∀ u ∈ v.node :: v.ancestors, u ∈ ancestors ∨ u ∈ t.nodes ∧ v.node ∈ u.nodes := by
  induction t using induction with
  | node k f e cs ih =>
      intro place ancestors hv u hu
      have hnode := node_mem_of_mem_visitsFrom hv
      rw [visitsFrom] at hv
      rcases List.mem_cons.mp hv with rfl | hv
      · rcases List.mem_cons.mp hu with rfl | hu
        · exact .inr ⟨self_mem_nodes _, self_mem_nodes _⟩
        · exact .inl hu
      · obtain ⟨before, c, after, rfl, hv⟩ := exists_child_of_mem_visitsOf hv
        have hc : c ∈ before ++ c :: after := List.mem_append_right _ List.mem_cons_self
        rcases ih c hc hv u hu with hu | ⟨hu, hv⟩
        · rcases List.mem_cons.mp hu with rfl | hu
          · exact .inr ⟨self_mem_nodes _, hnode⟩
          · exact .inl hu
        · exact .inr ⟨mem_nodes_of_child hc hu, hv⟩

/-- From the root of a tree, all that is on the way up from a node is in the tree.
-/
theorem around_of_mem_visits {t : Tree} {v : Visit} (h : v ∈ t.visits) :
    ∀ u ∈ v.node :: v.ancestors, u ∈ t.nodes ∧ v.node ∈ u.nodes := by
  intro u hu
  exact (around_of_mem_visitsFrom h u hu).resolve_left List.not_mem_nil

end CodeMap.Syntax.Tree
