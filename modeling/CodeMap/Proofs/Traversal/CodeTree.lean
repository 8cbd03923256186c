/-
The tree of references shows each node once, as near to the root as it is.

The loop over the slots leaves the tree that `assemble` describes: below a slot
stand the slots that were found from it (`head?_foldBack`). A slot was found from
exactly one other, so no two branches share a slot (`Arena.eq_of_below`), and the
positions go down towards the root, so every slot hangs below the root
(`Arena.below_root`).

What a tree shows is said by `subtrees`, the list of its subtrees with their
depths, and what joins a node to its children by `Joined`.
-/
import CodeMap.Proofs.Traversal.Assembly
import Mathlib.Logic.Relation

namespace CodeMap

namespace CodeTree

-- ==================================================================== trees

mutual

/-- The subtrees of a tree with their depths; the tree itself comes first, at a
given depth. -/
def subtrees (depth : Nat) : CodeTree → List (CodeTree × Nat)
  | node row relationship children =>
    (node row relationship children, depth) :: subtreesOf (depth + 1) children

/-- The subtrees of some trees with their depths. -/
def subtreesOf (depth : Nat) : List CodeTree → List (CodeTree × Nat)
  | [] => []
  | tree :: rest => subtrees depth tree ++ subtreesOf depth rest

end

theorem subtreesOf_eq_flatMap (depth : Nat) (trees : List CodeTree) :
    subtreesOf depth trees = trees.flatMap (subtrees depth) := by
  induction trees with
  | nil => rfl
  | cons tree rest ih => rw [subtreesOf, ih, List.flatMap_cons]

theorem subtrees_eq (depth : Nat) (tree : CodeTree) :
    tree.subtrees depth = (tree, depth) :: tree.children.flatMap (subtrees (depth + 1)) := by
  cases tree with
  | node row relationship children => rw [subtrees, subtreesOf_eq_flatMap, CodeTree.children]

/-- A node is joined to each of its children by the first edge that leads to
the child, the child is shown with that edge's relationship, and the children
stand in the order of these edges. -/
structure Joined (s : Store) (repo : String) (tree : CodeTree) : Prop where
  edges : ∀ child ∈ tree.children, ∃ e, s.firstEdge? repo tree.row.nodeId child.row.nodeId = some e
    ∧ child.relationship = some e.relationshipType
  order : tree.children.Pairwise fun a b =>
    s.firstPlace repo tree.row.nodeId a.row.nodeId < s.firstPlace repo tree.row.nodeId b.row.nodeId

end CodeTree

namespace Traversal

open Relation (ReflTransGen)

variable {s : Store} {repo : String} {root : NodeRow} {maxDepth : Nat}
variable {slots : List Slot} {children : List (List Nat)}

namespace Arena

-- ================================================================= branches

theorem le_of_below (h : Arena s repo root maxDepth slots children) {p i : Nat}
    (hi : ReflTransGen (FoundFrom children) p i) : p ≤ i := by
  induction hi with
  | refl => exact Nat.le_refl p
  | tail _ hlast ih => exact Nat.le_trans ih (Nat.le_of_lt (h.earlier _ _ hlast).1)

/-- No slot is above the slot it was found from. -/
theorem not_below_of_foundFrom (h : Arena s repo root maxDepth slots children) {p i : Nat}
    (hi : FoundFrom children p i) : ¬ReflTransGen (FoundFrom children) i p := by
  intro hbelow
  have hlt := (h.earlier p i hi).1
  have hle := h.le_of_below hbelow
  omega

/-- Two branches that start at one slot share no slot. The induction is over
the first branch from its end: each slot was found from one slot only, so the
second branch goes through the same slots, up to where the branches start. -/
theorem eq_of_below (h : Arena s repo root maxDepth slots children) {p i j x : Nat}
    (hi : FoundFrom children p i) (hj : FoundFrom children p j)
    (hix : ReflTransGen (FoundFrom children) i x) (hjx : ReflTransGen (FoundFrom children) j x) :
    i = j := by
  induction hix with
  | refl =>
      rcases hjx.cases_tail with rfl | ⟨y, hjy, hyi⟩
      · rfl
      · rw [h.once _ _ _ hyi hi] at hjy
        exact absurd hjy (h.not_below_of_foundFrom hj)
  | @tail y x hiy hyx ih =>
      rcases hjx.cases_tail with rfl | ⟨z, hjz, hzx⟩
      · rw [h.once _ _ _ hyx hj] at hiy
        exact absurd hiy (h.not_below_of_foundFrom hi)
      · rw [h.once _ _ _ hzx hyx] at hjz
        exact ih hjz

/-- Every slot hangs below the root. -/
theorem below_root (h : Arena s repo root maxDepth slots children) {i : Nat}
    (hi : i < slots.length) : ReflTransGen (FoundFrom children) 0 i := by
  induction i using Nat.strongRecOn with
  | ind i ih =>
      by_cases hzero : i = 0
      · rw [hzero]
      · obtain ⟨p, hp⟩ := h.found i hi hzero
        have hlt := (h.earlier p i hp).1
        exact .tail (ih p hlt (Nat.lt_trans hlt hi)) hp

theorem depth_of_mem (h : Arena s repo root maxDepth slots children) {p i : Nat} {slot c : Slot}
    (hp : slots[p]? = some slot) (hc : (c, i) ∈ foundFrom slots children p) :
    c.depth = slot.depth + 1 := by
  obtain ⟨hfrom, hi⟩ := h.mem_foundFrom_iff.mp hc
  exact (h.linked p i slot c hfrom hp hi).depth

/-- The position of a slot is known from its node. -/
theorem position_unique (h : Arena s repo root maxDepth slots children) {i j : Nat} {a b : Slot}
    (hi : slots[i]? = some a) (hj : slots[j]? = some b) (hrow : a.row = b.row) : i = j := by
  have hids : (slots.map fun slot => slot.row.nodeId)[i]?
      = (slots.map fun slot => slot.row.nodeId)[j]? := by
    rw [List.getElem?_map, List.getElem?_map, hi, hj, Option.map_some, Option.map_some, hrow]
  have hlt : i < (slots.map fun slot => slot.row.nodeId).length := by
    rw [List.length_map]
    exact (List.getElem?_eq_some_iff.mp hi).1
  exact (List.getElem?_inj hlt h.distinct).mp hids

-- ================================================================= assembly

/-- What is below a slot in the assembled tree was found from it, directly or
not, and stands at its own depth. -/
theorem below_of_mem_assemble (h : Arena s repo root maxDepth slots children) {p : Nat}
    {slot : Slot} {tree : CodeTree} {depth : Nat} (hp : slots[p]? = some slot)
    (hmem : (tree, depth) ∈ (assemble slots children p slot).subtrees slot.depth) :
    ∃ i c, slots[i]? = some c ∧ ReflTransGen (FoundFrom children) p i
      ∧ tree = assemble slots children i c ∧ depth = c.depth := by
  induction p, slot using foundFrom_induction slots children with
  | step p slot ih =>
      rw [CodeTree.subtrees_eq] at hmem
      rcases List.mem_cons.mp hmem with heq | hmem
      · cases heq
        exact ⟨p, slot, hp, .refl, rfl, rfl⟩
      · rw [children_assemble, List.flatMap_map] at hmem
        obtain ⟨⟨c, q⟩, hc, hbelow⟩ := List.mem_flatMap.mp hmem
        obtain ⟨hfrom, hq⟩ := h.mem_foundFrom_iff.mp hc
        rw [← h.depth_of_mem hp hc] at hbelow
        obtain ⟨i, c', hi, hqi, htree, hdepth⟩ := ih c q hc hq hbelow
        exact ⟨i, c', hi, .head hfrom hqi, htree, hdepth⟩

/-- What was found from a slot, directly or not, is below it in the assembled
tree. -/
theorem mem_assemble_of_below (h : Arena s repo root maxDepth slots children) {p i : Nat}
    {slot c : Slot} (hp : slots[p]? = some slot) (hi : slots[i]? = some c)
    (hbelow : ReflTransGen (FoundFrom children) p i) :
    (assemble slots children i c, c.depth)
      ∈ (assemble slots children p slot).subtrees slot.depth := by
  induction hbelow using ReflTransGen.head_induction_on generalizing slot with
  | refl =>
      rw [hp] at hi
      cases hi
      rw [CodeTree.subtrees_eq]
      exact List.mem_cons_self
  | @head p q hq _ ih =>
      obtain ⟨child, hq'⟩ := h.exists_slot hq
      have hmem := h.mem_foundFrom_iff.mpr ⟨hq, hq'⟩
      have hbelow := ih hq'
      rw [h.depth_of_mem hp hmem] at hbelow
      rw [CodeTree.subtrees_eq, children_assemble, List.flatMap_map]
      exact List.mem_cons_of_mem _ (List.mem_flatMap.mpr ⟨_, hmem, hbelow⟩)

/-- The assembled tree shows no node twice. -/
theorem nodup_assemble (h : Arena s repo root maxDepth slots children) {p : Nat} {slot : Slot}
    (hp : slots[p]? = some slot) :
    (((assemble slots children p slot).subtrees slot.depth).map (·.1.row)).Nodup := by
  induction p, slot using foundFrom_induction slots children with
  | step p slot ih =>
      -- where the rows below a child come from
      have hbelow : ∀ c i, (c, i) ∈ foundFrom slots children p →
          ∀ row ∈ ((assemble slots children i c).subtrees (slot.depth + 1)).map (·.1.row),
          ∃ j d, slots[j]? = some d ∧ ReflTransGen (FoundFrom children) i j ∧ row = d.row := by
        intro c i hc row hrow
        obtain ⟨⟨tree, depth⟩, hmem, rfl⟩ := List.mem_map.mp hrow
        rw [← h.depth_of_mem hp hc] at hmem
        obtain ⟨j, d, hj, hij, rfl, -⟩ :=
          h.below_of_mem_assemble (h.mem_foundFrom_iff.mp hc).2 hmem
        exact ⟨j, d, hj, hij, row_assemble slots children j d⟩
      rw [CodeTree.subtrees_eq, children_assemble, List.flatMap_map, List.map_cons,
        List.map_flatMap, List.nodup_cons]
      constructor
      · intro hmem
        rw [row_assemble] at hmem
        obtain ⟨⟨c, i⟩, hc, hrow⟩ := List.mem_flatMap.mp hmem
        obtain ⟨j, d, hj, hij, heq⟩ := hbelow c i hc _ hrow
        obtain rfl := h.position_unique hp hj heq
        exact h.not_below_of_foundFrom (h.mem_foundFrom_iff.mp hc).1 hij
      · rw [List.nodup_flatMap]
        constructor
        · rintro ⟨c, i⟩ hc
          rw [← h.depth_of_mem hp hc]
          exact ih c i hc (h.mem_foundFrom_iff.mp hc).2
        · refine (h.pairwise_foundFrom hp).imp_of_mem ?_
          rintro ⟨a, i⟩ ⟨b, j⟩ ha hb hlt row hrow hrow'
          obtain ⟨hia, hi⟩ := h.mem_foundFrom_iff.mp ha
          obtain ⟨hjb, hj⟩ := h.mem_foundFrom_iff.mp hb
          obtain ⟨x, d, hx, hix, rfl⟩ := hbelow a i ha row hrow
          obtain ⟨y, d', hy, hjy, heq⟩ := hbelow b j hb _ hrow'
          obtain rfl := h.position_unique hx hy heq
          obtain rfl := h.eq_of_below hia hjb hix hjy
          rw [hi] at hj
          cases hj
          exact Nat.lt_irrefl _ hlt

/-- In the assembled tree every node is joined to its children. -/
theorem joined_assemble (h : Arena s repo root maxDepth slots children) {p : Nat} {slot : Slot}
    (hp : slots[p]? = some slot) : (assemble slots children p slot).Joined s repo where
  edges child hchild := by
    rw [children_assemble] at hchild
    obtain ⟨⟨c, i⟩, hc, rfl⟩ := List.mem_map.mp hchild
    obtain ⟨hfrom, hi⟩ := h.mem_foundFrom_iff.mp hc
    rw [row_assemble, row_assemble, relationship_assemble]
    exact (h.linked p i slot c hfrom hp hi).edge
  order := by
    rw [children_assemble, List.pairwise_map, row_assemble]
    refine (h.pairwise_foundFrom hp).imp ?_
    rintro ⟨a, i⟩ ⟨b, j⟩ hlt
    dsimp only
    rwa [row_assemble, row_assemble]

/-- The assembled tree shows what the slots hold. -/
theorem mem_assemble_iff (h : Arena s repo root maxDepth slots children) (n : NodeRow)
    (depth : Nat) :
    (∃ t, (t, depth) ∈ (assemble slots children 0 ⟨root, none, 0⟩).subtrees 0 ∧ t.row = n) ↔
      ∃ slot ∈ slots, slot.row = n ∧ slot.depth = depth := by
  constructor
  · rintro ⟨t, ht, rfl⟩
    obtain ⟨i, c, hi, -, rfl, rfl⟩ := h.below_of_mem_assemble h.first ht
    exact ⟨c, List.mem_of_getElem? hi, (row_assemble slots children i c).symm, rfl⟩
  · rintro ⟨slot, hslot, rfl, rfl⟩
    obtain ⟨i, hlt, rfl⟩ := List.mem_iff_getElem.mp hslot
    have hi : slots[i]? = some slots[i] := List.getElem?_eq_getElem hlt
    exact ⟨_, h.mem_assemble_of_below h.first hi (h.below_root hlt), row_assemble _ _ _ _⟩

end Arena

-- ================================================================= the tree

/-- From a stored node the search comes to its end, and the loop over its slots
leaves the assembled tree. -/
theorem codeTree?_of_node? (hkeyed : s.Keyed) {id : String} {root : NodeRow}
    (hroot : s.node? repo id = some root) (maxDepth : Nat) :
    ∃ f : Frontier, Expanding s repo root maxDepth f.slots.length [] f
      ∧ codeTree? s repo id maxDepth = some (assemble f.slots f.children 0 ⟨root, none, 0⟩) := by
  have hstored : root ∈ s.nodesOf repo := by
    rwa [← hkeyed.node?_nodeId_iff, nodeId_of_node?_eq_some hroot]
  have hinit : Expanding s repo root maxDepth 0 [] (.ofRoot root) := .init hkeyed hstored
  obtain ⟨f, hf, hend⟩ :=
    hinit.run hkeyed (s.nodes.length + 1) ⟨1, rfl, rfl⟩ (Nat.le_refl _)
  refine ⟨f, hend, ?_⟩
  rw [codeTree?, hroot, Option.bind_some, hf, head?_foldBack hend.arena]

theorem codeTree?_eq_none_iff (hkeyed : s.Keyed) (repo id : String) (maxDepth : Nat) :
    codeTree? s repo id maxDepth = none ↔ ∀ n ∈ s.nodesOf repo, n.nodeId ≠ id := by
  have hnone : codeTree? s repo id maxDepth = none ↔ s.node? repo id = none := by
    cases hroot : s.node? repo id with
    | none => simp [codeTree?, hroot]
    | some root =>
        obtain ⟨f, -, htree⟩ := codeTree?_of_node? hkeyed hroot maxDepth
        simp [htree]
  rw [hnone, Store.node?_eq_find?, List.find?_eq_none]
  simp only [beq_iff_eq, ne_eq]

/-- The tree of references is breadth first and exact. There is none exactly if
the root is not stored. Otherwise the tree starts at the root and shows, each
once, exactly the stored nodes at most as far from the root as allowed, each
at the depth that is its distance along edges between stored nodes. Every
child is joined to its parent by the first edge that leads to it, carries that
edge's relationship, and stands among the other children as that edge does
among the edges that leave the parent. -/
theorem codeTree_breadth_first (hkeyed : s.Keyed) (repo id : String) (maxDepth : Nat) :
    (codeTree? s repo id maxDepth = none ↔ ∀ n ∈ s.nodesOf repo, n.nodeId ≠ id)
    ∧ ∀ tree, codeTree? s repo id maxDepth = some tree →
      tree.row.nodeId = id ∧ tree.relationship = none
      ∧ ((tree.subtrees 0).map (·.1.row)).Nodup
      ∧ (∀ n depth, (∃ t, (t, depth) ∈ tree.subtrees 0 ∧ t.row = n) ↔
          s.Distance repo tree.row n depth ∧ depth ≤ maxDepth)
      ∧ ∀ t depth, (t, depth) ∈ tree.subtrees 0 → t.Joined s repo := by
  refine ⟨codeTree?_eq_none_iff hkeyed repo id maxDepth, fun tree htree => ?_⟩
  cases hroot : s.node? repo id with
  | none =>
      rw [codeTree?, hroot] at htree
      cases htree
  | some root =>
      obtain ⟨f, hend, htree'⟩ := codeTree?_of_node? hkeyed hroot maxDepth
      rw [htree'] at htree
      obtain rfl := Option.some.inj htree
      rw [row_assemble, relationship_assemble]
      refine ⟨nodeId_of_node?_eq_some hroot, rfl, hend.arena.nodup_assemble hend.arena.first,
        fun n depth => ?_, fun t depth ht => ?_⟩
      · rw [hend.arena.mem_assemble_iff, hend.slot_iff_distance]
      · obtain ⟨i, c, hi, -, rfl, -⟩ := hend.arena.below_of_mem_assemble hend.arena.first ht
        exact hend.arena.joined_assemble hi

/-- The tree of references from `a`. -/
def tangleTree : CodeTree :=
  .node (tangleRow "a" 1) none
    [.node (tangleRow "b" 5) (some "import") [.node (tangleRow "c" 9) (some "call") []]]

/-- The tree shows that `c` is two edges away from `a`, and that the first of
the edges from `a` to `b` is an import. -/
theorem codeTree_breadth_first_sample :
    codeTree? tangle "r" "x" 2 = none
      ∧ tangle.Distance "r" (tangleRow "a" 1) (tangleRow "c" 9) 2
      ∧ ∃ e, tangle.firstEdge? "r" "a" "b" = some e ∧ e.relationshipType = "import" := by
  have htree : codeTree? tangle "r" "a" 2 = some tangleTree := by rfl
  have hsubtrees : tangleTree.subtrees 0 = [(tangleTree, 0),
      (.node (tangleRow "b" 5) (some "import") [.node (tangleRow "c" 9) (some "call") []], 1),
      (.node (tangleRow "c" 9) (some "call") [], 2)] := by rfl
  obtain ⟨-, -, -, hshown, hjoined⟩ :=
    (codeTree_breadth_first keyed_tangle "r" "a" 2).2 tangleTree htree
  rw [hsubtrees] at hshown hjoined
  refine ⟨(codeTree_breadth_first keyed_tangle "r" "x" 2).1.mpr (by decide +kernel), ?_, ?_⟩
  · have hc := (hshown (tangleRow "c" 9) 2).mp
      ⟨.node (tangleRow "c" 9) (some "call") [], by simp, rfl⟩
    exact hc.1
  · obtain ⟨e, he, hrelationship⟩ :=
      (hjoined tangleTree 0 List.mem_cons_self).edges _ List.mem_cons_self
    exact ⟨e, he, (Option.some.inj hrelationship).symm⟩

end Traversal

end CodeMap
