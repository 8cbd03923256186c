/-
Trees whose extents nest, and the innermost node around a stretch of bytes.

A tree is laid out in a text if its children lie inside their parent and follow
one another by bytes, and if all places of the tree agree on which row a byte
stands (`LaidOut`). Rows go along with bytes, so in such a tree no node starts on
an earlier row than the one right above it (`LaidOut.startsInOrder`).

# The innermost node

The last node in pre-order that covers a stretch of bytes is the innermost one.
For a stretch that is not empty this is so in the strict sense
(`innermost?_below`): of two siblings only one can cover it, so that all nodes
that cover it lie on one way up, and the last one of them is the lowest. An empty
stretch may lie where two siblings meet. Then the last node is still one around
it, and no more is known about it.
-/
import CodeMap.Proofs.Syntax.Search
import Mathlib.Data.Nat.Basic
import Mathlib.Order.Monotone.Defs

namespace CodeMap.Syntax

/-- Extents that nest, with siblings in order, in a text whose byte `b` stands on
row `rowAt b`. -/
inductive Tree.LaidOut (rowAt : Nat → Nat) : Tree → Prop where
  | node {k : String} {f : Option String} {e : Extent} {cs : List Tree}
      (forward : e.start.byte ≤ e.stop.byte)
      (startRow : e.start.row = rowAt e.start.byte)
      (stopRow : e.stop.row = rowAt e.stop.byte)
      (inside : ∀ c ∈ cs, e.start.byte ≤ c.extent.start.byte ∧ c.extent.stop.byte ≤ e.stop.byte)
      (ordered : cs.Pairwise fun a b => a.extent.stop.byte ≤ b.extent.start.byte)
      (below : ∀ c ∈ cs, LaidOut rowAt c) : LaidOut rowAt (node k f e cs)

namespace Tree

variable {rowAt : Nat → Nat} {t : Tree}

/-- A node does not end before it starts. -/
theorem LaidOut.forward (h : t.LaidOut rowAt) : t.extent.start.byte ≤ t.extent.stop.byte := by
  cases h with
  | node forward => exact forward

theorem LaidOut.startRow_eq (h : t.LaidOut rowAt) : t.startRow = rowAt t.extent.start.byte := by
  cases h with
  | node forward startRow => exact startRow

theorem LaidOut.stopRow_eq (h : t.LaidOut rowAt) : t.stopRow = rowAt t.extent.stop.byte := by
  cases h with
  | node forward startRow stopRow => exact stopRow

/-- A node of a tree is laid out like the tree and lies inside it. -/
theorem LaidOut.of_mem_nodes (h : t.LaidOut rowAt) :
    ∀ n ∈ t.nodes, n.LaidOut rowAt
      ∧ t.extent.start.byte ≤ n.extent.start.byte ∧ n.extent.stop.byte ≤ t.extent.stop.byte := by
  induction h with
  | @node k f e cs forward startRow stopRow inside ordered below ih =>
      intro n hn
      rw [nodes_node] at hn
      rcases List.mem_cons.mp hn with rfl | hn
      · exact ⟨.node forward startRow stopRow inside ordered below, Nat.le_refl _, Nat.le_refl _⟩
      · obtain ⟨c, hc, hn⟩ := List.mem_flatMap.mp hn
        obtain ⟨hstart, hstop⟩ := inside c hc
        obtain ⟨hlaid, hstart', hstop'⟩ := ih c hc n hn
        exact ⟨hlaid, Nat.le_trans hstart hstart', Nat.le_trans hstop' hstop⟩

/-- Children start on rows no earlier than their parent, because they start at no
earlier bytes. -/
theorem LaidOut.startsInOrder (h : t.LaidOut rowAt) (hrows : Monotone rowAt) :
    t.StartsInOrder := by
  induction h with
  | @node k f e cs forward startRow stopRow inside ordered below ih =>
      refine .node (fun c hc => ?_) ih
      rw [startRow, (below c hc).startRow_eq]
      exact hrows (inside c hc).1

end Tree

-- =============================================================== innermost

theorem Extent.spans_iff {e : Extent} {a b : Nat} :
    e.spans a b = true ↔ e.start.byte ≤ a ∧ b ≤ e.stop.byte := by
  simp [Extent.spans]

open CodeMap.Syntax.Tree

/-- A node that covers some bytes finds the innermost node around them. -/
theorem exists_innermost? {visits : List Visit} {a b : Nat} {v : Visit} (hv : v ∈ visits)
    (hcover : v.node.extent.spans a b = true) :
    ∃ name ∈ visits, innermost? visits a b = some name
      ∧ name.node.extent.spans a b = true := by
  have hmem : v ∈ visits.filter fun v => v.node.extent.spans a b :=
    List.mem_filter.mpr ⟨hv, hcover⟩
  obtain ⟨name, hname⟩ := Option.isSome_iff_exists.mp
    (List.getLast?_isSome.mpr (List.ne_nil_of_mem hmem))
  obtain ⟨hvisit, hspans⟩ := List.mem_filter.mp (List.mem_of_getLast? hname)
  exact ⟨name, hvisit, hname, hspans⟩

/-- Of two parts of a visit the later one decides, if it finds anything. -/
theorem innermost?_append (vs ws : List Visit) (a b : Nat) :
    innermost? (vs ++ ws) a b = (innermost? ws a b).or (innermost? vs a b) := by
  unfold innermost?
  rw [List.filter_append, List.getLast?_append]

theorem innermost?_eq_none {visits : List Visit} {a b : Nat}
    (h : ∀ v ∈ visits, v.node.extent.spans a b = false) : innermost? visits a b = none := by
  unfold innermost?
  rw [List.filter_eq_nil_iff.mpr fun v hv => by rw [h v hv]; exact Bool.false_ne_true]
  rfl

/-- Bytes that a node covers, if there are any, have their innermost node at or
below it. -/
theorem innermost?_visitsFrom {rowAt : Nat → Nat} {a b : Nat} (hab : a < b) {t : Tree}
    (h : t.LaidOut rowAt) :
    ∀ {place : List Nat} {ancestors : List Tree} {v : Visit}, v ∈ visitsFrom place ancestors t →
      v.node.extent.spans a b = true →
      innermost? (visitsFrom place ancestors t) a b
        = innermost? (visitsFrom v.place v.ancestors v.node) a b := by
  induction h with
  | @node k f e cs forward startRow stopRow inside ordered below ih =>
      intro place ancestors v hv hcover
      rw [visitsFrom] at hv
      rcases List.mem_cons.mp hv with rfl | hv
      · rfl
      · obtain ⟨before, c, after, rfl, hv⟩ := exists_child_of_mem_visitsOf hv
        have hc : c ∈ before ++ c :: after := List.mem_append_right _ List.mem_cons_self
        obtain ⟨name, -, hname, -⟩ := exists_innermost? hv hcover
        rw [ih c hc hv hcover] at hname
        -- a later sibling starts where the covered bytes have ended
        have hafter : ∀ i, innermost? (visitsOf place (.node k f e (before ++ c :: after)
            :: ancestors) i after) a b = none := by
          intro i
          refine innermost?_eq_none fun w hw => ?_
          obtain ⟨front, d, back, hsplit, hw⟩ := exists_child_of_mem_visitsOf hw
          have hd : d ∈ after := by
            rw [hsplit]
            exact List.mem_append_right _ List.mem_cons_self
          have hd' : d ∈ before ++ c :: after :=
            List.mem_append_right _ (List.mem_cons_of_mem c hd)
          have hlate := (List.pairwise_cons.mp (List.pairwise_append.mp ordered).2.1).1 d hd
          obtain ⟨-, hw, -⟩ := (below d hd').of_mem_nodes _ (node_mem_of_mem_visitsFrom hw)
          obtain ⟨-, -, hv⟩ := (below c hc).of_mem_nodes _ (node_mem_of_mem_visitsFrom hv)
          obtain ⟨-, hcover⟩ := Extent.spans_iff.mp hcover
          refine Bool.eq_false_iff.mpr fun hspans => ?_
          obtain ⟨hspans, -⟩ := Extent.spans_iff.mp hspans
          omega
        rw [visitsFrom, ← List.singleton_append, innermost?_append, visitsOf_append, visitsOf,
          innermost?_append, innermost?_append, hafter, Option.none_or, ih c hc hv hcover, hname,
          Option.some_or, Option.some_or]

/-- The innermost node around some bytes, if there are any, lies at or below every
node that covers them. -/
theorem innermost?_below {rowAt : Nat → Nat} {a b : Nat} (hab : a < b) {t : Tree}
    (h : t.LaidOut rowAt) {name : Visit} (hname : innermost? t.visits a b = some name)
    {v : Visit} (hv : v ∈ t.visits) (hcover : v.node.extent.spans a b = true) :
    name ∈ visitsFrom v.place v.ancestors v.node := by
  have hbelow : innermost? (visitsFrom v.place v.ancestors v.node) a b = some name := by
    rw [← innermost?_visitsFrom hab h hv hcover]
    exact hname
  exact (List.mem_filter.mp (List.mem_of_getLast? hbelow)).1

end CodeMap.Syntax
