/-
The nodes above and the nodes below a node.

A visit carries its place and its ancestors, and the ancestors carry what it takes
to visit them in turn: the n-th one has the place and the ancestors that are left
after n steps up (`visitsUp`). With this, whatever is asked of the way up from a
node can be asked of visits, and the way up from a node passes through every node
that it lies below (`exists_between`).

What lies below a node is a child of it or lies below one (`mem_below_iff`), and
that gives an induction on how deep it lies (`below_induction`). A node has a longer
place than the ones above it, which is enough to tell a child from everything else
below its parent (`child_of_place`).
-/
import CodeMap.Proofs.Syntax.Nodes

namespace CodeMap.Syntax

-- ============================================================== vocabulary

/-- The visits on a way up: each ancestor with the place and the ancestors that are
left above it. -/
def visitsUp : List Nat → List Tree → List Visit
  | _ :: above, a :: rest => ⟨a, above, rest⟩ :: visitsUp above rest
  | [], _ => []
  | _, [] => []

namespace Visit

/-- The nodes above a node, innermost first. -/
def above (v : Visit) : List Visit := visitsUp v.place v.ancestors

/-- The nodes below a node, in pre-order. -/
def below (v : Visit) : List Visit := Tree.visitsOf v.place (v.node :: v.ancestors) 0 v.node.children

/-- The child of a node at a position. -/
def child? (v : Visit) (i : Nat) : Option Visit :=
  (v.node.children[i]?).map fun t => ⟨t, i :: v.place, v.node :: v.ancestors⟩

-- ================================================================ children

section

variable {c d v : Visit} {i : Nat}

theorem child?_eq_some_iff :
    v.child? i = some c
      ↔ v.node.children[i]? = some c.node ∧ c.place = i :: v.place
        ∧ c.ancestors = v.node :: v.ancestors := by
  obtain ⟨t, place, ancestors⟩ := c
  simp only [child?, Option.map_eq_some_iff, Visit.mk.injEq]
  constructor
  · rintro ⟨t', ht, rfl, rfl, rfl⟩
    exact ⟨ht, rfl, rfl⟩
  · rintro ⟨ht, rfl, rfl⟩
    exact ⟨t, ht, rfl, rfl, rfl⟩

theorem place_of_child (h : v.child? i = some c) : c.place = i :: v.place :=
  (child?_eq_some_iff.mp h).2.1

theorem above_of_child (h : v.child? i = some c) : c.above = v :: v.above := by
  obtain ⟨-, hplace, hancestors⟩ := child?_eq_some_iff.mp h
  rw [above, hplace, hancestors]
  rfl

/-- Visiting a node is visiting it and then what lies below it. -/
theorem visitsFrom_eq (v : Visit) :
    Tree.visitsFrom v.place v.ancestors v.node = v :: v.below := by
  obtain ⟨⟨k, f, e, cs⟩, place, ancestors⟩ := v
  rw [Tree.visitsFrom]
  rfl

/-- What lies below a node is one of its children or lies below one. -/
theorem mem_below_iff :
    d ∈ v.below ↔ ∃ i c, v.child? i = some c ∧ (d = c ∨ d ∈ c.below) := by
  have hchild : ∀ i t, v.node.children[i]? = some t →
      v.child? i = some ⟨t, i :: v.place, v.node :: v.ancestors⟩ := fun i t ht =>
    child?_eq_some_iff.mpr ⟨ht, rfl, rfl⟩
  constructor
  · intro h
    obtain ⟨before, t, after, hchildren, hd⟩ := Tree.exists_child_of_mem_visitsOf h
    rw [Nat.zero_add] at hd
    have ht : v.node.children[before.length]? = some t := by
      rw [hchildren, List.getElem?_append_right (Nat.le_refl _), Nat.sub_self]
      rfl
    refine ⟨before.length, _, hchild _ t ht, ?_⟩
    rw [← List.mem_cons, ← visitsFrom_eq]
    exact hd
  · rintro ⟨i, c, hc, hd⟩
    obtain ⟨ht, hplace, hancestors⟩ := child?_eq_some_iff.mp hc
    obtain ⟨hlt, ht⟩ := List.getElem?_eq_some_iff.mp ht
    rw [← List.mem_cons, ← visitsFrom_eq, hplace, hancestors] at hd
    rw [below, ← List.take_append_drop i v.node.children, List.drop_eq_getElem_cons hlt, ht,
      Tree.visitsOf_append, Tree.visitsOf, List.length_take_of_le (Nat.le_of_lt hlt), Nat.zero_add]
    exact List.mem_append_right _ (List.mem_append_left _ hd)

/-- What holds of the parent of a node, and of the parent of whatever it holds of,
holds of all nodes that the node lies below. -/
theorem below_induction {motive : (c : Visit) → d ∈ c.below → Prop}
    (parent : ∀ c i (h : c.child? i = some d), motive c (mem_below_iff.mpr ⟨i, d, h, .inl rfl⟩))
    (further : ∀ c i x (hx : c.child? i = some x) (hd : d ∈ x.below), motive x hd →
      motive c (mem_below_iff.mpr ⟨i, x, hx, .inr hd⟩))
    (h : d ∈ c.below) : motive c h := by
  generalize ht : c.node = t
  induction t using Tree.induction generalizing c with
  | node k f e cs ih =>
      obtain ⟨i, x, hx, rfl | hd⟩ := mem_below_iff.mp h
      · exact parent c i hx
      · have hmem : x.node ∈ cs := by
          have hchild := (child?_eq_some_iff.mp hx).1
          rw [ht] at hchild
          exact List.mem_of_getElem? hchild
        exact further c i x hx hd (ih x.node hmem hd rfl)

-- ================================================================== places

/-- Up from a node, places get shorter. -/
theorem length_place_lt_of_mem_above (h : c ∈ v.above) : c.place.length < v.place.length := by
  obtain ⟨t, place, ancestors⟩ := v
  have hup : ∀ (place : List Nat) (ancestors : List Tree), c ∈ visitsUp place ancestors →
      c.place.length < place.length := by
    intro place ancestors hc
    induction place generalizing ancestors with
    | nil => cases hc
    | cons p rest ih =>
        cases ancestors with
        | nil => cases hc
        | cons a further =>
            rcases List.mem_cons.mp hc with rfl | hc
            · exact Nat.lt_succ_self _
            · exact Nat.lt_succ_of_lt (ih further hc)
  exact hup place ancestors h

theorem length_place_lt_of_mem_below (h : d ∈ c.below) : c.place.length < d.place.length := by
  induction h using below_induction with
  | parent c i hd =>
      rw [place_of_child hd]
      exact Nat.lt_succ_self _
  | further c i x hx _ ih =>
      rw [place_of_child hx] at ih
      exact Nat.lt_of_succ_lt ih

/-- A node below another that stands where a child of it would stand is this
child. -/
theorem child_of_place (h : d ∈ c.below) (hplace : d.place = i :: c.place) :
    c.child? i = some d := by
  obtain ⟨j, x, hx, rfl | hd⟩ := mem_below_iff.mp h
  · rw [place_of_child hx] at hplace
    obtain rfl : j = i := (List.cons.inj hplace).1
    exact hx
  · have hlonger := length_place_lt_of_mem_below hd
    rw [place_of_child hx, hplace] at hlonger
    exact absurd hlonger (Nat.lt_irrefl _)

-- ================================================================= between

/-- The way up from a node passes through every node that it lies below. What comes
before that on the way lies between the two. -/
theorem exists_between (h : d ∈ c.below) :
    ∃ between, d.above = between ++ c :: c.above ∧ ∀ x ∈ between, x ∈ c.below ∧ d ∈ x.below := by
  induction h using below_induction with
  | parent c i hd => exact ⟨[], above_of_child hd, fun x hx => by cases hx⟩
  | further c i x hx hd ih =>
      obtain ⟨between, habove, hbetween⟩ := ih
      refine ⟨between ++ [x], ?_, fun y hy => ?_⟩
      · rw [habove, above_of_child hx, List.append_assoc]
        rfl
      · rcases List.mem_append.mp hy with hy | hy
        · obtain ⟨hbelow, hd⟩ := hbetween y hy
          exact ⟨mem_below_iff.mpr ⟨i, x, hx, .inr hbelow⟩, hd⟩
        · obtain rfl := List.mem_singleton.mp hy
          exact ⟨mem_below_iff.mpr ⟨i, y, hx, .inl rfl⟩, hd⟩

end

end Visit

end CodeMap.Syntax
