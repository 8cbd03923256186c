/-
The trees of the slots, moved below one another.

The search leaves slots and, for each, the positions of the slots found from it.
`assemble` is the tree at a position: below a slot stand the trees of the slots
found from it. It need not stop anywhere but at a slot from which nothing was
found, since a slot comes before the slots found from it.

# From the last slot back to the first

The loop that builds the tree does not recur. It starts with a table of bare
trees, goes through the slots from the last one to the first, and takes the trees
of the slots found from a slot out of the table to hang them below its own.
`FoldedTo` describes every place of the table when all slots from a position on
were folded back: earlier slots are bare, slots found from one of these are taken,
and the trees of all others are assembled. The order of the loop is what a step
needs (`FoldedTo.step`): the slots found from a slot come after it, so their trees
are assembled when they are taken, and each was found from one slot only, so none
is taken before. At the end only the root is left.
-/
import CodeMap.Proofs.Traversal.Frontier

namespace CodeMap

namespace CodeTree

def row : CodeTree → NodeRow
  | node row _ _ => row

def relationship : CodeTree → Option String
  | node _ relationship _ => relationship

def children : CodeTree → List CodeTree
  | node _ _ children => children

end CodeTree

namespace Traversal

variable {s : Store} {repo : String} {root : NodeRow} {maxDepth : Nat}
variable {slots : List Slot} {children : List (List Nat)}

-- ============================================================ trees of slots

/-- The slots that were found from the slot at a position, with their own. -/
def foundFrom (slots : List Slot) (children : List (List Nat)) (p : Nat) : List (Slot × Nat) :=
  ((children[p]?.getD []).filter (p < ·)).filterMap fun i => slots[i]?.map fun c => (c, i)

theorem foundFrom_iff {p i : Nat} : FoundFrom children p i ↔ i ∈ children[p]?.getD [] := by
  rw [FoundFrom]
  cases children[p]? with
  | none => simp
  | some found => simp

theorem mem_foundFrom_iff {p i : Nat} {c : Slot} :
    (c, i) ∈ foundFrom slots children p
      ↔ FoundFrom children p i ∧ p < i ∧ slots[i]? = some c := by
  rw [foundFrom_iff]
  constructor
  · intro h
    obtain ⟨j, hj, heq⟩ := List.mem_filterMap.mp h
    obtain ⟨hfound, hlt⟩ := List.mem_filter.mp hj
    obtain ⟨d, hd, hpair⟩ := Option.map_eq_some_iff.mp heq
    cases hpair
    exact ⟨hfound, of_decide_eq_true hlt, hd⟩
  · rintro ⟨hfound, hlt, hc⟩
    refine List.mem_filterMap.mpr ⟨i, List.mem_filter.mpr ⟨hfound, decide_eq_true hlt⟩, ?_⟩
    rw [hc, Option.map_some]

/-- The tree at a position: below a slot stand the slots found from it. -/
def assemble (slots : List Slot) (children : List (List Nat)) (p : Nat) (slot : Slot) : CodeTree :=
  .node slot.row slot.relationship
    ((foundFrom slots children p).attach.map fun ⟨(c, i), _⟩ => assemble slots children i c)
termination_by slots.length - p
decreasing_by
  obtain ⟨-, hlt, hc⟩ := mem_foundFrom_iff.mp ‹_›
  have hlast := (List.getElem?_eq_some_iff.mp hc).1
  omega

theorem assemble_eq (slots : List Slot) (children : List (List Nat)) (p : Nat) (slot : Slot) :
    assemble slots children p slot
      = .node slot.row slot.relationship
        ((foundFrom slots children p).map fun (c, i) => assemble slots children i c) := by
  rw [assemble]
  congr 1
  exact List.attach_map_val (f := fun (c, i) => assemble slots children i c)

theorem row_assemble (slots : List Slot) (children : List (List Nat)) (p : Nat) (slot : Slot) :
    (assemble slots children p slot).row = slot.row := by
  rw [assemble_eq, CodeTree.row]

theorem relationship_assemble (slots : List Slot) (children : List (List Nat)) (p : Nat)
    (slot : Slot) : (assemble slots children p slot).relationship = slot.relationship := by
  rw [assemble_eq, CodeTree.relationship]

theorem children_assemble (slots : List Slot) (children : List (List Nat)) (p : Nat)
    (slot : Slot) : (assemble slots children p slot).children
      = (foundFrom slots children p).map fun (c, i) => assemble slots children i c := by
  rw [assemble_eq, CodeTree.children]

/-- Induction along the slots that were found from a slot. -/
theorem foundFrom_induction (slots : List Slot) (children : List (List Nat))
    {motive : Nat → Slot → Prop}
    (step : ∀ p slot, (∀ c i, (c, i) ∈ foundFrom slots children p → motive i c) → motive p slot)
    (p : Nat) (slot : Slot) : motive p slot := by
  induction p, slot using assemble.induct slots children with
  | case1 p slot ih => exact step p slot fun c i hc => ih c i hc

namespace Arena

/-- Only slots that come after a slot were found from it. -/
theorem mem_foundFrom_iff (h : Arena s repo root maxDepth slots children) {p i : Nat} {c : Slot} :
    (c, i) ∈ foundFrom slots children p ↔ FoundFrom children p i ∧ slots[i]? = some c := by
  rw [Traversal.mem_foundFrom_iff]
  constructor
  · rintro ⟨hfrom, -, hc⟩
    exact ⟨hfrom, hc⟩
  · rintro ⟨hfrom, hc⟩
    exact ⟨hfrom, (h.earlier p i hfrom).1, hc⟩

theorem exists_slot (h : Arena s repo root maxDepth slots children) {p i : Nat}
    (hi : FoundFrom children p i) : ∃ c, slots[i]? = some c :=
  ⟨_, List.getElem?_eq_getElem (h.earlier p i hi).2⟩

/-- No slot is listed twice among those found from one slot, since a slot is not
ordered before itself. -/
theorem nodup_found (h : Arena s repo root maxDepth slots children) (p : Nat) :
    (children[p]?.getD []).Nodup := by
  cases hfound : children[p]? with
  | none => exact List.nodup_nil
  | some found =>
      have hlt : p < slots.length := by
        rw [← h.listed]
        exact (List.getElem?_eq_some_iff.mp hfound).1
      have hordered := h.siblings p found slots[p] hfound (List.getElem?_eq_getElem hlt)
      refine hordered.imp_of_mem fun {i j} hi _ hij heq => ?_
      subst heq
      obtain ⟨c, hc⟩ := h.exists_slot ⟨found, hfound, hi⟩
      exact Nat.lt_irrefl _ (hij c c hc hc)

/-- The slots found from a slot stand in the order of their edges. -/
theorem pairwise_foundFrom (h : Arena s repo root maxDepth slots children) {p : Nat} {slot : Slot}
    (hp : slots[p]? = some slot) :
    (foundFrom slots children p).Pairwise fun a b =>
      s.firstPlace repo slot.row.nodeId a.1.row.nodeId
        < s.firstPlace repo slot.row.nodeId b.1.row.nodeId := by
  have hlt : p < children.length := by
    rw [h.listed]
    exact (List.getElem?_eq_some_iff.mp hp).1
  have hfound : children[p]? = some children[p] := List.getElem?_eq_getElem hlt
  rw [foundFrom, hfound, Option.getD_some, List.pairwise_filterMap]
  refine ((h.siblings p _ slot hfound hp).filter _).imp fun {i j} hij a ha b hb => ?_
  obtain ⟨c, hc, rfl⟩ := Option.map_eq_some_iff.mp ha
  obtain ⟨d, hd, rfl⟩ := Option.map_eq_some_iff.mp hb
  exact hij c d hc hd

end Arena

-- ============================================================= taken trees

/-- Every tree is taken once, from where it stands. -/
theorem takeTrees_fst {positions : List Nat} (hnodup : positions.Nodup)
    (built : List (Option CodeTree)) :
    (takeTrees positions built).1 = positions.filterMap fun i => built[i]?.join := by
  induction positions generalizing built with
  | nil => rfl
  | cons i rest ih =>
      obtain ⟨hi, hrest⟩ := List.nodup_cons.mp hnodup
      -- what was taken first is not among the rest
      have hkept : ∀ j ∈ rest, ((built.set i none)[j]?).join = (built[j]?).join := by
        intro j hj
        rw [List.getElem?_set_ne]
        exact fun heq => hi (heq ▸ hj)
      simp only [takeTrees]
      rw [ih hrest, List.filterMap_congr hkept, List.filterMap_cons]
      cases (built[i]?).join <;> rfl

/-- What was taken leaves an empty place, and nothing else changes. -/
theorem getElem?_takeTrees (positions : List Nat) (built : List (Option CodeTree)) (i : Nat) :
    (takeTrees positions built).2[i]?
      = if i ∈ positions then built[i]?.map fun _ => none else built[i]? := by
  induction positions generalizing built with
  | nil => rfl
  | cons j rest ih =>
      simp only [takeTrees]
      rw [ih, List.getElem?_set]
      by_cases hij : j = i
      · subst hij
        rw [if_pos rfl, if_pos List.mem_cons_self]
        by_cases hlt : j < built.length
        · simp [hlt]
        · simp [hlt]
      · rw [if_neg hij]
        have hiff : i ∈ j :: rest ↔ i ∈ rest := by
          rw [List.mem_cons]
          exact or_iff_right (Ne.symm hij)
        simp only [hiff]

-- ================================================================ fold back

/-- Folding a slot back takes the trees of the slots found from it, and leaves all
other places but its own alone. -/
theorem getElem?_foldSlot_of_ne (children : List (List Nat)) (built : List (Option CodeTree))
    {k i : Nat} (hi : i ≠ k) :
    (foldSlot children built k)[i]?
      = if i ∈ children[k]?.getD [] then built[i]?.map fun _ => none else built[i]? := by
  simp only [foldSlot]
  rw [List.getElem?_modify_ne _ _ hi.symm, getElem?_takeTrees]

/-- Folding a slot back hangs what was taken below its own tree. -/
theorem getElem?_foldSlot_self {children : List (List Nat)} (built : List (Option CodeTree))
    {k : Nat} (hk : k ∉ children[k]?.getD []) :
    (foldSlot children built k)[k]?
      = built[k]?.map (Option.map (hang (takeTrees (children[k]?.getD []) built).1)) := by
  simp only [foldSlot]
  rw [List.getElem?_modify_eq, getElem?_takeTrees, if_neg hk]
  rfl

/-- The table when the slots from a position on were folded back. -/
structure FoldedTo (slots : List Slot) (children : List (List Nat)) (k : Nat)
    (built : List (Option CodeTree)) : Prop where
  bare : ∀ i slot, i < k → slots[i]? = some slot → built[i]? = some (some slot.bare)
  taken : ∀ p i, k ≤ p → FoundFrom children p i → built[i]? = some none
  whole : ∀ i slot, k ≤ i → slots[i]? = some slot → (∀ p, k ≤ p → ¬FoundFrom children p i) →
    built[i]? = some (some (assemble slots children i slot))

namespace FoldedTo

variable {built : List (Option CodeTree)} {k : Nat}

/-- Before the loop all trees are bare. -/
theorem init (h : Arena s repo root maxDepth slots children) :
    FoldedTo slots children slots.length (slots.map fun slot => some slot.bare) where
  bare i slot _ hi := by rw [List.getElem?_map, hi, Option.map_some]
  taken p i hp hi := by
    obtain ⟨hearlier, hlast⟩ := h.earlier p i hi
    omega
  whole i slot hle hi _ := by
    have hlast := (List.getElem?_eq_some_iff.mp hi).1
    omega

/-- The trees of the slots found from a slot are assembled when they are taken:
these slots come after it, and were found from no other slot. -/
theorem getElem?_of_foundFrom (h : FoldedTo slots children (k + 1) built)
    (harena : Arena s repo root maxDepth slots children) {i : Nat} {c : Slot}
    (hi : FoundFrom children k i) (hc : slots[i]? = some c) :
    built[i]? = some (some (assemble slots children i c)) := by
  refine h.whole i c (harena.earlier k i hi).1 hc fun p hp hother => ?_
  rw [harena.once p k i hother hi] at hp
  exact Nat.lt_irrefl k hp

/-- The trees that are taken for a slot are those below it. -/
theorem trees_taken (h : FoldedTo slots children (k + 1) built)
    (harena : Arena s repo root maxDepth slots children) :
    (takeTrees (children[k]?.getD []) built).1
      = (foundFrom slots children k).map fun (c, i) => assemble slots children i c := by
  have hafter : (children[k]?.getD []).filter (k < ·) = children[k]?.getD [] := by
    rw [List.filter_eq_self]
    exact fun i hi => decide_eq_true (harena.earlier k i (foundFrom_iff.mpr hi)).1
  rw [takeTrees_fst (harena.nodup_found k), foundFrom, hafter, List.map_filterMap]
  refine List.filterMap_congr fun i hi => ?_
  have hfrom := foundFrom_iff.mpr hi
  obtain ⟨c, hc⟩ := harena.exists_slot hfrom
  rw [h.getElem?_of_foundFrom harena hfrom hc, hc]
  rfl

/-- The slot that is folded back holds its whole tree. -/
theorem whole_foldSlot (h : FoldedTo slots children (k + 1) built)
    (harena : Arena s repo root maxDepth slots children) {slot : Slot}
    (hk : slots[k]? = some slot) :
    (foldSlot children built k)[k]? = some (some (assemble slots children k slot)) := by
  have hnot : k ∉ children[k]?.getD [] := fun hmem =>
    Nat.lt_irrefl k (harena.earlier k k (foundFrom_iff.mpr hmem)).1
  rw [getElem?_foldSlot_self built hnot, h.trees_taken harena, assemble_eq,
    h.bare k slot (Nat.lt_succ_self k) hk]
  rfl

/-- One slot more is folded back. -/
theorem step (h : FoldedTo slots children (k + 1) built)
    (harena : Arena s repo root maxDepth slots children) :
    FoldedTo slots children k (foldSlot children built k) where
  bare i slot hi hslot := by
    have hnot : i ∉ children[k]?.getD [] := by
      intro hmem
      have hlt := (harena.earlier k i (foundFrom_iff.mpr hmem)).1
      omega
    rw [getElem?_foldSlot_of_ne children built (Nat.ne_of_lt hi), if_neg hnot]
    exact h.bare i slot (by omega) hslot
  taken p i hp hi := by
    have hlt := (harena.earlier p i hi).1
    rw [getElem?_foldSlot_of_ne children built (by omega)]
    rcases Nat.lt_or_eq_of_le hp with hp | rfl
    · rw [h.taken p i hp hi]
      split <;> rfl
    · obtain ⟨c, hc⟩ := harena.exists_slot hi
      rw [if_pos (foundFrom_iff.mp hi), h.getElem?_of_foundFrom harena hi hc, Option.map_some]
  whole i slot hle hslot hnobody := by
    rcases Nat.lt_or_eq_of_le hle with hlt | rfl
    · have hnot : i ∉ children[k]?.getD [] := fun hmem =>
        hnobody k (Nat.le_refl k) (foundFrom_iff.mpr hmem)
      rw [getElem?_foldSlot_of_ne children built (Nat.ne_of_gt hlt), if_neg hnot]
      exact h.whole i slot hlt hslot fun p hp => hnobody p (Nat.le_of_succ_le hp)
    · exact h.whole_foldSlot harena hslot

/-- The loop from a position back to the first slot. -/
theorem run (harena : Arena s repo root maxDepth slots children) (k : Nat)
    (h : FoldedTo slots children k built) :
    FoldedTo slots children 0 ((List.range k).reverse.foldl (foldSlot children) built) := by
  induction k generalizing built with
  | zero => exact h
  | succ k ih =>
      rw [List.range_succ, List.reverse_append, List.reverse_singleton, List.singleton_append,
        List.foldl_cons]
      exact ih (h.step harena)

end FoldedTo

/-- The first place of the table holds the whole tree at the end: nobody found
the root, so it is never taken. -/
theorem head?_foldBack (h : Arena s repo root maxDepth slots children) :
    (foldBack children (slots.map fun slot => some slot.bare)).head?.join
      = some (assemble slots children 0 ⟨root, none, 0⟩) := by
  have hend := FoldedTo.run h slots.length (.init h)
  have hroot := hend.whole 0 _ (Nat.le_refl 0) h.first fun p _ hp =>
    Nat.not_lt_zero p (h.earlier p 0 hp).1
  rw [foldBack, List.length_map, List.head?_eq_getElem?, hroot]
  rfl

end Traversal

end CodeMap
