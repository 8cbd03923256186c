/-
The search behind the tree of references.

Slots are found breadth first, and each goes to the end of the list of positions
of the slot it was found from. `Arena` says what slots and lists are at every
point of the search: the root comes first, every slot holds a stored node of its
own, and every other slot was found from exactly one earlier one and is joined to
it by the first edge that leads from the one node to the other.

# Breadth first

`Expanding` adds how far the search has come: the slots before a position are
expanded, and of the edges that leave the slot at the position some were
followed. The queue holds the positions that are left, in order
(`Frontier.Queued`). Slots are in the order of their depths, and none is more than
one deeper than the slot at the position. That is what makes depths into
distances: a node that an expanded slot refers to, and that was met before, is
at most one deeper than that slot (`Expanding.next`).

# Distances

A chain of slots is a walk, so no depth is less than the distance
(`Arena.walk`). At the end every slot is expanded, so a walk that is not
deeper than allowed can be followed slot by slot, and no depth is more than
the distance (`Expanding.mem_of_walk`).
-/
import CodeMap.Proofs.Traversal.Rows
import Mathlib.Data.List.Perm.Subperm

namespace CodeMap

namespace Store

-- ==================================================================== walks

/-- A walk from one stored node to another along edges between stored nodes,
with its length. -/
inductive Walk (s : Store) (repo : String) (root : NodeRow) : NodeRow → Nat → Prop where
  | here : root ∈ s.nodesOf repo → Walk s repo root root 0
  | step {a b : NodeRow} {length : Nat} : Walk s repo root a length → b ∈ s.nodesOf repo →
      s.Leads repo a.nodeId b.nodeId → Walk s repo root b (length + 1)

/-- The length of the shortest walks from one node to another. -/
def Distance (s : Store) (repo : String) (root n : NodeRow) (d : Nat) : Prop :=
  s.Walk repo root n d ∧ ∀ length, s.Walk repo root n length → d ≤ length

-- ============================================================== first edges

/-- The edge that was inserted first of those that lead from one id to
another. -/
def firstEdge? (s : Store) (repo a b : String) : Option EdgeRow :=
  (s.outgoing repo a).find? (·.targetId == b)

/-- The place of that edge among all edges that leave the one id. -/
def firstPlace (s : Store) (repo a b : String) : Nat :=
  (s.outgoing repo a).findIdx (·.targetId == b)

theorem leads_iff {s : Store} {repo a b : String} :
    s.Leads repo a b ↔ ∃ e ∈ s.outgoing repo a, e.targetId = b := by
  constructor
  · rintro ⟨e, he, hsource, htarget⟩
    exact ⟨e, List.mem_filter.mpr ⟨he, beq_iff_eq.mpr hsource⟩, htarget⟩
  · rintro ⟨e, he, htarget⟩
    obtain ⟨hmem, hsource⟩ := List.mem_filter.mp he
    exact ⟨e, hmem, beq_iff_eq.mp hsource, htarget⟩

theorem leads_of_firstEdge? {s : Store} {repo a b : String} {e : EdgeRow}
    (h : s.firstEdge? repo a b = some e) : s.Leads repo a b := by
  have htarget := List.find?_some h
  exact leads_iff.mpr ⟨e, List.mem_of_find?_eq_some h, beq_iff_eq.mp htarget⟩

section Split

variable {s : Store} {repo a : String} {earlier later : List EdgeRow}

/-- An edge with a target that no earlier edge has is the first one. -/
theorem firstEdge?_of_split {e : EdgeRow} (hout : s.outgoing repo a = earlier ++ e :: later)
    (hnew : e.targetId ∉ earlier.map (·.targetId)) :
    s.firstEdge? repo a e.targetId = some e
      ∧ s.firstPlace repo a e.targetId = earlier.length := by
  have hmiss : ∀ d ∈ earlier, (d.targetId == e.targetId) = false := by
    intro d hd
    rw [beq_eq_false_iff_ne]
    exact fun heq => hnew (List.mem_map.mpr ⟨d, hd, heq⟩)
  constructor
  · rw [firstEdge?, hout, List.find?_append, List.find?_eq_none.mpr (by simpa using hmiss)]
    simp
  · rw [firstPlace, hout, List.findIdx_append, List.findIdx_eq_length.mpr hmiss]
    simp [List.findIdx_cons]

/-- The first edge to the target of an earlier edge is one of the earlier
ones. -/
theorem firstPlace_lt {b : String} (hout : s.outgoing repo a = earlier ++ later)
    (hb : b ∈ earlier.map (·.targetId)) : s.firstPlace repo a b < earlier.length := by
  obtain ⟨e, he, htarget⟩ := List.mem_map.mp hb
  have hlt : earlier.findIdx (·.targetId == b) < earlier.length :=
    List.findIdx_lt_length.mpr ⟨e, he, beq_iff_eq.mpr htarget⟩
  rw [firstPlace, hout, List.findIdx_append, if_pos hlt]
  exact hlt

end Split

theorem Keyed.eq_of_nodeId {s : Store} (h : s.Keyed) {repo : String} {a b : NodeRow}
    (ha : a ∈ s.nodesOf repo) (hb : b ∈ s.nodesOf repo) (hid : a.nodeId = b.nodeId) : a = b := by
  have hfound := h.node?_nodeId_iff.mpr ha
  rw [hid, h.node?_nodeId_iff.mpr hb] at hfound
  exact (Option.some.inj hfound).symm

end Store

namespace Traversal

-- ==================================================================== slots

/-- A slot was found from another one: it is one deeper, and is joined by the
first edge between the two nodes. -/
structure Slot.ChildOf (s : Store) (repo : String) (child parent : Slot) : Prop where
  depth : child.depth = parent.depth + 1
  edge : ∃ e, s.firstEdge? repo parent.row.nodeId child.row.nodeId = some e
    ∧ child.relationship = some e.relationshipType

/-- The slot at one position was found from the slot at another. -/
def FoundFrom (children : List (List Nat)) (p i : Nat) : Prop :=
  ∃ found, children[p]? = some found ∧ i ∈ found

/-- The slots of a search from a root. The last field orders the slots that
were found from one slot as their edges are. -/
structure Arena (s : Store) (repo : String) (root : NodeRow) (maxDepth : Nat)
    (slots : List Slot) (children : List (List Nat)) : Prop where
  first : slots[0]? = some ⟨root, none, 0⟩
  stored : ∀ slot ∈ slots, slot.row ∈ s.nodesOf repo
  distinct : (slots.map fun slot => slot.row.nodeId).Nodup
  shallow : ∀ slot ∈ slots, slot.depth ≤ maxDepth
  listed : children.length = slots.length
  found : ∀ i < slots.length, i ≠ 0 → ∃ p, FoundFrom children p i
  earlier : ∀ p i, FoundFrom children p i → p < i ∧ i < slots.length
  once : ∀ p q i, FoundFrom children p i → FoundFrom children q i → p = q
  linked : ∀ p i parent slot, FoundFrom children p i → slots[p]? = some parent →
    slots[i]? = some slot → slot.ChildOf s repo parent
  siblings : ∀ (p : Nat) (found : List Nat) (parent : Slot), children[p]? = some found →
    slots[p]? = some parent →
    found.Pairwise fun i j => ∀ a b, slots[i]? = some a → slots[j]? = some b →
      s.firstPlace repo parent.row.nodeId a.row.nodeId
        < s.firstPlace repo parent.row.nodeId b.row.nodeId

variable {s : Store} {repo : String} {root : NodeRow} {maxDepth : Nat}

/-- A slot keeps its position when more are appended. -/
theorem getElem?_append_of_eq_some {slots more : List Slot} {slot : Slot} {i : Nat}
    (h : slots[i]? = some slot) : (slots ++ more)[i]? = some slot := by
  rw [List.getElem?_append_left (List.getElem?_eq_some_iff.mp h).1, h]

/-- Nothing was found from a root alone. -/
theorem not_foundFrom_singleton (p i : Nat) : ¬FoundFrom [[]] p i := by
  rintro ⟨found, hfound, hi⟩
  rw [List.mem_singleton.mp (List.mem_of_getElem? hfound)] at hi
  cases hi

/-- Lists of children after one more slot was found: the list of its parent is
longer by one, and its own list is empty. -/
theorem getElem?_children {children : List (List Nat)} {parent child p : Nat} {found : List Nat}
    (h : (children.modify parent (· ++ [child]) ++ [[]])[p]? = some found) :
    found = [] ∨ ∃ old, children[p]? = some old
      ∧ found = if parent = p then old ++ [child] else old := by
  rcases Nat.lt_or_ge p children.length with hlt | hge
  · rw [List.getElem?_append_left (by rwa [List.length_modify]), List.getElem?_modify,
      List.getElem?_eq_getElem hlt, Option.map_eq_map, Option.map_some] at h
    refine .inr ⟨_, List.getElem?_eq_getElem hlt, ?_⟩
    rw [← Option.some.inj h]
  · rw [List.getElem?_append_right (by rwa [List.length_modify])] at h
    exact .inl (List.mem_singleton.mp (List.mem_of_getElem? h))

/-- One more slot is found from its parent, and nothing else changes. -/
theorem foundFrom_push {children : List (List Nat)} {parent child p i : Nat}
    (hparent : parent < children.length) :
    FoundFrom (children.modify parent (· ++ [child]) ++ [[]]) p i
      ↔ FoundFrom children p i ∨ (p = parent ∧ i = child) := by
  constructor
  · rintro ⟨found, hfound, hi⟩
    rcases getElem?_children hfound with rfl | ⟨old, hold, rfl⟩
    · cases hi
    · split at hi
      next heq =>
        rcases List.mem_append.mp hi with hi | hi
        · exact .inl ⟨old, hold, hi⟩
        · exact .inr ⟨heq.symm, List.mem_singleton.mp hi⟩
      next => exact .inl ⟨old, hold, hi⟩
  · have hmore : ∀ old, children[p]? = some old →
        (children.modify parent (· ++ [child]) ++ [[]])[p]?
          = some (if parent = p then old ++ [child] else old) := by
      intro old hold
      have hlt := (List.getElem?_eq_some_iff.mp hold).1
      rw [List.getElem?_append_left (by rwa [List.length_modify]), List.getElem?_modify, hold]
      split <;> rfl
    rintro (⟨old, hold, hi⟩ | ⟨rfl, rfl⟩)
    · refine ⟨_, hmore old hold, ?_⟩
      split
      · exact List.mem_append_left _ hi
      · exact hi
    · refine ⟨_, hmore _ (List.getElem?_eq_getElem hparent), ?_⟩
      rw [if_pos rfl]
      exact List.mem_append_right _ (List.mem_singleton_self i)

/-- One more slot was found: a list stays in order when it was, and when the slots
found from the same one before come first. -/
theorem pairwise_push {children : List (List Nat)} {parent child p : Nat} {found : List Nat}
    {before : Nat → Nat → Prop}
    (hfound : (children.modify parent (· ++ [child]) ++ [[]])[p]? = some found)
    (hkept : ∀ old, children[p]? = some old → old.Pairwise before)
    (hlast : p = parent → ∀ i, FoundFrom children p i → before i child) :
    found.Pairwise before := by
  rcases getElem?_children hfound with rfl | ⟨old, hold, rfl⟩
  · exact List.Pairwise.nil
  · split
    next heq =>
      refine List.pairwise_append.mpr ⟨hkept old hold, List.pairwise_singleton _ _, ?_⟩
      intro i hi j hj
      rw [List.mem_singleton.mp hj]
      exact hlast heq.symm i ⟨old, hold, hi⟩
    next => exact hkept old hold

namespace Arena

variable {slots : List Slot} {children : List (List Nat)}

theorem init (hroot : root ∈ s.nodesOf repo) :
    Arena s repo root maxDepth [⟨root, none, 0⟩] [[]] := by
  have hnone := not_foundFrom_singleton
  refine ⟨rfl, fun slot hslot => ?_, List.nodup_singleton _, fun slot hslot => ?_, rfl,
    fun i hi hne => ?_, fun p i hi => absurd hi (hnone p i), fun p q i hi => absurd hi (hnone p i),
    fun p i parent slot hi => absurd hi (hnone p i), fun p found parent hfound _ => ?_⟩
  · rw [List.mem_singleton.mp hslot]
    exact hroot
  · rw [List.mem_singleton.mp hslot]
    exact Nat.zero_le maxDepth
  · exact absurd (Nat.lt_one_iff.mp hi) hne
  · rw [List.mem_singleton.mp (List.mem_of_getElem? hfound)]
    exact List.Pairwise.nil

/-- A slot holds a node of its own, so there are no more slots than nodes. -/
theorem length_le (h : Arena s repo root maxDepth slots children) :
    slots.length ≤ s.nodes.length := by
  have hrows : (slots.map Slot.row).Nodup := by
    refine List.Nodup.of_map NodeRow.nodeId ?_
    rw [List.map_map]
    exact h.distinct
  have hsubset : slots.map Slot.row ⊆ s.nodes := by
    intro row hrow
    obtain ⟨slot, hslot, rfl⟩ := List.mem_map.mp hrow
    exact (List.mem_filter.mp (h.stored slot hslot)).1
  have hlength := (hrows.subperm hsubset).length_le
  rwa [List.length_map] at hlength

/-- The slots found from a slot are positions of slots, so a slot at the end does
not touch them. -/
theorem getElem?_of_concat (h : Arena s repo root maxDepth slots children) {c slot : Slot}
    {p i : Nat} (hi : FoundFrom children p i) (hslot : (slots ++ [c])[i]? = some slot) :
    slots[i]? = some slot := by
  rwa [List.getElem?_append_left (h.earlier p i hi).2] at hslot

/-- A further slot, found from one of the slots over an edge that comes after
the edges to the slots found from the same one before. -/
theorem concat (h : Arena s repo root maxDepth slots children) {parent : Nat} {c p : Slot}
    (hp : slots[parent]? = some p) (hstored : c.row ∈ s.nodesOf repo)
    (hnew : c.row.nodeId ∉ slots.map fun slot => slot.row.nodeId) (hdepth : c.depth ≤ maxDepth)
    (hchild : c.ChildOf s repo p)
    (hplace : ∀ i slot, FoundFrom children parent i → slots[i]? = some slot →
      s.firstPlace repo p.row.nodeId slot.row.nodeId
        < s.firstPlace repo p.row.nodeId c.row.nodeId) :
    Arena s repo root maxDepth (slots ++ [c])
      (children.modify parent (· ++ [slots.length]) ++ [[]]) := by
  have hlt : parent < slots.length := (List.getElem?_eq_some_iff.mp hp).1
  have hpush : ∀ q i, FoundFrom (children.modify parent (· ++ [slots.length]) ++ [[]]) q i
      ↔ FoundFrom children q i ∨ (q = parent ∧ i = slots.length) := fun q i =>
    foundFrom_push (h.listed ▸ hlt)
  have hown : ∀ q, (slots ++ [c])[parent]? = some q → q = p := by
    intro q hq
    rw [List.getElem?_append_left hlt, hp] at hq
    exact (Option.some.inj hq).symm
  refine ⟨getElem?_append_of_eq_some h.first, ?_, ?_, ?_, ?_, ?_, ?_, ?_, ?_, ?_⟩
  · intro slot hslot
    rcases List.mem_append.mp hslot with hslot | hslot
    · exact h.stored slot hslot
    · rw [List.mem_singleton.mp hslot]
      exact hstored
  · rw [List.map_append, List.nodup_append]
    refine ⟨h.distinct, List.nodup_singleton _, fun a ha b hb heq => hnew ?_⟩
    have hb' : b = c.row.nodeId := List.mem_singleton.mp hb
    rwa [← hb', ← heq]
  · intro slot hslot
    rcases List.mem_append.mp hslot with hslot | hslot
    · exact h.shallow slot hslot
    · rw [List.mem_singleton.mp hslot]
      exact hdepth
  · rw [List.length_append, List.length_append, List.length_modify, h.listed]
    rfl
  · intro i hi hne
    rw [List.length_append, List.length_singleton] at hi
    rcases Nat.lt_succ_iff_lt_or_eq.mp hi with hi | rfl
    · obtain ⟨q, hq⟩ := h.found i hi hne
      exact ⟨q, (hpush q i).mpr (.inl hq)⟩
    · exact ⟨parent, (hpush parent _).mpr (.inr ⟨rfl, rfl⟩)⟩
  · intro q i hi
    rw [List.length_append, List.length_singleton]
    rcases (hpush q i).mp hi with hi | ⟨rfl, rfl⟩
    · obtain ⟨hearlier, hlast⟩ := h.earlier q i hi
      exact ⟨hearlier, Nat.lt_succ_of_lt hlast⟩
    · exact ⟨hlt, Nat.lt_succ_self _⟩
  · intro q r i hq hr
    rcases (hpush q i).mp hq with hq | ⟨hqp, hi⟩ <;> rcases (hpush r i).mp hr with hr | ⟨hrp, hi'⟩
    · exact h.once q r i hq hr
    · exact absurd (h.earlier q i hq).2 (by omega)
    · exact absurd (h.earlier r i hr).2 (by omega)
    · rw [hqp, hrp]
  · intro q i above slot hi habove hslot
    rcases (hpush q i).mp hi with hi | ⟨rfl, rfl⟩
    · obtain ⟨hearlier, hlast⟩ := h.earlier q i hi
      rw [List.getElem?_append_left (Nat.lt_trans hearlier hlast)] at habove
      exact h.linked q i above slot hi habove (h.getElem?_of_concat hi hslot)
    · rw [List.getElem?_concat_length] at hslot
      rw [hown above habove, ← Option.some.inj hslot]
      exact hchild
  · intro q found above hfound habove
    refine pairwise_push hfound (fun old hold => ?_) (fun hq i hi a b ha hb => ?_)
    · have hbefore : q < slots.length := by
        rw [← h.listed]
        exact (List.getElem?_eq_some_iff.mp hold).1
      rw [List.getElem?_append_left hbefore] at habove
      refine (h.siblings q old above hold habove).imp_of_mem fun {i j} hi hj hij a b ha hb => ?_
      exact hij a b (h.getElem?_of_concat ⟨old, hold, hi⟩ ha)
        (h.getElem?_of_concat ⟨old, hold, hj⟩ hb)
    · subst hq
      rw [List.getElem?_concat_length] at hb
      rw [hown above habove, ← Option.some.inj hb]
      exact hplace i a hi (h.getElem?_of_concat hi ha)

/-- The chain of slots up to the root is a walk down from it. -/
theorem walk (h : Arena s repo root maxDepth slots children) :
    ∀ (i : Nat) (slot : Slot), slots[i]? = some slot →
      s.Walk repo root slot.row slot.depth := by
  intro i
  induction i using Nat.strongRecOn with
  | ind i ih =>
      intro slot hi
      have hmem : slot.row ∈ s.nodesOf repo := h.stored slot (List.mem_of_getElem? hi)
      by_cases hzero : i = 0
      · rw [hzero, h.first] at hi
        cases hi
        exact .here hmem
      · have hlength := (List.getElem?_eq_some_iff.mp hi).1
        obtain ⟨p, hp⟩ := h.found i hlength hzero
        have hlt := (h.earlier p i hp).1
        have hparent : slots[p]? = some slots[p] := List.getElem?_eq_getElem (by omega)
        obtain ⟨hdepth, e, hedge, -⟩ := h.linked p i _ slot hp hparent hi
        rw [hdepth]
        exact .step (ih p hlt _ hparent) hmem (Store.leads_of_firstEdge? hedge)

end Arena

-- ================================================================ the queue

/-- The positions of the slots from one on are queued, in order. -/
def Frontier.Queued (position : Nat) (f : Frontier) : Prop :=
  ∃ left, f.slots.length = position + left ∧ f.queue = List.range' position left

/-- A new slot goes to the end of the queue as it goes to the end of the
slots. -/
theorem Frontier.Queued.follow {position : Nat} {f : Frontier} (h : f.Queued position)
    (s : Store) (repo : String) (parent depth : Nat) (e : EdgeRow) :
    (f.follow s repo parent depth e).Queued position := by
  unfold Frontier.follow
  split
  next => exact h
  next =>
    dsimp only
    split
    next row _ =>
      obtain ⟨left, hlength, hqueue⟩ := h
      refine ⟨left + 1, ?_, ?_⟩
      · rw [List.length_append, hlength]
        rfl
      · rw [hqueue, hlength, List.range'_1_concat]
    next => exact h

theorem Frontier.Queued.follow_all {position : Nat} {f : Frontier} (h : f.Queued position)
    (s : Store) (repo : String) (parent depth : Nat) (edges : List EdgeRow) :
    (edges.foldl (Frontier.follow s repo parent depth) f).Queued position := by
  induction edges generalizing f with
  | nil => exact h
  | cons e edges ih => exact ih (h.follow s repo parent depth e)

-- =============================================================== the search

/-- How far a search has come: the slots before a position are expanded, and
some of the edges that leave the slot at the position were followed. -/
structure Expanding (s : Store) (repo : String) (root : NodeRow) (maxDepth position : Nat)
    (followed : List EdgeRow) (f : Frontier) : Prop where
  arena : Arena s repo root maxDepth f.slots f.children
  ordered : f.slots.Pairwise fun a b => a.depth ≤ b.depth
  near : ∀ current, f.slots[position]? = some current →
    ∀ slot ∈ f.slots, slot.depth ≤ current.depth + 1
  met : ∀ row ∈ s.nodesOf repo, row.nodeId ∈ f.met ↔ ∃ slot ∈ f.slots, slot.row = row
  targets : ∀ e ∈ followed, e.targetId ∈ f.met
  parents : ∀ p i, FoundFrom f.children p i → p < position
    ∨ (p = position ∧ ∀ slot, f.slots[i]? = some slot →
      slot.row.nodeId ∈ followed.map (·.targetId))
  expanded : ∀ i slot, i < position → f.slots[i]? = some slot → slot.depth < maxDepth →
    ∀ row ∈ s.nodesOf repo, s.Leads repo slot.row.nodeId row.nodeId →
      ∃ t ∈ f.slots, t.row = row ∧ t.depth ≤ slot.depth + 1

namespace Expanding

variable {position : Nat} {followed : List EdgeRow} {f : Frontier}

theorem init (hkeyed : s.Keyed) (hroot : root ∈ s.nodesOf repo) :
    Expanding s repo root maxDepth 0 [] (.ofRoot root) where
  arena := .init hroot
  ordered := List.pairwise_singleton _ _
  near current hcurrent slot hslot := by
    rw [List.mem_singleton.mp hslot]
    exact Nat.zero_le _
  met row hrow := by
    simp only [Frontier.ofRoot, List.mem_singleton, exists_eq_left]
    exact ⟨fun hid => hkeyed.eq_of_nodeId hroot hrow hid.symm, fun heq => heq ▸ rfl⟩
  targets := by simp
  parents p i hi := absurd hi (not_foundFrom_singleton p i)
  expanded i slot hi := absurd hi (Nat.not_lt_zero i)

/-- The queue does not matter to what is expanded. -/
theorem withQueue (h : Expanding s repo root maxDepth position followed f) (queue : List Nat) :
    Expanding s repo root maxDepth position followed { f with queue } :=
  ⟨h.arena, h.ordered, h.near, h.met, h.targets, h.parents, h.expanded⟩

/-- An edge to an id that was met is left alone. -/
theorem follow_met (h : Expanding s repo root maxDepth position followed f) {e : EdgeRow}
    (hmet : e.targetId ∈ f.met) :
    Expanding s repo root maxDepth position (followed ++ [e]) f where
  arena := h.arena
  ordered := h.ordered
  near := h.near
  met := h.met
  targets d hd := by
    rcases List.mem_append.mp hd with hd | hd
    · exact h.targets d hd
    · rw [List.mem_singleton.mp hd]
      exact hmet
  parents p i hi := by
    rcases h.parents p i hi with hlt | ⟨heq, hmem⟩
    · exact .inl hlt
    · rw [List.map_append]
      exact .inr ⟨heq, fun slot hslot => List.mem_append_left _ (hmem slot hslot)⟩
  expanded := h.expanded

/-- An id without a node is met, and adds no slot. -/
theorem meet_missing (h : Expanding s repo root maxDepth position followed f) (hkeyed : s.Keyed)
    {id : String} (hnone : s.node? repo id = none) :
    Expanding s repo root maxDepth position followed { f with met := id :: f.met } where
  arena := h.arena
  ordered := h.ordered
  near := h.near
  met row hrow := by
    have hne : row.nodeId ≠ id := by
      rintro rfl
      rw [hkeyed.node?_nodeId_iff.mpr hrow] at hnone
      cases hnone
    rw [List.mem_cons, h.met row hrow]
    exact ⟨fun hmem => hmem.resolve_left hne, .inr⟩
  targets e he := List.mem_cons_of_mem id (h.targets e he)
  parents := h.parents
  expanded := h.expanded

/-- A node that was not met has no slot. -/
theorem fresh (h : Expanding s repo root maxDepth position followed f) (hkeyed : s.Keyed)
    {row : NodeRow} (hstored : row ∈ s.nodesOf repo) (hmet : row.nodeId ∉ f.met) :
    row.nodeId ∉ f.slots.map fun slot => slot.row.nodeId := by
  intro hmem
  obtain ⟨slot, hslot, hsame⟩ := List.mem_map.mp hmem
  have heq := hkeyed.eq_of_nodeId (h.arena.stored slot hslot) hstored hsame
  exact hmet ((h.met row hstored).mpr ⟨slot, hslot, heq⟩)

/-- A new edge of the slot at the position joins it to a new slot: the edges
followed before lead to ids that were met, so it is the first edge to its
target, and comes after the first edges to the slots found before. -/
theorem arena_concat (h : Expanding s repo root maxDepth position followed f) (hkeyed : s.Keyed)
    {current : Slot} (hcurrent : f.slots[position]? = some current)
    (hdepth : current.depth < maxDepth) {e : EdgeRow} {later : List EdgeRow}
    (hout : s.outgoing repo current.row.nodeId = followed ++ e :: later)
    (hmet : e.targetId ∉ f.met) {row : NodeRow} (hstored : row ∈ s.nodesOf repo)
    (hid : row.nodeId = e.targetId) :
    Arena s repo root maxDepth (f.slots ++ [⟨row, some e.relationshipType, current.depth + 1⟩])
      (f.children.modify position (· ++ [f.slots.length]) ++ [[]]) := by
  have hearlier : e.targetId ∉ followed.map (·.targetId) := by
    intro hmem
    obtain ⟨d, hd, htarget⟩ := List.mem_map.mp hmem
    exact hmet (htarget ▸ h.targets d hd)
  obtain ⟨hedge, hplace⟩ := Store.firstEdge?_of_split hout hearlier
  rw [← hid] at hmet hedge hplace
  refine h.arena.concat hcurrent hstored (h.fresh hkeyed hstored hmet) hdepth
    ⟨rfl, e, hedge, rfl⟩ ?_
  intro i slot hi hslot
  rcases h.parents position i hi with hlt | ⟨-, hmem⟩
  · exact absurd hlt (Nat.lt_irrefl position)
  · dsimp only
    rw [hplace]
    exact Store.firstPlace_lt hout (hmem slot hslot)

/-- The node of a new slot is met with it. -/
theorem met_concat (h : Expanding s repo root maxDepth position followed f) (hkeyed : s.Keyed)
    (c : Slot) (hstored : c.row ∈ s.nodesOf repo) {n : NodeRow} (hn : n ∈ s.nodesOf repo) :
    n.nodeId ∈ c.row.nodeId :: f.met ↔ ∃ slot ∈ f.slots ++ [c], slot.row = n := by
  rw [List.mem_cons, h.met n hn]
  constructor
  · rintro (hsame | ⟨slot, hslot, heq⟩)
    · have heq := hkeyed.eq_of_nodeId hstored hn hsame.symm
      exact ⟨c, List.mem_append_right _ (List.mem_singleton_self c), heq⟩
    · exact ⟨slot, List.mem_append_left _ hslot, heq⟩
  · rintro ⟨slot, hslot, rfl⟩
    rcases List.mem_append.mp hslot with hslot | hslot
    · exact .inr ⟨slot, hslot, rfl⟩
    · rw [List.mem_singleton.mp hslot]
      exact .inl rfl

/-- An edge to a node that was not met adds a slot at the end. -/
theorem follow_new (h : Expanding s repo root maxDepth position followed f) (hkeyed : s.Keyed)
    {current : Slot} (hcurrent : f.slots[position]? = some current)
    (hdepth : current.depth < maxDepth) {e : EdgeRow} {later : List EdgeRow}
    (hout : s.outgoing repo current.row.nodeId = followed ++ e :: later)
    (hmet : e.targetId ∉ f.met) {row : NodeRow} (hrow : s.node? repo e.targetId = some row) :
    Expanding s repo root maxDepth position (followed ++ [e])
      { slots := f.slots ++ [⟨row, some e.relationshipType, current.depth + 1⟩]
        children := f.children.modify position (· ++ [f.slots.length]) ++ [[]]
        queue := f.queue ++ [f.slots.length]
        met := e.targetId :: f.met } := by
  have hid : row.nodeId = e.targetId := nodeId_of_node?_eq_some hrow
  have hstored : row ∈ s.nodesOf repo := by
    rw [← hkeyed.node?_nodeId_iff, hid]
    exact hrow
  have hposition : position < f.slots.length := (List.getElem?_eq_some_iff.mp hcurrent).1
  refine ⟨h.arena_concat hkeyed hcurrent hdepth hout hmet hstored hid, ?_, ?_, ?_, ?_, ?_, ?_⟩
  · rw [List.pairwise_append]
    refine ⟨h.ordered, List.pairwise_singleton _ _, fun a ha b hb => ?_⟩
    rw [List.mem_singleton.mp hb]
    exact h.near current hcurrent a ha
  · intro current' hcurrent' slot hslot
    rw [getElem?_append_of_eq_some hcurrent] at hcurrent'
    cases hcurrent'
    rcases List.mem_append.mp hslot with hslot | hslot
    · exact h.near current hcurrent slot hslot
    · obtain rfl := List.mem_singleton.mp hslot
      exact Nat.le_refl _
  · intro n hn
    rw [← hid]
    exact h.met_concat hkeyed ⟨row, some e.relationshipType, current.depth + 1⟩ hstored hn
  · intro d hd
    rcases List.mem_append.mp hd with hd | hd
    · exact List.mem_cons_of_mem _ (h.targets d hd)
    · rw [List.mem_singleton.mp hd]
      exact List.mem_cons_self
  · intro p i hi
    rw [List.map_append]
    rcases (foundFrom_push (h.arena.listed ▸ hposition)).mp hi with hi | ⟨rfl, rfl⟩
    · rcases h.parents p i hi with hlt | ⟨heq, hmem⟩
      · exact .inl hlt
      · refine .inr ⟨heq, fun slot hslot => List.mem_append_left _ (hmem slot ?_)⟩
        exact h.arena.getElem?_of_concat hi hslot
    · refine .inr ⟨rfl, fun slot hslot => List.mem_append_right _ ?_⟩
      rw [List.getElem?_concat_length] at hslot
      rw [← Option.some.inj hslot, hid]
      exact List.mem_singleton_self _
  · intro i slot hi hslot hless n hn hleads
    rw [List.getElem?_append_left (Nat.lt_trans hi hposition)] at hslot
    obtain ⟨t, ht, hsame, hle⟩ := h.expanded i slot hi hslot hless n hn hleads
    exact ⟨t, List.mem_append_left _ ht, hsame, hle⟩

/-- One edge more of those that leave the slot at the position. -/
theorem follow (h : Expanding s repo root maxDepth position followed f) (hkeyed : s.Keyed)
    {current : Slot} (hcurrent : f.slots[position]? = some current)
    (hdepth : current.depth < maxDepth) {e : EdgeRow} {later : List EdgeRow}
    (hout : s.outgoing repo current.row.nodeId = followed ++ e :: later) :
    Expanding s repo root maxDepth position (followed ++ [e])
      (Frontier.follow s repo position current.depth f e) := by
  unfold Frontier.follow
  by_cases hmet : e.targetId ∈ f.met
  · rw [if_pos (List.contains_iff_mem.mpr hmet)]
    exact h.follow_met hmet
  · rw [if_neg fun hcontains => hmet (List.contains_iff_mem.mp hcontains)]
    dsimp only
    split
    next row hrow => exact h.follow_new hkeyed hcurrent hdepth hout hmet hrow
    next hnone => exact (h.meet_missing hkeyed hnone).follow_met List.mem_cons_self

/-- The slots before the end stay where they are. -/
theorem slots_follow (s : Store) (repo : String) (position depth : Nat) (f : Frontier)
    (e : EdgeRow) : f.slots <+: (Frontier.follow s repo position depth f e).slots := by
  unfold Frontier.follow
  split
  · exact List.prefix_refl _
  · dsimp only
    split
    · exact List.prefix_append _ _
    · exact List.prefix_refl _

/-- The loop over the edges that leave the slot at the position. -/
theorem follow_all (hkeyed : s.Keyed) {current : Slot} (hdepth : current.depth < maxDepth)
    (later : List EdgeRow) :
    ∀ {followed : List EdgeRow} {f : Frontier},
      Expanding s repo root maxDepth position followed f →
      f.slots[position]? = some current →
      s.outgoing repo current.row.nodeId = followed ++ later →
      Expanding s repo root maxDepth position (s.outgoing repo current.row.nodeId)
          (later.foldl (Frontier.follow s repo position current.depth) f)
        ∧ (later.foldl (Frontier.follow s repo position current.depth) f).slots[position]?
          = some current := by
  induction later with
  | nil =>
      intro followed f h hcurrent hout
      rw [hout, List.append_nil]
      exact ⟨h, hcurrent⟩
  | cons e later ih =>
      intro followed f h hcurrent hout
      obtain ⟨more, hmore⟩ := slots_follow s repo position current.depth f e
      refine ih (h.follow hkeyed hcurrent hdepth hout) ?_ (by simp [hout])
      rw [← hmore]
      exact getElem?_append_of_eq_some hcurrent

/-- The slot at the position is expanded once all edges that leave it were
followed, or at once if it is as deep as allowed. Every node it refers to was
met, and no slot is more than one deeper than it. -/
theorem next (h : Expanding s repo root maxDepth position followed f) {current : Slot}
    (hcurrent : f.slots[position]? = some current)
    (hall : current.depth < maxDepth → followed = s.outgoing repo current.row.nodeId) :
    Expanding s repo root maxDepth (position + 1) [] f where
  arena := h.arena
  ordered := h.ordered
  near nextSlot hnext slot hslot := by
    have hdeeper : current.depth ≤ nextSlot.depth := by
      obtain ⟨hlt, rfl⟩ := List.getElem?_eq_some_iff.mp hcurrent
      obtain ⟨hlt', rfl⟩ := List.getElem?_eq_some_iff.mp hnext
      exact List.pairwise_iff_getElem.mp h.ordered position (position + 1) hlt hlt'
        (Nat.lt_succ_self position)
    have hnear := h.near current hcurrent slot hslot
    omega
  met := h.met
  targets := by simp
  parents p i hi := by
    rcases h.parents p i hi with hlt | ⟨heq, -⟩
    · exact .inl (Nat.lt_succ_of_lt hlt)
    · exact .inl (heq ▸ Nat.lt_succ_self position)
  expanded i slot hi hslot hless row hrow hleads := by
    rcases Nat.lt_succ_iff_lt_or_eq.mp hi with hi | rfl
    · exact h.expanded i slot hi hslot hless row hrow hleads
    · rw [hcurrent] at hslot
      cases hslot
      obtain ⟨e, he, htarget⟩ := Store.leads_iff.mp hleads
      have hmet : row.nodeId ∈ f.met := by
        rw [← htarget]
        exact h.targets e (hall hless ▸ he)
      obtain ⟨t, ht, hsame⟩ := (h.met row hrow).mp hmet
      exact ⟨t, ht, hsame, h.near current hcurrent t ht⟩

/-- The search expands every slot: every slot is queued once and there are no
more slots than stored nodes, so it does not stop before the queue is empty. -/
theorem run (hkeyed : s.Keyed) (fuel : Nat) :
    ∀ {position : Nat} {f : Frontier}, Expanding s repo root maxDepth position [] f →
      f.Queued position → s.nodes.length + 1 ≤ fuel + position →
      ∃ g, Frontier.expand s repo maxDepth fuel f = g
        ∧ Expanding s repo root maxDepth g.slots.length [] g := by
  induction fuel with
  | zero =>
      intro position f h ⟨left, hlength, _⟩ hfuel
      have hslots := h.arena.length_le
      omega
  | succ fuel ih =>
      intro position f h ⟨left, hlength, hqueue⟩ hfuel
      rw [Frontier.expand, hqueue]
      cases left with
      | zero =>
          rw [Nat.add_zero] at hlength
          exact ⟨f, rfl, hlength ▸ h⟩
      | succ left =>
          have hlt : position < f.slots.length := by omega
          have hcurrent : f.slots[position]? = some f.slots[position] :=
            List.getElem?_eq_getElem hlt
          generalize f.slots[position] = current at hcurrent
          have hpopped := h.withQueue (List.range' (position + 1) left)
          have hleft : Frontier.Queued (position + 1)
              { f with queue := List.range' (position + 1) left } :=
            ⟨left, by dsimp only; omega, rfl⟩
          rw [List.range'_succ]
          dsimp only
          rw [hcurrent]
          dsimp only
          by_cases hdeep : maxDepth ≤ current.depth
          · rw [if_pos hdeep]
            exact ih (hpopped.next hcurrent fun hless => absurd hless (Nat.not_lt.mpr hdeep))
              hleft (by omega)
          · rw [if_neg hdeep]
            obtain ⟨hall, hsame⟩ := follow_all hkeyed (Nat.lt_of_not_le hdeep)
              (s.outgoing repo current.row.nodeId) hpopped hcurrent (List.nil_append _).symm
            exact ih (hall.next hsame fun _ => rfl) (hleft.follow_all _ _ _ _ _) (by omega)

/-- At the end of the search, a walk that is not longer than allowed leads to a
slot that is not deeper than the walk is long. -/
theorem mem_of_walk {f : Frontier} (h : Expanding s repo root maxDepth f.slots.length [] f)
    {row : NodeRow} {length : Nat} (hwalk : s.Walk repo root row length) :
    length ≤ maxDepth → ∃ slot ∈ f.slots, slot.row = row ∧ slot.depth ≤ length := by
  induction hwalk with
  | here =>
      intro _
      exact ⟨_, List.mem_of_getElem? h.arena.first, rfl, Nat.le_refl 0⟩
  | @step a b length _ hb hleads ih =>
      intro hlength
      obtain ⟨slot, hslot, rfl, hdepth⟩ := ih (by omega)
      obtain ⟨i, hlt, hi⟩ := List.mem_iff_getElem.mp hslot
      have hat : f.slots[i]? = some slot := by
        rw [List.getElem?_eq_getElem hlt, hi]
      obtain ⟨t, ht, hsame, hle⟩ := h.expanded i slot hlt hat (by omega) b hb hleads
      exact ⟨t, ht, hsame, by omega⟩

/-- At the end of the search, the slots hold exactly the nodes that are not
farther away than allowed, and their depths are the distances. -/
theorem slot_iff_distance {f : Frontier}
    (h : Expanding s repo root maxDepth f.slots.length [] f) (row : NodeRow) (depth : Nat) :
    (∃ slot ∈ f.slots, slot.row = row ∧ slot.depth = depth) ↔
      s.Distance repo root row depth ∧ depth ≤ maxDepth := by
  have hwalk : ∀ slot ∈ f.slots, s.Walk repo root slot.row slot.depth := by
    intro slot hslot
    obtain ⟨i, hlt, hi⟩ := List.mem_iff_getElem.mp hslot
    exact h.arena.walk i slot (by rw [List.getElem?_eq_getElem hlt, hi])
  -- slots with the same node are the same slot
  have hunique : ∀ a ∈ f.slots, ∀ b ∈ f.slots, a.row = b.row → a = b := by
    intro a ha b hb heq
    exact List.inj_on_of_nodup_map h.arena.distinct ha hb (congrArg NodeRow.nodeId heq)
  constructor
  · rintro ⟨slot, hslot, rfl, rfl⟩
    refine ⟨⟨hwalk slot hslot, fun length hlength => ?_⟩, h.arena.shallow slot hslot⟩
    by_cases hle : length ≤ maxDepth
    · obtain ⟨t, ht, hsame, hdepth⟩ := h.mem_of_walk hlength hle
      rwa [hunique t ht slot hslot hsame] at hdepth
    · have hshallow := h.arena.shallow slot hslot
      omega
  · rintro ⟨⟨hdistance, hleast⟩, hle⟩
    obtain ⟨slot, hslot, rfl, hdepth⟩ := h.mem_of_walk hdistance hle
    exact ⟨slot, hslot, rfl, Nat.le_antisymm hdepth (hleast _ (hwalk slot hslot))⟩

end Expanding

end Traversal

end CodeMap
