/-
Joining files with a block of nodes and definitions put in between.

Whatever a file adds to a draft stands behind what was there before, so taking
the file out moves everything behind it forward. `Widened` compares the two
drafts, the one without the block and the one with it, whose positions behind
the block are higher by the size of the block. It is carried through the two
nested loops: over the definitions of a file (`Widened.addDefinition`), where a
name is looked up in a table that has further entries in it, and over the files
(`Widened.addFile`), where every reference gets the positions of its node and of
the definition around it.

Of the block only two things matter. None of its qualified names is looked up, so
the same definitions share a node, and none of its names is referred to, so the
same definitions are meant (`Widened.edges_eq`).
-/
import CodeMap.Proofs.CodeGraph.Sources
import CodeMap.Proofs.Resolution.OtherNames

namespace CodeMap

/-- An edge between other positions. -/
def CodeEdge.renumber (σ : Nat → Nat) (edge : CodeEdge) : CodeEdge :=
  { edge with source := σ edge.source, target := σ edge.target }

namespace CodeGraph

-- ==================================================================== lists

/-- The second list is the first one with a block put in behind `before`. -/
def PutIn {α : Type} (before block xs ys : List α) : Prop :=
  ∃ later, xs = before ++ later ∧ ys = before ++ (block ++ later)

namespace PutIn

variable {α : Type} {before block xs ys : List α}

theorem append (h : PutIn before block xs ys) (zs : List α) :
    PutIn before block (xs ++ zs) (ys ++ zs) := by
  obtain ⟨later, rfl, rfl⟩ := h
  exact ⟨later ++ zs, by simp, by simp⟩

theorem getElem?_eq (h : PutIn before block xs ys) (i : Nat) :
    ys[shifted before.length block.length i]? = xs[i]? := by
  obtain ⟨later, rfl, rfl⟩ := h
  exact getElem?_shifted before block later i

theorem le_length (h : PutIn before block xs ys) : before.length ≤ xs.length := by
  obtain ⟨later, rfl, rfl⟩ := h
  simp

theorem length_eq (h : PutIn before block xs ys) :
    ys.length = shifted before.length block.length xs.length := by
  rw [shifted_of_le h.le_length]
  obtain ⟨later, rfl, rfl⟩ := h
  simp only [List.length_append]
  omega

/-- What is not in the block is found as before. -/
theorem find?_eq (h : PutIn before block xs ys) {p : α → Bool} (hblock : ∀ b ∈ block, ¬ p b) :
    ys.find? p = xs.find? p := by
  obtain ⟨later, rfl, rfl⟩ := h
  rw [List.find?_append, List.find?_append, List.find?_append, List.find?_eq_none.mpr hblock,
    Option.none_or]

theorem filterMap {β : Type} (h : PutIn before block xs ys) (f : α → Option β) :
    PutIn (before.filterMap f) (block.filterMap f) (xs.filterMap f) (ys.filterMap f) := by
  obtain ⟨later, rfl, rfl⟩ := h
  exact ⟨later.filterMap f, by simp, by simp⟩

/-- Taking the block out again leaves the first list. -/
theorem filter_eq (h : PutIn before block xs ys) {p : α → Bool} (hblock : ∀ b ∈ block, ¬ p b)
    (hxs : ∀ x ∈ xs, p x) : ys.filter p = xs := by
  have hall : xs.filter p = xs := List.filter_eq_self.mpr hxs
  obtain ⟨later, rfl, rfl⟩ := h
  rw [List.filter_append, List.filter_append, List.filter_eq_nil_iff.mpr hblock, List.nil_append,
    ← List.filter_append, hall]

end PutIn

-- =================================================================== drafts

namespace Draft

/-- A reference of a new file as it waits once the definitions of the file are
added. -/
def pendingOf (draft : Draft) (e : Extraction) (q : Reference × Option Nat) : Pending where
  source := ((q.2.map (draft.definitions.length + ·)).bind fun i =>
    ((draft.addFile e).definitions[i]?).map (·.2)).getD draft.nodes.length
  reference := q.1
  own := q.2.map (draft.definitions.length + ·)

theorem pending_addFile (draft : Draft) (e : Extraction) :
    (draft.addFile e).pending = draft.pending ++ e.references.map (draft.pendingOf e) := rfl

section Widened

variable {before block draft wide : Draft}

/-- Where a node is once a block was put in behind some nodes. -/
def nodePlace (before block : Draft) : Nat → Nat :=
  shifted before.nodes.length block.nodes.length

/-- Where a definition is once a block was put in behind some definitions. -/
def definitionPlace (before block : Draft) : Nat → Nat :=
  shifted before.definitions.length block.definitions.length

/-- An entry of the table with its node at its new place. -/
def moveEntry (before block : Draft) (p : Definition × Nat) : Definition × Nat :=
  (p.1, nodePlace before block p.2)

/-- A reference that waits, at the new places. -/
def movePending (before block : Draft) (p : Pending) : Pending :=
  ⟨nodePlace before block p.source, p.reference, p.own.map (definitionPlace before block)⟩

/-- The wider draft is the other one, with its positions renumbered and a block
put in behind what was there `before`. -/
structure Widened (before block draft wide : Draft) : Prop where
  nodes : PutIn before.nodes block.nodes draft.nodes wide.nodes
  definitions : PutIn before.definitions block.definitions
    (draft.definitions.map (moveEntry before block)) wide.definitions
  pending : PutIn before.pending block.pending
    (draft.pending.map (movePending before block)) wide.pending

/-- The entry of a definition, with its node at its new place. -/
theorem entry_eq {entries wider : List (Definition × Nat)}
    (h : PutIn before.definitions block.definitions (entries.map (moveEntry before block)) wider)
    (i : Nat) :
    wider[definitionPlace before block i]? = (entries[i]?).map (moveEntry before block) := by
  rw [← List.getElem?_map]
  exact h.getElem?_eq i

theorem Widened.length_definitions (h : Widened before block draft wide) :
    wide.definitions.length = definitionPlace before block draft.definitions.length := by
  have hlength := h.definitions.length_eq
  rwa [List.length_map] at hlength

/-- A name that is not in the block has its node at the new place. -/
theorem Widened.nodeOf?_eq (h : Widened before block draft wide) {q : String}
    (hblock : q ∉ block.known) :
    wide.nodeOf? q = (draft.nodeOf? q).map (nodePlace before block) := by
  unfold nodeOf?
  rw [h.definitions.find?_eq, List.find?_map, Option.map_map, Option.map_map]
  · rfl
  · intro p hp hname
    rw [decide_eq_true_eq] at hname
    exact hblock (hname ▸ List.mem_map_of_mem hp)

/-- One definition more in both drafts. -/
theorem Widened.addDefinition (h : Widened before block draft wide) {d : Located}
    (hblock : qualifiedName d.definition ∉ block.known) :
    Widened before block (draft.addDefinition d) (wide.addDefinition d) := by
  unfold Draft.addDefinition
  rw [h.nodeOf?_eq hblock]
  cases draft.nodeOf? (qualifiedName d.definition) with
  | some i =>
      refine ⟨h.nodes, ?_, h.pending⟩
      dsimp only
      rw [List.map_append]
      exact h.definitions.append _
  | none =>
      refine ⟨h.nodes.append _, ?_, h.pending⟩
      dsimp only
      rw [List.map_append, h.nodes.length_eq]
      exact h.definitions.append _

/-- The loop over the definitions of a file. -/
theorem Widened.addDefinitions (located : List Located)
    (hblock : ∀ d ∈ located, qualifiedName d.definition ∉ block.known) :
    ∀ {draft wide : Draft}, Widened before block draft wide →
      Widened before block (located.foldl Draft.addDefinition draft)
        (located.foldl Draft.addDefinition wide) := by
  induction located with
  | nil =>
      intro draft wide h
      exact h
  | cons d rest ih =>
      intro draft wide h
      exact ih (fun a ha => hblock a (by simp [ha])) (h.addDefinition (hblock d (by simp)))

/-- The place of the definition around a reference: the definitions of a new file
are all behind the block. -/
theorem Widened.own_eq (h : Widened before block draft wide) (own : Option Nat) :
    own.map (wide.definitions.length + ·)
      = (own.map (draft.definitions.length + ·)).map (definitionPlace before block) := by
  have hle : before.definitions.length ≤ draft.definitions.length := by
    have := h.definitions.le_length
    rwa [List.length_map] at this
  rw [Option.map_map, h.length_definitions]
  congr 1
  funext i
  unfold definitionPlace
  rw [Function.comp_apply, shifted_of_le hle, shifted_of_le (Nat.le_add_right_of_le hle)]
  omega

/-- A reference of a new file waits at the new place of its node, if the
definitions of the file are at their new places. -/
theorem Widened.pendingOf_eq (h : Widened before block draft wide) {e : Extraction}
    (hfilled : PutIn before.definitions block.definitions
      ((draft.addFile e).definitions.map (moveEntry before block)) (wide.addFile e).definitions)
    (q : Reference × Option Nat) :
    wide.pendingOf e q = movePending before block (draft.pendingOf e q) := by
  obtain ⟨r, own⟩ := q
  unfold pendingOf movePending
  rw [h.own_eq, h.nodes.length_eq, Pending.mk.injEq]
  refine ⟨?_, rfl, rfl⟩
  cases own with
  | none => rfl
  | some i =>
      simp only [Option.map_some, Option.bind_some, entry_eq hfilled]
      cases (draft.addFile e).definitions[draft.definitions.length + i]? <;> rfl

/-- One file more in both drafts. -/
theorem Widened.addFile (h : Widened before block draft wide) {e : Extraction}
    (hblock : ∀ d ∈ e.located, qualifiedName d.definition ∉ block.known) :
    Widened before block (draft.addFile e) (wide.addFile e) := by
  have hstart : Widened before block { draft with nodes := draft.nodes ++ [e.file] }
      { wide with nodes := wide.nodes ++ [e.file] } :=
    ⟨h.nodes.append _, h.definitions, h.pending⟩
  obtain ⟨hnodes, hdefinitions, -⟩ := hstart.addDefinitions e.located hblock
  refine ⟨hnodes, hdefinitions, ?_⟩
  have hwaits : e.references.map (wide.pendingOf e)
      = (e.references.map (draft.pendingOf e)).map (movePending before block) := by
    rw [List.map_map]
    exact List.map_congr_left fun q _ => h.pendingOf_eq hdefinitions q
  rw [pending_addFile, pending_addFile, hwaits, List.map_append]
  exact h.pending.append _

/-- The loop over the files. -/
theorem Widened.addFiles (rest : List Extraction)
    (hblock : ∀ e ∈ rest, ∀ d ∈ e.located, qualifiedName d.definition ∉ block.known) :
    ∀ {draft wide : Draft}, Widened before block draft wide →
      Widened before block (rest.foldl Draft.addFile draft) (rest.foldl Draft.addFile wide) := by
  induction rest with
  | nil =>
      intro draft wide h
      exact h
  | cons e rest ih =>
      intro draft wide h
      exact ih (fun a ha => hblock a (by simp [ha])) (h.addFile (hblock e (by simp)))

-- ==================================================================== edges

/-- A reference whose name no definition of the block has means the same
definition at its new place. -/
theorem Widened.resolve_eq (h : Widened before block draft wide) {p : Pending}
    (hblock : ∀ d ∈ block.definitions, d.1.name ≠ p.reference.name) :
    Resolution.resolve (wide.definitions.map (·.1)) p.reference
        (p.own.map (definitionPlace before block))
      = (Resolution.resolve (draft.definitions.map (·.1)) p.reference p.own).map
        (definitionPlace before block) := by
  obtain ⟨later, hdraft, hwide⟩ := h.definitions
  have hnames : draft.definitions.map (·.1) = before.definitions.map (·.1) ++ later.map (·.1) := by
    rw [← List.map_append, ← hdraft, List.map_map]
    rfl
  rw [hwide, hnames, List.map_append, List.map_append]
  have hinsert := @Resolution.resolve_insert (before.definitions.map (·.1))
    (block.definitions.map (·.1)) (later.map (·.1)) p.reference p.own (by simpa using hblock)
  rwa [List.length_map, List.length_map] at hinsert

/-- It gets the same edge at the new places. -/
theorem Widened.edge?_eq (h : Widened before block draft wide) {p : Pending}
    (hblock : ∀ d ∈ block.definitions, d.1.name ≠ p.reference.name) :
    wide.edge? (movePending before block p)
      = (draft.edge? p).map (CodeEdge.renumber (nodePlace before block)) := by
  unfold edge?
  show (Resolution.resolve _ p.reference (p.own.map _)).bind _ = _
  rw [h.resolve_eq hblock]
  cases Resolution.resolve (draft.definitions.map (·.1)) p.reference p.own with
  | none => rfl
  | some i =>
      rw [Option.map_some, Option.bind_some, entry_eq h.definitions]
      cases hentry : draft.definitions[i]? with
      | none => simp [hentry]
      | some entry =>
          have hnode : wide.nodes[nodePlace before block entry.2]? = draft.nodes[entry.2]? :=
            h.nodes.getElem?_eq entry.2
          simp [hentry, moveEntry, movePending, hnode, CodeEdge.renumber]

/-- All edges of the narrower draft are edges of the wider one at the new places.
The others come from the references of the block. -/
theorem Widened.edges_eq (h : Widened before block draft wide)
    (hblock : ∀ p ∈ draft.pending, ∀ d ∈ block.definitions, d.1.name ≠ p.reference.name) :
    PutIn (before.pending.filterMap wide.edge?) (block.pending.filterMap wide.edge?)
      (draft.graph.edges.map (CodeEdge.renumber (nodePlace before block))) wide.graph.edges := by
  have hedges : (draft.pending.map (movePending before block)).filterMap wide.edge?
      = draft.graph.edges.map (CodeEdge.renumber (nodePlace before block)) := by
    rw [List.filterMap_map, Draft.graph, List.map_filterMap]
    exact List.filterMap_congr fun p hp => h.edge?_eq (hblock p hp)
  rw [← hedges]
  exact h.pending.filterMap wide.edge?

end Widened

-- =================================================================== blocks

theorem definitions_addDefinitions (located : List Located) : ∀ draft : Draft,
    ∃ entries, (located.foldl Draft.addDefinition draft).definitions = draft.definitions ++ entries
      ∧ entries.map (·.1) = located.map (·.definition) := by
  induction located with
  | nil =>
      intro draft
      exact ⟨[], (List.append_nil _).symm, rfl⟩
  | cons d rest ih =>
      intro draft
      have hfirst : ∃ i, (draft.addDefinition d).definitions
          = draft.definitions ++ [(d.definition, i)] := by
        unfold Draft.addDefinition
        split
        · exact ⟨_, rfl⟩
        · exact ⟨_, rfl⟩
      obtain ⟨i, hi⟩ := hfirst
      obtain ⟨entries, hentries, hnames⟩ := ih (draft.addDefinition d)
      refine ⟨(d.definition, i) :: entries, ?_, by rw [List.map_cons, List.map_cons, hnames]⟩
      rw [List.foldl_cons, hentries, hi, List.append_assoc]
      rfl

/-- What a file puts behind a draft. -/
structure Brings (draft : Draft) (e : Extraction) (block : Draft) : Prop where
  nodes : (draft.addFile e).nodes = draft.nodes ++ block.nodes
  definitions : (draft.addFile e).definitions = draft.definitions ++ block.definitions
  pending : (draft.addFile e).pending = draft.pending ++ block.pending
  /-- The nodes are those of the file and of its definitions. -/
  mem_nodes : ∀ n ∈ block.nodes, n = e.file ∨ ∃ d ∈ e.located, n = definitionNode d
  entries : block.definitions.map (·.1) = e.located.map (·.definition)
  waiting : block.pending = e.references.map (draft.pendingOf e)

theorem Brings.known_eq {draft block : Draft} {e : Extraction} (h : Brings draft e block) :
    block.known = namesOf e.located := by
  have hnames := congrArg (List.map qualifiedName) h.entries
  rwa [List.map_map, List.map_map] at hnames

theorem exists_block (draft : Draft) (e : Extraction) : ∃ block, Brings draft e block := by
  obtain ⟨entries, hentries, hnames⟩ :=
    definitions_addDefinitions e.located { draft with nodes := draft.nodes ++ [e.file] }
  have hnodes := nodes_addDefinitions e.located { draft with nodes := draft.nodes ++ [e.file] }
  refine ⟨⟨_, entries, e.references.map (draft.pendingOf e)⟩,
    hnodes.trans (List.append_assoc _ _ _), hentries, rfl, fun n hn => ?_, hnames, rfl⟩
  rcases List.mem_append.mp hn with hfile | hdefinition
  · exact .inl (List.mem_singleton.mp hfile)
  · obtain ⟨d, hd, rfl⟩ := List.mem_map.mp hdefinition
    have hmem := (eraseDupsBy_sublist _ _).subset hd
    exact .inr ⟨d, (List.mem_filter.mp hmem).1, rfl⟩

/-- The positions in a draft are those of its own nodes and definitions. -/
structure Closed (draft : Draft) : Prop where
  definitions : ∀ p ∈ draft.definitions, p.2 < draft.nodes.length
  sources : ∀ p ∈ draft.pending, p.source < draft.nodes.length
  owns : ∀ p ∈ draft.pending, ∀ i ∈ p.own, i < draft.definitions.length

/-- A block that stands at the end moves nothing. -/
theorem Brings.widened {draft block : Draft} {e : Extraction} (h : Brings draft e block)
    (hclosed : draft.Closed) : Widened draft block draft (draft.addFile e) := by
  have hentries : draft.definitions.map (moveEntry draft block) = draft.definitions := by
    refine (List.map_congr_left fun p hp => ?_).trans (List.map_id _)
    rw [moveEntry, nodePlace, shifted_of_lt (hclosed.definitions p hp)]
    rfl
  have hpending : draft.pending.map (movePending draft block) = draft.pending := by
    refine (List.map_congr_left fun p hp => ?_).trans (List.map_id _)
    have hown : p.own.map (definitionPlace draft block) = p.own := by
      cases hi : p.own with
      | none => rfl
      | some i =>
          have hlt := hclosed.owns p hp i hi
          rw [Option.map_some, definitionPlace, shifted_of_lt hlt]
    rw [movePending, nodePlace, shifted_of_lt (hclosed.sources p hp), hown]
    rfl
  refine ⟨⟨[], by simp, by simp [h.nodes]⟩, ⟨[], by simp [hentries], by simp [h.definitions]⟩,
    ⟨[], by simp [hpending], by simp [h.pending]⟩⟩

end Draft

end CodeGraph

end CodeMap
