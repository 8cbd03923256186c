/-
The positions in a code graph point where they should.

While files are joined, every definition is kept with the position of its
node, and every reference with the position of the node it leaves. Nodes are
only ever appended, so a position that was right stays right
(`StandsFor.mono`), and `Draft.Sound` is carried through the two nested loops:
over the definitions of a file (`Sound.addDefinition`) and over the files
(`Sound.addFile`).

An edge is made from the finished draft. Its target is the node of a
definition, also where several definitions share one node, so it never
arrives at a file, and the rows it carries are those of that node
(`edgesSound_build`).
-/
import CodeMap.CodeGraph

namespace CodeMap.CodeGraph

/-- Every edge leads from a node of the graph to a definition of the graph,
and carries the rows of that definition. -/
def EdgesSound (g : CodeGraph) : Prop :=
  ∀ e ∈ g.edges, (∃ source, g.nodes[e.source]? = some source)
    ∧ ∃ target, g.nodes[e.target]? = some target ∧ target.kind ≠ .file
      ∧ target.span = some e.defSpan

-- =============================================================== positions

/-- The node at a position is one of a definition. -/
def StandsFor (nodes : List CodeNode) (i : Nat) : Prop :=
  ∃ n span, nodes[i]? = some n ∧ n.kind ≠ .file ∧ n.span = some span

theorem StandsFor.lt {nodes : List CodeNode} {i : Nat} (h : StandsFor nodes i) :
    i < nodes.length := by
  obtain ⟨n, -, hn, -, -⟩ := h
  exact (List.getElem?_eq_some_iff.mp hn).1

/-- Further nodes at the end leave a position alone. -/
theorem StandsFor.mono {nodes nodes' : List CodeNode} {i : Nat} (h : StandsFor nodes i)
    (hpre : nodes <+: nodes') : StandsFor nodes' i := by
  obtain ⟨more, rfl⟩ := hpre
  have hlt := h.lt
  obtain ⟨n, span, hn, hkind, hspan⟩ := h
  exact ⟨n, span, by rw [List.getElem?_append_left hlt, hn], hkind, hspan⟩

theorem kind_ofCategory (c : Category) : NodeKind.ofCategory c ≠ .file := by
  cases c with
  | function => decide
  | classLike => decide

/-- What is found in a file is a function or a class. -/
theorem kind_of_mem_located (f : SourceFile) : ∀ d ∈ (extract f).located, d.kind ≠ .file := by
  intro d hd
  unfold extract at hd
  split at hd
  · cases hd
  · obtain ⟨definition, -, hlocate⟩ := List.mem_filterMap.mp hd
    simp only [locate, bind, Option.bind_eq_some_iff, pure, Option.some.injEq] at hlocate
    obtain ⟨category, -, name, -, node, -, source, -, rfl⟩ := hlocate
    exact kind_ofCategory category

namespace Draft

/-- What holds of a draft at every point of the joining. -/
structure Sound (draft : Draft) : Prop where
  definitions : ∀ p ∈ draft.definitions, StandsFor draft.nodes p.2
  pending : ∀ p ∈ draft.pending, p.source < draft.nodes.length

theorem nodes_addDefinition (draft : Draft) (d : Located) :
    draft.nodes <+: (draft.addDefinition d).nodes := by
  unfold addDefinition
  split
  · exact List.prefix_refl _
  · exact List.prefix_append _ _

theorem pending_addDefinition (draft : Draft) (d : Located) :
    (draft.addDefinition d).pending = draft.pending := by
  unfold addDefinition
  split <;> rfl

/-- A definition gets the node of an earlier one or a node of its own. -/
theorem Sound.addDefinition {draft : Draft} (h : draft.Sound) {d : Located}
    (hkind : d.kind ≠ .file) : (draft.addDefinition d).Sound := by
  have hpre := nodes_addDefinition draft d
  refine ⟨fun p hp => ?_, fun p hp => ?_⟩
  · unfold Draft.addDefinition at hp ⊢
    split at hp
    next i hknown =>
      rcases List.mem_append.mp hp with hp | hp
      · exact h.definitions p hp
      · obtain ⟨earlier, hearlier, rfl⟩ := Option.map_eq_some_iff.mp hknown
        rw [List.mem_singleton.mp hp]
        exact h.definitions earlier (List.mem_of_find?_eq_some hearlier)
    next =>
      rcases List.mem_append.mp hp with hp | hp
      · exact (h.definitions p hp).mono (List.prefix_append _ _)
      · rw [List.mem_singleton.mp hp]
        exact ⟨definitionNode d, d.span, by simp, hkind, rfl⟩
  · rw [pending_addDefinition] at hp
    exact Nat.lt_of_lt_of_le (h.pending p hp) hpre.length_le

/-- The loop over the definitions of a file. -/
theorem Sound.addDefinitions {located : List Located} (hkind : ∀ d ∈ located, d.kind ≠ .file) :
    ∀ {draft : Draft}, draft.Sound → (located.foldl Draft.addDefinition draft).Sound
      ∧ draft.nodes <+: (located.foldl Draft.addDefinition draft).nodes := by
  induction located with
  | nil =>
      intro draft h
      exact ⟨h, List.prefix_refl _⟩
  | cons d rest ih =>
      intro draft h
      obtain ⟨hsound, hpre⟩ :=
        ih (fun d' hd' => hkind d' (by simp [hd'])) (h.addDefinition (hkind d (by simp)))
      exact ⟨hsound, (nodes_addDefinition draft d).trans hpre⟩

/-- The node of the file comes first, so a reference outside all definitions
has one to leave. -/
theorem Sound.addFile {draft : Draft} (h : draft.Sound) {e : Extraction}
    (hkind : ∀ d ∈ e.located, d.kind ≠ .file) : (draft.addFile e).Sound := by
  have hstart : ({ draft with nodes := draft.nodes ++ [e.file] } : Draft).Sound := by
    refine ⟨fun p hp => (h.definitions p hp).mono (List.prefix_append _ _), fun p hp => ?_⟩
    have := h.pending p hp
    simp only [List.length_append, List.length_singleton]
    omega
  obtain ⟨hfilled, hpre⟩ := Sound.addDefinitions hkind hstart
  have hlen := hpre.length_le
  simp only [List.length_append, List.length_singleton] at hlen
  refine ⟨hfilled.definitions, fun p hp => ?_⟩
  rcases List.mem_append.mp hp with hp | hp
  · exact Nat.lt_trans (h.pending p hp) (Nat.lt_of_succ_le hlen)
  · obtain ⟨⟨r, own⟩, -, rfl⟩ := List.mem_map.mp hp
    dsimp only
    -- the reference leaves the definition that holds it, if it has one
    cases hnode : (own.map (draft.definitions.length + ·)).bind fun i =>
        ((e.located.foldl Draft.addDefinition
          { draft with nodes := draft.nodes ++ [e.file] }).definitions[i]?).map (·.2) with
    | none =>
        rw [Option.getD_none]
        exact Nat.lt_of_succ_le hlen
    | some i =>
        rw [Option.getD_some]
        obtain ⟨j, -, hj⟩ := Option.bind_eq_some_iff.mp hnode
        obtain ⟨p, hp, rfl⟩ := Option.map_eq_some_iff.mp hj
        exact (hfilled.definitions p (List.mem_of_getElem? hp)).lt

/-- The loop over the files. -/
theorem Sound.addFiles {extractions : List Extraction}
    (hkind : ∀ e ∈ extractions, ∀ d ∈ e.located, d.kind ≠ .file) :
    ∀ {draft : Draft}, draft.Sound → (extractions.foldl Draft.addFile draft).Sound := by
  induction extractions with
  | nil =>
      intro draft h
      exact h
  | cons e rest ih =>
      intro draft h
      exact ih (fun e' he' => hkind e' (by simp [he'])) (h.addFile (hkind e (by simp)))

/-- An edge is made from a reference that waits and a definition of the table. -/
theorem exists_pending {draft : Draft} {edge : CodeEdge} (h : edge ∈ draft.graph.edges) :
    ∃ p ∈ draft.pending, ∃ d ∈ draft.definitions,
      edge = ⟨p.source, d.2, p.reference.tagType, p.reference.name, p.reference.span,
        ((draft.nodes[d.2]?).bind (·.span)).getD d.1.span⟩ := by
  obtain ⟨p, hp, hedge⟩ := List.mem_filterMap.mp h
  simp only [edge?, bind, Option.bind_eq_some_iff, pure, Option.some.injEq] at hedge
  obtain ⟨position, -, d, hat, rfl⟩ := hedge
  exact ⟨p, hp, d, List.mem_of_getElem? hat, rfl⟩

/-- Resolving gives an edge to the node of a definition, with the rows of that
node: the fallback to the rows of the definition is never taken. -/
theorem Sound.graph {draft : Draft} (h : draft.Sound) : draft.graph.EdgesSound := by
  intro e he
  obtain ⟨p, hp, d, hd, rfl⟩ := exists_pending he
  obtain ⟨n, span, hn, hkind, hspan⟩ := h.definitions d hd
  refine ⟨⟨_, List.getElem?_eq_getElem (h.pending p hp)⟩, n, hn, hkind, ?_⟩
  dsimp only at hn ⊢
  rw [hn, Option.bind_some, hspan, Option.getD_some]

end Draft

/-- No edge of a code graph dangles, arrives at a file or disagrees with its
target. -/
theorem edgesSound_build (files : List SourceFile) : (build files).EdgesSound := by
  have hempty : Draft.Sound {} := ⟨by simp, by simp⟩
  refine (Draft.Sound.addFiles (fun e he => ?_) hempty).graph
  obtain ⟨f, -, rfl⟩ := List.mem_map.mp (List.mem_mergeSort.mp he)
  exact kind_of_mem_located f

end CodeMap.CodeGraph
