/-
The definition that an edge leaves.

A reference is given to the innermost located definition around it while its
file is looked at on its own. What it leaves in the graph is a node, and a node
stands for all definitions of its qualified name with the rows of the first one.
Between the two lies the joining, which places every definition at the node of
the first one of its name (`Draft.Placed`) and lets every reference wait at the
node of the definition around it (`Waits`).

What waits goes on waiting as files are added, since a definition that has a
node never gets another one (`nodeAround_append`). So an edge that leaves a
definition comes from a reference inside a definition of that name
(`exists_holder`, `Stems.qualified_eq`). Its row lies in the definition that
holds it, and in the rows of the node if that definition is the first of its
name.
-/
import CodeMap.Proofs.CodeGraph.Contents

namespace CodeMap.CodeGraph

-- ================================================================== waiting

/-- Definitions behind a definition do not change what represents it. -/
theorem nodeAmong_append_left {located more : List Located} {d : Located} (h : d ∈ located) :
    nodeAmong (located ++ more) d = nodeAmong located d := by
  obtain ⟨first, hfirst⟩ := exists_find?_sameName h
  unfold nodeAmong
  rw [List.find?_append, hfirst, Option.some_or]

theorem nodeAround_append {all more : List Located} {e : Extraction} (h : e.located ⊆ all)
    (own : Option Nat) : nodeAround (all ++ more) e own = nodeAround all e own := by
  unfold nodeAround
  split
  next d hd =>
    obtain ⟨i, -, hi⟩ := Option.bind_eq_some_iff.mp hd
    exact nodeAmong_append_left (h (List.mem_of_getElem? hi))
  next => rfl

theorem located_subset {es : List Extraction} {e : Extraction} (h : e ∈ es) :
    e.located ⊆ locatedIn es :=
  fun _ hd => List.mem_flatMap.mpr ⟨e, h, hd⟩

/-- A reference of a file waits at the node that it leaves. -/
structure Waits (nodes : List CodeNode) (all : List Located) (p : Pending) (e : Extraction)
    (own : Option Nat) : Prop where
  reference : (p.reference, own) ∈ e.references
  node : nodes[p.source]? = some (nodeAround all e own)

/-- Further nodes and definitions at the end leave a reference where it waits. -/
theorem Waits.mono {nodes nodes' : List CodeNode} {all more : List Located} {p : Pending}
    {e : Extraction} {own : Option Nat} (h : Waits nodes all p e own) (hnodes : nodes <+: nodes')
    (hlocated : e.located ⊆ all) : Waits nodes' (all ++ more) p e own := by
  obtain ⟨later, rfl⟩ := hnodes
  refine ⟨h.reference, ?_⟩
  have hlt : p.source < nodes.length := (List.getElem?_eq_some_iff.mp h.node).1
  rw [List.getElem?_append_left hlt, h.node, nodeAround_append hlocated]

namespace Draft

/-- What holds of a draft after some files, whatever the names in them. -/
structure Sourced (es : List Extraction) (draft : Draft) : Prop where
  placed : draft.Placed (locatedIn es)
  pending : ∀ p ∈ draft.pending, ∃ e ∈ es, ∃ own, Waits draft.nodes (locatedIn es) p e own

theorem nodes_addFile (draft : Draft) (e : Extraction) :
    draft.nodes ++ [e.file] <+: (draft.addFile e).nodes :=
  ⟨_, (nodes_addDefinitions e.located { draft with nodes := draft.nodes ++ [e.file] }).symm⟩

/-- One file more: its references wait at the node of the file, or at one of its
definitions. -/
theorem Sourced.addFile {es : List Extraction} {draft : Draft} (h : Sourced es draft)
    (e : Extraction) : Sourced (es ++ [e]) (draft.addFile e) := by
  have hplaced := h.placed.addFile e
  have hnodes := nodes_addFile draft e
  refine ⟨locatedIn_concat es e ▸ hplaced, fun p hp => ?_⟩
  rw [locatedIn_concat]
  rcases List.mem_append.mp hp with hold | hnew
  · obtain ⟨e', he', own, hwaits⟩ := h.pending p hold
    refine ⟨e', List.mem_append_left _ he', own, hwaits.mono ?_ (located_subset he')⟩
    exact (List.prefix_append _ _).trans hnodes
  · obtain ⟨⟨r, own⟩, hr, rfl⟩ := List.mem_map.mp hnew
    have hfile : (draft.addFile e).nodes[draft.nodes.length]? = some e.file := by
      obtain ⟨later, heq⟩ := hnodes
      rw [← heq]
      simp
    refine ⟨e, by simp, own, hr, ?_⟩
    rw [h.placed.length_eq]
    exact hplaced.node_around hfile own

/-- The loop over the files. -/
theorem Sourced.run (rest : List Extraction) :
    ∀ {es : List Extraction} {draft : Draft}, Sourced es draft →
      Sourced (es ++ rest) (rest.foldl Draft.addFile draft) := by
  induction rest with
  | nil =>
      intro es draft h
      rwa [List.append_nil]
  | cons e rest ih =>
      intro es draft h
      have hrest := ih (h.addFile e)
      rwa [List.append_assoc, List.singleton_append] at hrest

theorem sourced_empty : Sourced [] {} := ⟨.nil, fun p hp => by cases hp⟩

end Draft

-- ================================================================== holders

/-- The edge stands for a reference of the file that starts on the first one of
`rows`, and of the definitions that are located in the file, `holder` is the
innermost one around that row. -/
def HeldBy (edge : CodeEdge) (f : SourceFile) (holder : Located) (rows : LineSpan) : Prop :=
  ∃ r i, (r, some i) ∈ (extract f).references ∧ r.name = edge.name
    ∧ r.tagType = edge.relationship ∧ r.span = some rows ∧ edge.refSpan = some rows
    ∧ (extract f).located[i]? = some holder ∧ Innermost (extract f).located rows.first i

theorem HeldBy.contains {edge : CodeEdge} {f : SourceFile} {holder : Located} {rows : LineSpan}
    (h : HeldBy edge f holder rows) : holder.span.contains rows.first := by
  obtain ⟨r, i, -, -, -, -, -, hholder, d, hd, hrow, -⟩ := h
  rw [hholder] at hd
  exact Option.some.inj hd ▸ hrow

/-- No definition of the name was located before this one, in path order and in
the order of tags. -/
def StandsFirst (files : List SourceFile) (d : Located) : Prop :=
  (locatedIn (ordered files)).find? (sameName d) = some d

/-- Where an edge comes from that leaves a definition: from a reference that
`holder` holds, and so from the node that represents `holder`. -/
structure Stems (files : List SourceFile) (edge : CodeEdge) (source : CodeNode) (holder : Located)
    (rows : LineSpan) : Prop where
  held : ∃ f ∈ files, HeldBy edge f holder rows
  node : source = nodeAmong (locatedIn (ordered files)) holder

theorem exists_holder {files : List SourceFile} {edge : CodeEdge}
    (hedge : edge ∈ (build files).edges) {source : CodeNode}
    (hsource : (build files).nodes[edge.source]? = some source) (hkind : source.kind ≠ .file) :
    ∃ holder rows, Stems files edge source holder rows := by
  have hsourced := Draft.sourced_empty.run (ordered files)
  rw [List.nil_append] at hsourced
  obtain ⟨p, hp, d, -, rfl⟩ := Draft.exists_pending hedge
  obtain ⟨e, he, own, hreference, hnode⟩ := hsourced.pending p hp
  obtain ⟨f, hf, rfl⟩ := List.mem_map.mp ((ordered_perm files).subset he)
  rw [nodes_build, hnode, Option.some.injEq] at hsource
  unfold nodeAround at hsource
  split at hsource
  next holder hholder =>
    obtain ⟨i, hown, hi⟩ := Option.bind_eq_some_iff.mp hholder
    obtain ⟨rows, hrows, hinnermost⟩ := ((reads_extract f).owner _ own hreference i).mp hown
    subst hown
    exact ⟨holder, rows, ⟨f, hf, p.reference, i, hreference, rfl, rfl, hrows, hrows, hi,
      hinnermost⟩, hsource.symm⟩
  next =>
    -- a reference outside all definitions leaves its file
    rw [file_extract] at hsource
    exact absurd (hsource ▸ rfl) hkind

section Stems

variable {files : List SourceFile} {edge : CodeEdge} {source : CodeNode} {holder : Located}
  {rows : LineSpan}

theorem Stems.refSpan_eq (h : Stems files edge source holder rows) : edge.refSpan = some rows := by
  obtain ⟨f, -, r, i, -, -, -, -, hspan, -⟩ := h.held
  exact hspan

theorem Stems.contains (h : Stems files edge source holder rows) :
    holder.span.contains rows.first := by
  obtain ⟨f, -, hheld⟩ := h.held
  exact hheld.contains

theorem Stems.mem_located (h : Stems files edge source holder rows) :
    holder ∈ locatedIn (ordered files) := by
  obtain ⟨f, hf, r, i, -, -, -, -, -, hholder, -⟩ := h.held
  have hordered : extract f ∈ ordered files :=
    (ordered_perm files).mem_iff.mpr (List.mem_map_of_mem hf)
  exact located_subset hordered (List.mem_of_getElem? hholder)

/-- The node has the name of the definition. -/
theorem Stems.qualified_eq (h : Stems files edge source holder rows) :
    source.qualified = qualifiedName holder.definition := by
  obtain ⟨first, hfirst⟩ := exists_find?_sameName h.mem_located
  have hsame : sameName holder first = true := List.find?_some hfirst
  rw [h.node, nodeAmong_of_find? hfirst]
  exact (beq_iff_eq.mp hsame).symm

/-- The first definition of a name lends its rows to the node. -/
theorem Stems.span_eq (h : Stems files edge source holder rows)
    (hfirst : StandsFirst files holder) : source.span = some holder.span := by
  rw [h.node, nodeAmong_of_find? hfirst]
  rfl

end Stems

/-- Where every name is defined once, every definition is the first one. -/
theorem standsFirst_of_nodup {files : List SourceFile}
    (h : (namesOf (locatedIn (ordered files))).Nodup) {d : Located}
    (hd : d ∈ locatedIn (ordered files)) : StandsFirst files d := by
  obtain ⟨first, hfirst⟩ := exists_find?_sameName hd
  have hsame : sameName d first = true := List.find?_some hfirst
  have heq : d = first :=
    List.inj_on_of_nodup_map h hd (List.mem_of_find?_eq_some hfirst) (beq_iff_eq.mp hsame)
  rw [StandsFirst, hfirst, ← heq]

end CodeMap.CodeGraph
