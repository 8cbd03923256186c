/-
What a file contributes to a code graph is local.

A file brings a block of nodes, definitions and references into the joining, at
its place in path order. The files behind it are joined as they would be without
the block, with positions moved by its size (`Draft.exists_widened`). What they
refer to does not change, unless they refer to a name that the block defines, and
which of their definitions share a node does not change, unless the block has a
definition of the same qualified name.

To tell apart what is in the block and what is not, the path is enough: every
node carries the path of the file that added it (`Draft.path_addFiles`), and a
reference leaves a node of its own file (`Draft.Brings.node_of_pending`).
-/
import CodeMap.Proofs.CodeGraph.Widening

namespace CodeMap.CodeGraph

/-- Whether an edge leaves a node of a file. -/
def leaves (g : CodeGraph) (path : Path) (edge : CodeEdge) : Bool :=
  (g.nodes[edge.source]?).any (·.path == path)

-- ==================================================================== files

/-- The definitions of a file are in it, and a reference names the definition
around it by a position that the file has. -/
structure Coherent (e : Extraction) : Prop where
  path : ∀ d ∈ e.located, d.definition.path = e.file.path
  own : ∀ q ∈ e.references, ∀ i ∈ q.2, i < e.located.length

theorem coherent_extract (f : SourceFile) : Coherent (extract f) := by
  refine ⟨fun d hd => ?_, fun q hq i hi => ?_⟩
  · rw [path_of_mem_located hd, file_extract]
    rfl
  · obtain ⟨s, -, d, hd, -⟩ := ((reads_extract f).owner q.1 q.2 hq i).mp hi
    exact (List.getElem?_eq_some_iff.mp hd).1

namespace Draft

theorem Brings.path {draft block : Draft} {e : Extraction} (h : Brings draft e block)
    (hcoherent : Coherent e) : ∀ n ∈ block.nodes, n.path = e.file.path := by
  intro n hn
  rcases h.mem_nodes n hn with rfl | ⟨d, hd, rfl⟩
  · rfl
  · exact hcoherent.path d hd

/-- Every node that some files add is in one of them. -/
theorem path_addFiles (es : List Extraction) (hcoherent : ∀ e ∈ es, Coherent e) :
    ∀ {draft : Draft}, ∀ n ∈ (es.foldl Draft.addFile draft).nodes,
      n ∈ draft.nodes ∨ ∃ e ∈ es, n.path = e.file.path := by
  induction es with
  | nil =>
      intro draft n hn
      exact .inl hn
  | cons e rest ih =>
      intro draft n hn
      rcases ih (fun a ha => hcoherent a (by simp [ha])) n hn with hfirst | ⟨a, ha, hpath⟩
      · obtain ⟨block, hblock⟩ := exists_block draft e
        rw [hblock.nodes, List.mem_append] at hfirst
        rcases hfirst with hold | hnew
        · exact .inl hold
        · exact .inr ⟨e, by simp, hblock.path (hcoherent e (by simp)) n hnew⟩
      · exact .inr ⟨a, by simp [ha], hpath⟩

/-- References go on knowing the definitions around them. -/
theorem owns_addFiles (es : List Extraction) (hcoherent : ∀ e ∈ es, Coherent e) :
    ∀ {draft : Draft}, (∀ p ∈ draft.pending, ∀ i ∈ p.own, i < draft.definitions.length) →
      ∀ p ∈ (es.foldl Draft.addFile draft).pending, ∀ i ∈ p.own,
        i < (es.foldl Draft.addFile draft).definitions.length := by
  induction es with
  | nil =>
      intro draft h
      exact h
  | cons e rest ih =>
      intro draft h
      refine ih (fun a ha => hcoherent a (by simp [ha])) ?_
      obtain ⟨block, hblock⟩ := exists_block draft e
      have hlength : (draft.addFile e).definitions.length
          = draft.definitions.length + e.located.length := by
        have hentries := congrArg List.length hblock.entries
        rw [List.length_map, List.length_map] at hentries
        rw [hblock.definitions, List.length_append, hentries]
      intro p hp i hi
      rw [hblock.pending, List.mem_append, hblock.waiting] at hp
      rw [hlength]
      rcases hp with hold | hnew
      · exact Nat.lt_add_right _ (h p hold i hi)
      · obtain ⟨q, hq, rfl⟩ := List.mem_map.mp hnew
        obtain ⟨j, hj, rfl⟩ := Option.map_eq_some_iff.mp hi
        exact Nat.add_lt_add_left ((hcoherent e (by simp)).own q hq j hj) _

theorem Sourced.closed {es : List Extraction} {draft : Draft} (h : Sourced es draft)
    (howns : ∀ p ∈ draft.pending, ∀ i ∈ p.own, i < draft.definitions.length) :
    draft.Closed := by
  refine ⟨fun p hp => ?_, fun p hp => ?_, howns⟩
  · obtain ⟨i, hi⟩ := List.mem_iff_getElem?.mp hp
    have hentry := rel_getElem? h.placed i
    rw [hi] at hentry
    generalize (locatedIn es)[i]? = d at hentry
    cases hentry with
    | some hstands => exact (List.getElem?_eq_some_iff.mp hstands.node).1
  · obtain ⟨e, -, own, hwaits⟩ := h.pending p hp
    exact (List.getElem?_eq_some_iff.mp hwaits.node).1

end Draft

theorem path_of_mem_contribution {e : Extraction} (hcoherent : Coherent e) {n : CodeNode}
    (hn : n ∈ contribution e) : n.path = e.file.path := by
  rcases List.mem_cons.mp hn with rfl | hdefinition
  · rfl
  · obtain ⟨d, hd, rfl⟩ := List.mem_map.mp hdefinition
    exact hcoherent.path d ((eraseDupsBy_sublist _ _).subset hd)

/-- The references of a new file wait at nodes of that file, if none of its
definitions is represented in an earlier one. -/
theorem Draft.Brings.node_of_pending {es : List Extraction} {draft block : Draft} {e : Extraction}
    (h : Brings draft e block) (hplaced : draft.Placed (locatedIn es)) (hcoherent : Coherent e)
    (hnew : NamesDisjoint (locatedIn es) e.located) :
    ∀ p ∈ block.pending, ∃ n, (draft.addFile e).nodes[p.source]? = some n
      ∧ n.path = e.file.path := by
  intro p hp
  rw [h.waiting] at hp
  obtain ⟨⟨r, own⟩, -, rfl⟩ := List.mem_map.mp hp
  have hfile : (draft.addFile e).nodes[draft.nodes.length]? = some e.file := by
    obtain ⟨later, heq⟩ := nodes_addFile draft e
    rw [← heq]
    simp
  have hnode := Draft.Placed.node_source ⟨es, e, r, own⟩ (hplaced.addFile e) hnew hfile
  rw [Use.ownPosition, ← hplaced.length_eq] at hnode
  exact ⟨_, hnode, path_of_mem_contribution hcoherent (Use.sourceNode_mem _)⟩

namespace Draft

theorem source_of_edge? {draft : Draft} {p : Pending} {edge : CodeEdge}
    (h : draft.edge? p = some edge) : edge.source = p.source := by
  simp only [edge?, bind, Option.bind_eq_some_iff, pure, Option.some.injEq] at h
  obtain ⟨position, -, d, -, rfl⟩ := h
  rfl

theorem Sourced.source_of_edge {es : List Extraction} {draft : Draft} (h : Sourced es draft)
    {edge : CodeEdge} (hedge : edge ∈ draft.graph.edges) :
    ∃ n, draft.nodes[edge.source]? = some n := by
  obtain ⟨p, hp, hedge⟩ := List.mem_filterMap.mp hedge
  obtain ⟨e, -, own, hwaits⟩ := h.pending p hp
  exact ⟨_, source_of_edge? hedge ▸ hwaits.node⟩

end Draft

-- ================================================================ the graph

/-- One file among others, with definitions whose names and qualified names are
not those of the others. -/
structure Unrelated (e : Extraction) (others : List Extraction) : Prop where
  paths : ∀ a ∈ others, a.file.path ≠ e.file.path
  qualified : ∀ a ∈ others, NamesDisjoint e.located a.located
  unused : ∀ a ∈ others, ∀ q ∈ a.references, ∀ d ∈ e.located, d.definition.name ≠ q.1.name

/-- The draft that some files are joined to, in their order. -/
def Draft.ofFiles (es : List Extraction) : Draft := es.foldl Draft.addFile {}

theorem Draft.ofFiles_append (as bs : List Extraction) :
    ofFiles (as ++ bs) = bs.foldl Draft.addFile (ofFiles as) := List.foldl_append

theorem Draft.sourced_ofFiles (es : List Extraction) : Sourced es (ofFiles es) := by
  have h := sourced_empty.run es
  rwa [List.nil_append] at h

/-- The graph that some files are joined to, in their order. -/
def joined (es : List Extraction) : CodeGraph := (Draft.ofFiles es).graph

section Insert

variable {as bs : List Extraction} {e : Extraction}

/-- A file is put in as a block: its nodes and its references are those of the
block. -/
theorem Draft.exists_widened (hcoherent : ∀ a ∈ as ++ e :: bs, Coherent a)
    (hunrelated : Unrelated e (as ++ bs)) :
    ∃ before block, Widened before block (ofFiles (as ++ bs)) (ofFiles (as ++ e :: bs))
      ∧ block.definitions.map (·.1) = e.located.map (·.definition)
      ∧ (∀ n ∈ block.nodes, n.path = e.file.path)
      ∧ ∀ p ∈ block.pending, ∃ n, (ofFiles (as ++ e :: bs)).nodes[p.source]? = some n
        ∧ n.path = e.file.path := by
  have hbefore : ∀ a ∈ as, Coherent a := fun a ha => hcoherent a (by simp [ha])
  have he : Coherent e := hcoherent e (by simp)
  have hsourced := sourced_ofFiles as
  have howns : ∀ p ∈ (ofFiles as).pending, ∀ i ∈ p.own, i < (ofFiles as).definitions.length :=
    owns_addFiles as hbefore fun p hp => by cases hp
  obtain ⟨block, hblock⟩ := exists_block (ofFiles as) e
  have hstart := hblock.widened (hsourced.closed howns)
  have hnew : ∀ b ∈ bs, ∀ d ∈ b.located, qualifiedName d.definition ∉ block.known := by
    intro b hb d hd hmem
    rw [hblock.known_eq] at hmem
    obtain ⟨d', hd', hname⟩ := List.mem_map.mp hmem
    exact hunrelated.qualified b (by simp [hb]) d' hd' d hd hname
  have hwide := hstart.addFiles bs hnew
  refine ⟨ofFiles as, block, ?_, hblock.entries, hblock.path he, fun p hp => ?_⟩
  · rw [ofFiles_append, ofFiles_append]
    exact hwide
  · have hearlier : NamesDisjoint (locatedIn as) e.located := by
      intro a ha d hd hname
      obtain ⟨f, hf, haf⟩ := List.mem_flatMap.mp ha
      exact hunrelated.qualified f (by simp [hf]) d hd a haf hname.symm
    obtain ⟨n, hn, hpath⟩ := hblock.node_of_pending hsourced.placed he hearlier p hp
    obtain ⟨later, -, hnodes⟩ := hwide.nodes
    refine ⟨n, ?_, hpath⟩
    rw [← List.append_assoc, ← hblock.nodes] at hnodes
    rw [ofFiles_append, List.foldl_cons, hnodes,
      List.getElem?_append_left (List.getElem?_eq_some_iff.mp hn).1, hn]

theorem path_ne_of_mem_nodes (hcoherent : ∀ a ∈ as ++ bs, Coherent a)
    (hunrelated : Unrelated e (as ++ bs)) :
    ∀ n ∈ (Draft.ofFiles (as ++ bs)).nodes, n.path ≠ e.file.path := by
  intro n hn
  rcases Draft.path_addFiles (as ++ bs) hcoherent n hn with hnone | ⟨a, ha, hpath⟩
  · cases hnone
  · rw [hpath]
    exact hunrelated.paths a ha

/-- Taking a file out again leaves the nodes and the edges of the others, in
their order. -/
theorem joined_insert (hcoherent : ∀ a ∈ as ++ e :: bs, Coherent a)
    (hunrelated : Unrelated e (as ++ bs)) :
    ((joined (as ++ e :: bs)).nodes.filter fun n => !(n.path == e.file.path))
        = (joined (as ++ bs)).nodes
      ∧ ∃ σ : Nat → Nat, StrictMono σ
        ∧ (∀ i, (joined (as ++ e :: bs)).nodes[σ i]? = (joined (as ++ bs)).nodes[i]?)
        ∧ ((joined (as ++ e :: bs)).edges.filter fun edge =>
            !((joined (as ++ e :: bs)).leaves e.file.path edge))
          = (joined (as ++ bs)).edges.map (CodeEdge.renumber σ) := by
  have hothers : ∀ a ∈ as ++ bs, Coherent a := by
    intro a ha
    refine hcoherent a ?_
    rcases List.mem_append.mp ha with ha | ha <;> simp [ha]
  have hpaths := path_ne_of_mem_nodes hothers hunrelated
  have hsourced := Draft.sourced_ofFiles (as ++ bs)
  obtain ⟨before, block, hw, hentries, hnodes, hsources⟩ := Draft.exists_widened hcoherent hunrelated
  have hplaces : ∀ i, (joined (as ++ e :: bs)).nodes[Draft.nodePlace before block i]?
      = (joined (as ++ bs)).nodes[i]? := hw.nodes.getElem?_eq
  refine ⟨?_, Draft.nodePlace before block, strictMono_shifted _ _, hplaces, ?_⟩
  · refine hw.nodes.filter_eq (fun n hn => ?_) fun n hn => ?_
    · simp [hnodes n hn]
    · simpa using hpaths n hn
  · refine (hw.edges_eq fun p hp d hd => ?_).filter_eq (fun edge hedge => ?_) fun edge hedge => ?_
    · -- no reference of the others has the name of a definition of the file
      obtain ⟨a, ha, own, hwaits⟩ := hsourced.pending p hp
      have hmem : d.1 ∈ e.located.map (·.definition) := hentries ▸ List.mem_map_of_mem hd
      obtain ⟨d', hd', hsame⟩ := List.mem_map.mp hmem
      exact hsame ▸ hunrelated.unused a ha _ hwaits.reference d' hd'
    · obtain ⟨p, hp, hedge⟩ := List.mem_filterMap.mp hedge
      obtain ⟨n, hn, hpath⟩ := hsources p hp
      have hnode : (joined (as ++ e :: bs)).nodes[edge.source]? = some n := by
        rw [Draft.source_of_edge? hedge]
        exact hn
      simp [leaves, hnode, hpath]
    · obtain ⟨x, hx, rfl⟩ := List.mem_map.mp hedge
      obtain ⟨n, hn⟩ := hsourced.source_of_edge hx
      have hnode : (joined (as ++ e :: bs)).nodes[(x.renumber
          (Draft.nodePlace before block)).source]? = some n := (hplaces x.source).trans hn
      simp [leaves, hnode, hpaths n (List.mem_of_getElem? hn)]

end Insert

/-- A file comes into the order of the others without changing it. -/
theorem exists_ordered_split (files : List SourceFile) (g : SourceFile) :
    ∃ as bs, ordered (g :: files) = as ++ extract g :: bs ∧ ordered files = as ++ bs := by
  have htotal : ∀ a b : Extraction,
      ((a.file.path.order b.file.path).isLE || (b.file.path.order a.file.path).isLE) = true := by
    intro a b
    rw [@Std.OrientedCmp.eq_swap _ Path.order _ b.file.path a.file.path]
    cases a.file.path.order b.file.path <;> rfl
  obtain ⟨as, bs, hwith, hwithout, -⟩ := List.mergeSort_cons
    (fun a b c : Extraction => @Std.TransCmp.isLE_trans _ Path.order _ a.file.path b.file.path
      c.file.path) htotal (extract g) (files.map extract)
  exact ⟨as, bs, hwith, hwithout⟩

/-- What a file contributes is local. Take one file more than some others, with a
path of its own, whose located definitions have names that no reference of the
others has, and qualified names that no definition of the others has, as is the
case if it has no definitions. Then the nodes of the other files are those that
they have without it, and the edges that leave them are those that they have
without it, both in the same order, the edges with all they carry and between
the same nodes at their new positions. -/
theorem build_is_local {files : List SourceFile} {g : SourceFile}
    (hpaths : ((files ++ [g]).map fun f => f.path.components).Nodup)
    (hunused : ∀ f ∈ files, ∀ q ∈ (extract f).references, ∀ d ∈ (extract g).located,
      d.definition.name ≠ q.1.name)
    (hqualified : ∀ f ∈ files, NamesDisjoint (extract g).located (extract f).located) :
    let wide := build (files ++ [g])
    (wide.nodes.filter fun n => !(n.path == g.path)) = (build files).nodes
    ∧ ∃ σ : Nat → Nat, StrictMono σ
      ∧ (∀ i, wide.nodes[σ i]? = (build files).nodes[i]?)
      ∧ (wide.edges.filter fun edge => !(wide.leaves g.path edge))
        = (build files).edges.map (CodeEdge.renumber σ) := by
  have hperm : (files ++ [g]).Perm (g :: files) := List.perm_append_singleton g files
  obtain ⟨as, bs, hwith, hwithout⟩ := exists_ordered_split files g
  have hbuild : ∀ fs, build fs = joined (ordered fs) := fun _ => rfl
  have hcoherent : ∀ a ∈ as ++ extract g :: bs, Coherent a := by
    intro a ha
    rw [← hwith] at ha
    obtain ⟨f, -, rfl⟩ := List.mem_map.mp ((ordered_perm (g :: files)).subset ha)
    exact coherent_extract f
  have hothers : ∀ a ∈ as ++ bs, ∃ f ∈ files, extract f = a := by
    intro a ha
    rw [← hwithout] at ha
    exact List.mem_map.mp ((ordered_perm files).subset ha)
  have hunrelated : Unrelated (extract g) (as ++ bs) := by
    refine ⟨fun a ha heq => ?_, fun a ha => ?_, fun a ha => ?_⟩
    all_goals obtain ⟨f, hf, rfl⟩ := hothers a ha
    · rw [file_extract, file_extract] at heq
      have hcomponents := (hperm.map fun f => f.path.components).nodup_iff.mp hpaths
      refine (List.nodup_cons.mp hcomponents).1 (List.mem_map.mpr ⟨f, hf, ?_⟩)
      exact congrArg Path.components heq
    · exact hqualified f hf
    · exact hunused f hf
  have hlocal := joined_insert hcoherent hunrelated
  rw [file_extract] at hlocal
  intro wide
  have hwide : wide = joined (as ++ extract g :: bs) := by
    show build (files ++ [g]) = _
    rw [hbuild, ordered_eq_of_perm hpaths hperm, hwith]
  rw [hwide, hbuild files, hwithout]
  exact hlocal

/-- Two functions in two files that call each other. -/
def callingFiles : List SourceFile :=
  [⟨⟨"a.py"⟩, ⟨"/r/a.py"⟩, .python, "def f():\n    h()\n"⟩,
    ⟨⟨"c.py"⟩, ⟨"/r/c.py"⟩, .python, "def h():\n    f()\n"⟩]

/-- A file between them that calls one of the two, and itself. -/
def callingFile : SourceFile :=
  ⟨⟨"b.py"⟩, ⟨"/r/b.py"⟩, .python, "def k():\n    f()\n    k()\n"⟩

theorem build_is_local_sample :
    (extract callingFile).located.length = 1 ∧ (extract callingFile).references.length = 2
      ∧ ((build (callingFiles ++ [callingFile])).nodes.filter
          fun n => !(n.path == callingFile.path)).length = 4
      ∧ ((build (callingFiles ++ [callingFile])).edges.filter fun edge =>
          !((build (callingFiles ++ [callingFile])).leaves callingFile.path edge)).length = 2 := by
  have hbuild : build callingFiles
      = ((callingFiles.map extract).foldl Draft.addFile {}).graph :=
    build_of_ordered (by decide +kernel)
  have hsizes : (build callingFiles).nodes.length = 4 ∧ (build callingFiles).edges.length = 2 := by
    rw [hbuild]
    decide +kernel
  obtain ⟨hnodes, σ, -, -, hedges⟩ := @build_is_local callingFiles callingFile
    (by decide +kernel) (by decide +kernel) (by decide +kernel)
  refine ⟨by decide +kernel, by decide +kernel, ?_, ?_⟩
  · rw [hnodes, hsizes.1]
  · rw [hedges, List.length_map, hsizes.2]

end CodeMap.CodeGraph
