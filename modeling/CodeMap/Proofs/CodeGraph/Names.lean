/-
What tells the nodes of a code graph apart.

A file node is named by its path, a definition node by a path, a colon and the
dotted names of its scopes and itself. While files are joined, the definitions
double as a table of names: a definition whose name is in the table shares the
node of the earlier one. `Draft.Tabled` says that the table and the definition
nodes stay in step, and it is carried through the two nested loops like the
positions are.

File nodes never enter the table. They differ among themselves if the paths
do, but nothing compares them with definitions, so the names of a graph are
distinct exactly if no file is named like a definition
(`nodup_qualified_iff`). A colon in a file name is enough to bring the two
together; without one they never meet (`namesApart_of_no_colon`).
-/
import CodeMap.Proofs.CodeGraph.Positions

namespace CodeMap

/-- Whether a node stands for a whole file. -/
def CodeNode.isFile (n : CodeNode) : Bool := n.kind == .file

namespace CodeGraph

theorem isFile_eq_false_iff {n : CodeNode} : n.isFile = false ↔ n.kind ≠ .file := by
  rw [CodeNode.isFile, beq_eq_false_iff_ne]

/-- The names of the nodes that stand for definitions. -/
def definitionNames (nodes : List CodeNode) : List String :=
  (nodes.filter (!·.isFile)).map CodeNode.qualified

theorem definitionNames_append (as bs : List CodeNode) :
    definitionNames (as ++ bs) = definitionNames as ++ definitionNames bs := by
  rw [definitionNames, List.filter_append, List.map_append]
  rfl

theorem definitionNames_file {n : CodeNode} (h : n.kind = .file) : definitionNames [n] = [] := by
  simp [definitionNames, CodeNode.isFile, h]

theorem definitionNames_definition {d : Located} (h : d.kind ≠ .file) :
    definitionNames [definitionNode d] = [qualifiedName d.definition] := by
  have hfile : (definitionNode d).isFile = false := isFile_eq_false_iff.mpr h
  rw [definitionNames, List.filter_cons_of_pos (by rw [hfile]; rfl)]
  rfl

/-- The names that located definitions get. -/
def namesOf (located : List Located) : List String :=
  located.map fun d => qualifiedName d.definition

theorem file_extract (f : SourceFile) : (extract f).file = fileNode f := by
  unfold extract
  split <;> rfl

-- ================================================================ the table

namespace Draft

/-- The names in the table. -/
def known (draft : Draft) : List String := draft.definitions.map fun p => qualifiedName p.1

/-- The definition nodes have distinct names, and these are the names in the
table. -/
structure Tabled (draft : Draft) : Prop where
  distinct : (definitionNames draft.nodes).Nodup
  known : ∀ q, q ∈ definitionNames draft.nodes ↔ q ∈ draft.known

theorem nodeOf?_eq_none_iff {draft : Draft} {q : String} :
    draft.nodeOf? q = none ↔ q ∉ draft.known := by
  simp [nodeOf?, Draft.known]

theorem known_addDefinition (draft : Draft) (d : Located) :
    (draft.addDefinition d).known = draft.known ++ [qualifiedName d.definition] := by
  unfold addDefinition Draft.known
  split <;> simp

/-- A definition only adds a node that is no file. -/
theorem files_addDefinition (draft : Draft) {d : Located} (hkind : d.kind ≠ .file) :
    (draft.addDefinition d).nodes.filter CodeNode.isFile
      = draft.nodes.filter CodeNode.isFile := by
  have hfile : (definitionNode d).isFile = false := isFile_eq_false_iff.mpr hkind
  unfold addDefinition
  split
  · rfl
  · simp [hfile]

/-- A name that is in the table stays the name of one node, a new one becomes
the name of a new node. -/
theorem Tabled.addDefinition {draft : Draft} (h : draft.Tabled) {d : Located}
    (hkind : d.kind ≠ .file) : (draft.addDefinition d).Tabled := by
  by_cases hknown : qualifiedName d.definition ∈ draft.known
  · have hnodes : (draft.addDefinition d).nodes = draft.nodes := by
      unfold Draft.addDefinition
      split
      next => rfl
      next hnew => exact absurd hknown (nodeOf?_eq_none_iff.mp hnew)
    refine ⟨hnodes ▸ h.distinct, fun q => ?_⟩
    rw [hnodes, h.known, known_addDefinition, List.mem_append, List.mem_singleton]
    constructor
    · exact .inl
    · rintro (hold | rfl)
      · exact hold
      · exact hknown
  · have hnodes : (draft.addDefinition d).nodes = draft.nodes ++ [definitionNode d] := by
      unfold Draft.addDefinition
      rw [nodeOf?_eq_none_iff.mpr hknown]
    have hnames : definitionNames (draft.addDefinition d).nodes
        = definitionNames draft.nodes ++ [qualifiedName d.definition] := by
      rw [hnodes, definitionNames_append, definitionNames_definition hkind]
    refine ⟨?_, fun q => ?_⟩
    · rw [hnames, List.nodup_append]
      refine ⟨h.distinct, by simp, fun a ha b hb heq => ?_⟩
      rw [List.mem_singleton.mp hb] at heq
      exact hknown ((h.known _).mp (heq ▸ ha))
    · rw [hnames, known_addDefinition, List.mem_append, List.mem_append, h.known]

/-- The node of a file is not entered into the table. -/
theorem Tabled.addNode {draft : Draft} (h : draft.Tabled) {n : CodeNode} (hfile : n.kind = .file) :
    ({ draft with nodes := draft.nodes ++ [n] } : Draft).Tabled := by
  have hnames : definitionNames (draft.nodes ++ [n]) = definitionNames draft.nodes := by
    rw [definitionNames_append, definitionNames_file hfile, List.append_nil]
  exact ⟨hnames ▸ h.distinct, fun q => by rw [hnames]; exact h.known q⟩

-- ================================================================ the loops

/-- The loop over the definitions of a file. -/
theorem addDefinitions_names {located : List Located} (hkind : ∀ d ∈ located, d.kind ≠ .file) :
    ∀ {draft : Draft}, draft.Tabled →
      (located.foldl Draft.addDefinition draft).Tabled
      ∧ (located.foldl Draft.addDefinition draft).nodes.filter CodeNode.isFile
        = draft.nodes.filter CodeNode.isFile
      ∧ (located.foldl Draft.addDefinition draft).known
        = draft.known ++ namesOf located := by
  induction located with
  | nil =>
      intro draft h
      exact ⟨h, rfl, (List.append_nil _).symm⟩
  | cons d rest ih =>
      intro draft h
      have hd : d.kind ≠ .file := hkind d (by simp)
      obtain ⟨htabled, hfiles, hknown⟩ :=
        ih (fun d' hd' => hkind d' (by simp [hd'])) (h.addDefinition hd)
      refine ⟨htabled, hfiles.trans (files_addDefinition draft hd), hknown.trans ?_⟩
      rw [known_addDefinition, List.append_assoc]
      rfl

/-- One file more: its node, and then its definitions. -/
theorem addFile_names {draft : Draft} (h : draft.Tabled) {e : Extraction}
    (hfile : e.file.kind = .file) (hkind : ∀ d ∈ e.located, d.kind ≠ .file) :
    (draft.addFile e).Tabled
      ∧ (draft.addFile e).nodes.filter CodeNode.isFile
        = draft.nodes.filter CodeNode.isFile ++ [e.file]
      ∧ (draft.addFile e).known
        = draft.known ++ namesOf e.located := by
  obtain ⟨htabled, hfiles, hknown⟩ := addDefinitions_names hkind (h.addNode hfile)
  refine ⟨⟨htabled.distinct, htabled.known⟩, hfiles.trans ?_, hknown⟩
  have htrue : e.file.isFile = true := beq_iff_eq.mpr hfile
  rw [List.filter_append, List.filter_cons_of_pos htrue, List.filter_nil]

/-- The loop over the files. -/
theorem addFiles_names {extractions : List Extraction}
    (hfile : ∀ e ∈ extractions, e.file.kind = .file)
    (hkind : ∀ e ∈ extractions, ∀ d ∈ e.located, d.kind ≠ .file) :
    ∀ {draft : Draft}, draft.Tabled →
      (extractions.foldl Draft.addFile draft).Tabled
      ∧ (extractions.foldl Draft.addFile draft).nodes.filter CodeNode.isFile
        = draft.nodes.filter CodeNode.isFile ++ extractions.map Extraction.file
      ∧ (extractions.foldl Draft.addFile draft).known
        = draft.known ++ extractions.flatMap fun e => namesOf e.located := by
  induction extractions with
  | nil =>
      intro draft h
      exact ⟨h, (List.append_nil _).symm, (List.append_nil _).symm⟩
  | cons e rest ih =>
      intro draft h
      obtain ⟨hfirst, hfiles, hknown⟩ :=
        addFile_names h (hfile e (by simp)) (hkind e (by simp))
      obtain ⟨htabled, hfiles', hknown'⟩ :=
        ih (fun e' he' => hfile e' (by simp [he'])) (fun e' he' => hkind e' (by simp [he'])) hfirst
      refine ⟨htabled, hfiles'.trans ?_, hknown'.trans ?_⟩
      · rw [hfiles, List.append_assoc]
        rfl
      · rw [hknown, List.append_assoc]
        rfl

end Draft

-- ================================================================ the graph

/-- The names that the definitions of some files get. -/
def namesDefined (files : List SourceFile) : List String :=
  (files.map extract).flatMap fun e => namesOf e.located

/-- No file is named like a definition. -/
def NamesApart (files : List SourceFile) : Prop :=
  ∀ f ∈ files, f.path.text ∉ namesDefined files

instance (files : List SourceFile) : Decidable (NamesApart files) :=
  inferInstanceAs (Decidable (∀ f ∈ files, f.path.text ∉ namesDefined files))

/-- The extractions in the order of joining. -/
def ordered (files : List SourceFile) : List Extraction :=
  (files.map extract).mergeSort fun a b => (a.file.path.order b.file.path).isLE

theorem ordered_perm (files : List SourceFile) : (ordered files).Perm (files.map extract) :=
  List.mergeSort_perm _ _

/-- Files that are in path order are joined as they come. -/
theorem build_of_ordered {files : List SourceFile}
    (h : files.Pairwise fun a b => (a.path.order b.path).isLE) :
    build files = ((files.map extract).foldl Draft.addFile {}).graph := by
  have hordered : ordered files = files.map extract := by
    refine List.mergeSort_of_pairwise (List.pairwise_map.mpr (h.imp fun {a b} hle => ?_))
    rw [file_extract, file_extract]
    exact hle
  rw [← hordered]
  rfl

theorem nodes_build (files : List SourceFile) :
    (build files).nodes = ((ordered files).foldl Draft.addFile {}).nodes := rfl

theorem tabled_empty : Draft.Tabled {} := by
  refine ⟨List.nodup_nil, fun q => ?_⟩
  rfl

/-- The table at the end of the joining, and the nodes and names it came from:
joining takes the files in an order of its own, so both hold up to order. -/
theorem build_names (files : List SourceFile) :
    (definitionNames (build files).nodes).Nodup
      ∧ (∀ q, q ∈ definitionNames (build files).nodes ↔ q ∈ namesDefined files)
      ∧ ((build files).nodes.filter CodeNode.isFile).Perm (files.map fileNode) := by
  have hperm := ordered_perm files
  have hfile : ∀ e ∈ ordered files, e.file.kind = .file := by
    intro e he
    obtain ⟨f, -, rfl⟩ := List.mem_map.mp (hperm.subset he)
    rw [file_extract]
    rfl
  have hkind : ∀ e ∈ ordered files, ∀ d ∈ e.located, d.kind ≠ .file := by
    intro e he
    obtain ⟨f, -, rfl⟩ := List.mem_map.mp (hperm.subset he)
    exact kind_of_mem_located f
  obtain ⟨htabled, hfiles, hknown⟩ := Draft.addFiles_names hfile hkind tabled_empty
  rw [nodes_build]
  refine ⟨htabled.distinct, fun q => ?_, ?_⟩
  · rw [htabled.known, hknown]
    exact (hperm.flatMap_right fun e => namesOf e.located).mem_iff
  · rw [hfiles]
    refine (hperm.map Extraction.file).trans (.of_eq ?_)
    rw [List.map_map]
    exact List.map_congr_left fun f _ => file_extract f

/-- Names are distinct exactly if those of the files are, those of the
definitions are, and no name is in both parts. -/
theorem nodup_names_iff (nodes : List CodeNode) :
    (nodes.map CodeNode.qualified).Nodup ↔
      ((nodes.filter CodeNode.isFile).map CodeNode.qualified).Nodup
        ∧ (definitionNames nodes).Nodup
        ∧ ∀ q ∈ (nodes.filter CodeNode.isFile).map CodeNode.qualified, q ∉ definitionNames nodes := by
  have hparts := (List.filter_append_perm CodeNode.isFile nodes).map CodeNode.qualified
  rw [← hparts.nodup_iff, List.map_append, List.nodup_append]
  refine and_congr_right fun _ => and_congr_right fun _ => ?_
  exact ⟨fun h q hq hq' => h q hq q hq' rfl, fun h a ha b hb heq => h a ha (heq ▸ hb)⟩

/-- The file nodes are named by the paths. -/
theorem fileNames_perm (files : List SourceFile) :
    (((build files).nodes.filter CodeNode.isFile).map CodeNode.qualified).Perm
      (files.map (·.path.text)) := by
  refine ((build_names files).2.2.map CodeNode.qualified).trans (.of_eq ?_)
  rw [List.map_map]
  rfl

theorem nodup_fileNames {files : List SourceFile} (hpaths : (files.map SourceFile.path).Nodup) :
    (((build files).nodes.filter CodeNode.isFile).map CodeNode.qualified).Nodup := by
  rw [(fileNames_perm files).nodup_iff]
  rw [List.Nodup, List.pairwise_map] at hpaths ⊢
  exact hpaths.imp fun hne heq => hne (congrArg Path.mk heq)

/-- The names of a graph are distinct exactly if no file is named like a
definition. -/
theorem nodup_qualified_iff {files : List SourceFile} (hpaths : (files.map SourceFile.path).Nodup) :
    ((build files).nodes.map CodeNode.qualified).Nodup ↔ NamesApart files := by
  obtain ⟨hdistinct, hnames, -⟩ := build_names files
  have hfiles := fileNames_perm files
  rw [nodup_names_iff]
  constructor
  · rintro ⟨-, -, hapart⟩ f hf hclash
    have hname := hfiles.mem_iff.mpr (List.mem_map_of_mem hf)
    exact hapart _ hname ((hnames _).mpr hclash)
  · intro hapart
    refine ⟨nodup_fileNames hpaths, hdistinct, fun q hq hq' => ?_⟩
    obtain ⟨f, hf, rfl⟩ := List.mem_map.mp (hfiles.mem_iff.mp hq)
    exact hapart f hf ((hnames _).mp hq')

/-- The name of a definition has a colon in it. -/
theorem colon_mem_qualifiedName (d : Definition) : ':' ∈ (qualifiedName d).toList := by
  simp [qualifiedName]

theorem namesApart_of_no_colon {files : List SourceFile}
    (h : ∀ f ∈ files, ':' ∉ f.path.text.toList) : NamesApart files := by
  intro f hf hclash
  obtain ⟨e, -, hd⟩ := List.mem_flatMap.mp hclash
  obtain ⟨d, -, hname⟩ := List.mem_map.mp hd
  exact h f hf (hname ▸ colon_mem_qualifiedName d.definition)

end CodeGraph

end CodeMap
