/-
What a code graph holds, node by node and edge by edge.

A file contributes its own node and one node per qualified name among its
located definitions, that of the first definition of the name
(`contribution`). A reference contributes an edge if it can be resolved. Both
are said here about the extractions alone, without positions of nodes: `uses`
lists the references of all files in order, and `Use.meaning?` says what a
reference is resolved to.

# The joining

Three lists of positions have to stay in step while files are joined: each
located definition knows the node that represents it, each reference knows the
node it leaves, and each reference inside a definition knows the position of
that definition among all definitions. A draft is `Placed` if the first is
right. A definition whose name is new to the table gets a node of its own,
another one the node of the first definition of its name, and in both cases
the nodes that were there stay where they are (`Placed.addDefinition`).

`Joined` is what holds between two files: the nodes are the contributions, the
definitions are placed, and every pending reference waits at its node with the
position of its definition. Positions of definitions inside a file become
positions among all definitions by the number of definitions before the file
(`Joined.addFile`).

# Names

Files whose definitions share no qualified name do not see each other's
entries in the table. That makes the contributions independent of what was
joined before, and keeps the node that a reference leaves in the file of the
reference.
-/
import CodeMap.Proofs.CodeGraph.Extraction
import CodeMap.Proofs.CodeGraph.FileOrder
import CodeMap.Proofs.Path.Sets
import CodeMap.Proofs.Resolution.Choice
import Mathlib.Data.List.Forall2
import Mathlib.Data.List.Pairwise

namespace CodeMap.CodeGraph

-- ========================================================== representatives

/-- Definitions of the same qualified name. -/
def sameName (a b : Located) : Bool := qualifiedName a.definition == qualifiedName b.definition

/-- No definition of the one list has the qualified name of one of the other. -/
def NamesDisjoint (as bs : List Located) : Prop :=
  ∀ a ∈ as, ∀ b ∈ bs, qualifiedName a.definition ≠ qualifiedName b.definition

theorem NamesDisjoint.symm {as bs : List Located} (h : NamesDisjoint as bs) :
    NamesDisjoint bs as :=
  fun b hb a ha heq => h a ha b hb heq.symm

/-- The node that represents a definition among others: that of the first one
of its qualified name. -/
def nodeAmong (located : List Located) (d : Located) : CodeNode :=
  definitionNode ((located.find? (sameName d)).getD d)

/-- The nodes that a file brings into a graph. -/
def contribution (e : Extraction) : List CodeNode :=
  e.file :: (e.located.eraseDupsBy sameName).map definitionNode

theorem sameName_self (d : Located) : sameName d d = true := beq_self_eq_true _

theorem sameName_congr {a b : Located}
    (h : qualifiedName a.definition = qualifiedName b.definition) : sameName a = sameName b := by
  unfold sameName
  rw [h]

theorem exists_find?_sameName {located : List Located} {d : Located} (h : d ∈ located) :
    ∃ first, located.find? (sameName d) = some first := by
  have hsome : (located.find? (sameName d)).isSome :=
    List.find?_isSome.mpr ⟨d, h, sameName_self d⟩
  exact Option.isSome_iff_exists.mp hsome

theorem nodeAmong_of_find? {located : List Located} {d first : Located}
    (h : located.find? (sameName d) = some first) : nodeAmong located d = definitionNode first := by
  rw [nodeAmong, h, Option.getD_some]

/-- Definitions of other names in front do not change what represents a
definition. -/
theorem nodeAmong_append_right {others located : List Located} {d : Located}
    (h : ∀ a ∈ others, qualifiedName a.definition ≠ qualifiedName d.definition) :
    nodeAmong (others ++ located) d = nodeAmong located d := by
  have hmiss : others.find? (sameName d) = none := by
    refine List.find?_eq_none.mpr fun a ha hsame => ?_
    exact h a ha (beq_iff_eq.mp hsame).symm
  unfold nodeAmong
  rw [List.find?_append, hmiss, Option.none_or]

/-- Of every name the first definition is kept. -/
theorem mem_eraseDupsBy_of_find? {d first : Located} {located : List Located}
    (h : located.find? (sameName d) = some first) : first ∈ located.eraseDupsBy sameName := by
  induction located using eraseDupsBy_induction sameName with
  | nil => cases h
  | cons a rest ih =>
      rw [List.eraseDupsBy_cons]
      by_cases ha : sameName d a = true
      · rw [List.find?_cons_of_pos ha, Option.some.injEq] at h
        rw [h]
        exact List.mem_cons_self
      · rw [List.find?_cons_of_neg ha] at h
        refine List.mem_cons_of_mem a (ih ?_)
        -- what has the name of `d` has not the name of `a`
        rw [List.find?_filter, ← h]
        congr 1
        funext b
        by_cases hb : sameName d b = true
        · have hbd : qualifiedName d.definition = qualifiedName b.definition := beq_iff_eq.mp hb
          have hba : sameName b a = false := by
            rw [← sameName_congr hbd]
            exact Bool.eq_false_iff.mpr ha
          simp [hb, hba]
        · simp [hb]

theorem nodeAmong_mem_contribution {e : Extraction} {d : Located} (h : d ∈ e.located) :
    nodeAmong e.located d ∈ contribution e := by
  obtain ⟨first, hfirst⟩ := exists_find?_sameName h
  rw [nodeAmong_of_find? hfirst]
  exact List.mem_cons_of_mem _ (List.mem_map_of_mem (mem_eraseDupsBy_of_find? hfirst))

/-- The node that a reference leaves among other definitions: that of the
definition around it, or that of its file. -/
def nodeAround (all : List Located) (e : Extraction) (own : Option Nat) : CodeNode :=
  match own.bind (e.located[·]?) with
  | some d => nodeAmong all d
  | none => e.file

-- ===================================================================== uses

/-- The located definitions of some files, file after file. -/
def locatedIn (es : List Extraction) : List Located := es.flatMap Extraction.located

/-- A reference where it stands. -/
structure Use where
  /-- The files before its file. -/
  earlier : List Extraction
  file : Extraction
  reference : Reference
  /-- Position in its file of the definition around it. -/
  own : Option Nat

namespace Use

/-- The position among all definitions of the definition around a use. -/
def ownPosition (u : Use) : Option Nat := u.own.map ((locatedIn u.earlier).length + ·)

/-- The node that a use leaves: that of the definition around it, or that of
its file. -/
def sourceNode (u : Use) : CodeNode :=
  match u.own.bind (u.file.located[·]?) with
  | some d => nodeAmong u.file.located d
  | none => u.file.file

/-- The definition that a use is resolved to, out of all definitions. -/
def meaning? (all : List Located) (u : Use) : Option Located :=
  (Resolution.resolve (all.map (·.definition)) u.reference u.ownPosition).bind (all[·]?)

/-- A use leaves a node of its file. -/
theorem sourceNode_mem (u : Use) : u.sourceNode ∈ contribution u.file := by
  unfold sourceNode
  split
  next d h =>
    obtain ⟨i, -, hi⟩ := Option.bind_eq_some_iff.mp h
    exact nodeAmong_mem_contribution (List.mem_of_getElem? hi)
  next => exact List.mem_cons_self

end Use

/-- The references of a file, with the files before it. -/
def usesIn (earlier : List Extraction) (e : Extraction) : List Use :=
  e.references.map fun (r, own) => ⟨earlier, e, r, own⟩

def usesFrom (earlier : List Extraction) : List Extraction → List Use
  | [] => []
  | e :: rest => usesIn earlier e ++ usesFrom (earlier ++ [e]) rest

/-- All references of some files, file after file and tag after tag. -/
def uses (es : List Extraction) : List Use := usesFrom [] es

/-- The uses that can be resolved, with what they are resolved to. -/
def meanings (es : List Extraction) : List (Use × Located) :=
  (uses es).filterMap fun u => (u.meaning? (locatedIn es)).map (u, ·)

theorem usesFrom_concat (earlier es : List Extraction) (e : Extraction) :
    usesFrom earlier (es ++ [e]) = usesFrom earlier es ++ usesIn (earlier ++ es) e := by
  induction es generalizing earlier with
  | nil => simp [usesFrom]
  | cons a es ih =>
      rw [List.cons_append, usesFrom, usesFrom, ih, List.append_assoc, List.append_assoc]
      rfl

theorem uses_concat (es : List Extraction) (e : Extraction) :
    uses (es ++ [e]) = uses es ++ usesIn es e := usesFrom_concat [] es e

theorem locatedIn_concat (es : List Extraction) (e : Extraction) :
    locatedIn (es ++ [e]) = locatedIn es ++ e.located := by
  simp [locatedIn]

-- ================================================================ the table

/-- Entries at the same position are related, or there is none. -/
theorem rel_getElem? {α β : Type} {R : α → β → Prop} {as : List α} {bs : List β}
    (h : List.Forall₂ R as bs) (i : Nat) : Option.Rel R as[i]? bs[i]? := by
  induction h generalizing i with
  | nil => exact .none
  | cons hab _ ih =>
      cases i with
      | zero => exact .some hab
      | succ i => exact ih i

/-- The entry of a definition in the table: its node is that of the first
definition of its name. -/
def Stands (nodes : List CodeNode) (all : List Located) (p : Definition × Nat) (d : Located) :
    Prop :=
  p.1 = d.definition ∧ ∃ first, all.find? (sameName d) = some first
    ∧ nodes[p.2]? = some (definitionNode first)

/-- Further nodes and definitions at the end leave an entry alone. -/
theorem Stands.mono {nodes nodes' : List CodeNode} {all all' : List Located}
    {p : Definition × Nat} {d : Located} (h : Stands nodes all p d) (hnodes : nodes <+: nodes')
    (hall : all <+: all') : Stands nodes' all' p d := by
  obtain ⟨hdefinition, first, hfirst, hnode⟩ := h
  obtain ⟨moreNodes, rfl⟩ := hnodes
  obtain ⟨more, rfl⟩ := hall
  have hlt : p.2 < nodes.length := (List.getElem?_eq_some_iff.mp hnode).1
  refine ⟨hdefinition, first, ?_, ?_⟩
  · rw [List.find?_append, hfirst, Option.some_or]
  · rw [List.getElem?_append_left hlt, hnode]

theorem Stands.node {nodes : List CodeNode} {all : List Located} {p : Definition × Nat}
    {d : Located} (h : Stands nodes all p d) : nodes[p.2]? = some (nodeAmong all d) := by
  obtain ⟨-, first, hfirst, hnode⟩ := h
  rw [hnode, nodeAmong_of_find? hfirst]

namespace Draft

/-- Every definition is kept with the position of the node that represents
it. -/
def Placed (draft : Draft) (all : List Located) : Prop :=
  List.Forall₂ (Stands draft.nodes all) draft.definitions all

section Placed

variable {draft : Draft} {all : List Located}

theorem Placed.definitions_eq (h : draft.Placed all) :
    draft.definitions.map (·.1) = all.map (·.definition) := by
  rw [← List.forall₂_eq_eq_eq, List.forall₂_map_left_iff, List.forall₂_map_right_iff]
  exact h.imp fun p d hstands => hstands.1

theorem Placed.known_eq (h : draft.Placed all) : draft.known = namesOf all := by
  have hnames := congrArg (List.map qualifiedName) h.definitions_eq
  rw [List.map_map, List.map_map] at hnames
  exact hnames

/-- A definition is represented by the first one of its name, which may be
itself. The node of that one is there already or is added. -/
theorem Placed.addDefinition (h : draft.Placed all) (d : Located) :
    (draft.addDefinition d).Placed (all ++ [d]) := by
  have hnodes := nodes_addDefinition draft d
  have hold : List.Forall₂ (Stands (draft.addDefinition d).nodes (all ++ [d]))
      draft.definitions all :=
    h.imp fun p a hstands => hstands.mono hnodes (List.prefix_append _ _)
  unfold Placed
  revert hold
  unfold Draft.addDefinition
  split
  next place hknown =>
    intro hold
    refine List.rel_append hold (.cons ?_ .nil)
    obtain ⟨p, hfound, rfl⟩ := Option.map_eq_some_iff.mp hknown
    have hname : qualifiedName p.1 = qualifiedName d.definition := by
      simpa using List.find?_some hfound
    -- the entry that was found belongs to a definition of the same name
    obtain ⟨i, hp⟩ := List.mem_iff_getElem?.mp (List.mem_of_find?_eq_some hfound)
    have hentry := rel_getElem? hold i
    rw [hp] at hentry
    generalize all[i]? = a at hentry
    cases hentry with
    | some hstands =>
        obtain ⟨hdefinition, first, hfirst, hnode⟩ := hstands
        refine ⟨rfl, first, ?_, hnode⟩
        rw [← hfirst]
        congr 1
        exact sameName_congr (by rw [← hdefinition, hname])
  next hunknown =>
    intro hold
    refine List.rel_append hold (.cons ⟨rfl, d, ?_, by simp⟩ .nil)
    have hnew : qualifiedName d.definition ∉ namesOf all := by
      rw [← h.known_eq]
      exact nodeOf?_eq_none_iff.mp hunknown
    have hmiss : all.find? (sameName d) = none := by
      refine List.find?_eq_none.mpr fun a ha hsame => hnew ?_
      rw [beq_iff_eq.mp hsame]
      exact List.mem_map_of_mem ha
    rw [List.find?_append, hmiss, Option.none_or, List.find?_cons_of_pos (sameName_self d)]

/-- The loop over the definitions of a file places them all. -/
theorem Placed.addDefinitions (located : List Located) :
    ∀ {draft : Draft} {all : List Located}, draft.Placed all →
      (located.foldl Draft.addDefinition draft).Placed (all ++ located) := by
  induction located with
  | nil =>
      intro draft all h
      rwa [List.append_nil]
  | cons d rest ih =>
      intro draft all h
      have hrest := ih (h.addDefinition d)
      rwa [List.append_assoc] at hrest

end Placed

/-- The loop adds one node for each name that is not in the table yet. -/
theorem nodes_addDefinitions (located : List Located) :
    ∀ draft : Draft, (located.foldl Draft.addDefinition draft).nodes
      = draft.nodes ++ ((located.filter fun d =>
          decide (qualifiedName d.definition ∉ draft.known)).eraseDupsBy sameName).map
            definitionNode := by
  induction located with
  | nil =>
      intro draft
      simp
  | cons d rest ih =>
      intro draft
      rw [List.foldl_cons, ih, known_addDefinition]
      by_cases hknown : qualifiedName d.definition ∈ draft.known
      · -- the definition adds no node, and its name says nothing new
        have hnodes : (draft.addDefinition d).nodes = draft.nodes := by
          unfold Draft.addDefinition
          split
          next => rfl
          next hnew => exact absurd hknown (nodeOf?_eq_none_iff.mp hnew)
        rw [hnodes, List.filter_cons_of_neg (by simpa using hknown)]
        congr 3
        refine List.filter_congr fun a _ => decide_eq_decide.mpr (not_congr ?_)
        rw [List.mem_append, List.mem_singleton]
        constructor
        · rintro (h | h)
          · exact h
          · rwa [h]
        · exact .inl
      · have hnodes : (draft.addDefinition d).nodes = draft.nodes ++ [definitionNode d] := by
          unfold Draft.addDefinition
          rw [nodeOf?_eq_none_iff.mpr hknown]
        rw [hnodes, List.filter_cons_of_pos (by simpa using hknown), List.eraseDupsBy_cons,
          List.filter_filter, List.map_cons, List.append_assoc, List.singleton_append]
        congr 4
        refine List.filter_congr fun a _ => ?_
        simp only [List.mem_append, List.mem_singleton, sameName, not_or, Bool.decide_and,
          beq_eq_false_iff_ne, ne_eq, decide_not, Bool.and_comm]

-- ================================================================ the files

/-- A reference waits at its node, with the position of the definition around
it. -/
def Awaits (nodes : List CodeNode) (p : Pending) (u : Use) : Prop :=
  p.reference = u.reference ∧ p.own = u.ownPosition ∧ nodes[p.source]? = some u.sourceNode

/-- What a draft holds after some files. -/
structure Joined (es : List Extraction) (draft : Draft) : Prop where
  nodes : draft.nodes = es.flatMap contribution
  placed : draft.Placed (locatedIn es)
  pending : List.Forall₂ (Awaits draft.nodes) draft.pending (uses es)

/-- The node found for a reference: the definitions of its file follow those of
the earlier files. -/
theorem Placed.node_around {draft : Draft} {earlier : List Located} {e : Extraction} {file : Nat}
    (h : draft.Placed (earlier ++ e.located)) (hfile : draft.nodes[file]? = some e.file)
    (own : Option Nat) :
    draft.nodes[((own.map (earlier.length + ·)).bind fun i =>
        (draft.definitions[i]?).map (·.2)).getD file]?
      = some (nodeAround (earlier ++ e.located) e own) := by
  unfold nodeAround
  cases own with
  | none => exact hfile
  | some i =>
      have hentry := rel_getElem? h (earlier.length + i)
      rw [List.getElem?_append_right (Nat.le_add_right _ _), Nat.add_sub_cancel_left] at hentry
      rw [Option.map_some, Option.bind_some, Option.bind_some]
      cases hlocal : e.located[i]? with
      | none =>
          rw [hlocal] at hentry
          generalize draft.definitions[earlier.length + i]? = p at hentry ⊢
          cases hentry
          exact hfile
      | some d =>
          rw [hlocal] at hentry
          generalize draft.definitions[earlier.length + i]? = p at hentry ⊢
          cases hentry with
          | some hstands => rw [Option.map_some, Option.getD_some, hstands.node]

/-- The node found for a use is the one it leaves, if none of the definitions of
its file is represented in an earlier file. -/
theorem Placed.node_source {draft : Draft} (u : Use) {file : Nat}
    (h : draft.Placed (locatedIn u.earlier ++ u.file.located))
    (hnew : NamesDisjoint (locatedIn u.earlier) u.file.located)
    (hfile : draft.nodes[file]? = some u.file.file) :
    draft.nodes[(u.ownPosition.bind fun i => (draft.definitions[i]?).map (·.2)).getD file]?
      = some u.sourceNode := by
  refine (h.node_around hfile u.own).trans (congrArg some ?_)
  unfold nodeAround Use.sourceNode
  split
  next d hlocal =>
    obtain ⟨i, -, hi⟩ := Option.bind_eq_some_iff.mp hlocal
    exact nodeAmong_append_right fun a ha => hnew a ha d (List.mem_of_getElem? hi)
  next => rfl

/-- The definitions of one file more are placed behind the others. -/
theorem Placed.addFile {draft : Draft} {all : List Located} (h : draft.Placed all)
    (e : Extraction) : (draft.addFile e).Placed (all ++ e.located) := by
  have hstart : ({ draft with nodes := draft.nodes ++ [e.file] } : Draft).Placed all :=
    h.imp fun p d hstands => hstands.mono (List.prefix_append _ _) (List.prefix_refl _)
  exact hstart.addDefinitions e.located

/-- One file more, with definitions of new names. -/
theorem Joined.addFile {es : List Extraction} {draft : Draft} (h : Joined es draft)
    {e : Extraction} (hnew : NamesDisjoint (locatedIn es) e.located) :
    Joined (es ++ [e]) (draft.addFile e) := by
  have hfilled := h.placed.addFile e
  have hnodes : (draft.addFile e).nodes = draft.nodes ++ contribution e := by
    have hkept : (e.located.filter fun d =>
        decide (qualifiedName d.definition ∉ draft.known)) = e.located := by
      refine List.filter_eq_self.mpr fun d hd => decide_eq_true ?_
      rw [h.placed.known_eq]
      intro hmem
      obtain ⟨a, ha, hname⟩ := List.mem_map.mp hmem
      exact hnew a ha d hd hname
    refine (nodes_addDefinitions e.located
      { draft with nodes := draft.nodes ++ [e.file] }).trans ?_
    show draft.nodes ++ [e.file] ++ ((e.located.filter fun d =>
      decide (qualifiedName d.definition ∉ draft.known)).eraseDupsBy sameName).map definitionNode = _
    rw [hkept, List.append_assoc]
    rfl
  refine ⟨?_, ?_, ?_⟩
  · rw [hnodes, h.nodes, List.flatMap_append, List.flatMap_singleton]
  · rw [locatedIn_concat]
    exact hfilled
  · rw [uses_concat]
    refine List.rel_append (h.pending.imp fun p u hawaits => ?_) ?_
    · obtain ⟨hreference, hown, hsource⟩ := hawaits
      have hlt : p.source < draft.nodes.length := (List.getElem?_eq_some_iff.mp hsource).1
      refine ⟨hreference, hown, ?_⟩
      rw [hnodes, List.getElem?_append_left hlt, hsource]
    · unfold usesIn
      rw [List.forall₂_map_left_iff, List.forall₂_map_right_iff, List.forall₂_same]
      rintro ⟨r, own⟩ -
      have hfile : (draft.addFile e).nodes[draft.nodes.length]? = some e.file := by
        rw [hnodes, List.getElem?_append_right (Nat.le_refl _), Nat.sub_self]
        rfl
      have hown : own.map (draft.definitions.length + ·) = (⟨es, e, r, own⟩ : Use).ownPosition := by
        rw [h.placed.length_eq]
        rfl
      refine ⟨rfl, hown, ?_⟩
      dsimp only
      rw [hown]
      exact Placed.node_source ⟨es, e, r, own⟩ hfilled hnew hfile

/-- All files, if no two of them have definitions of the same name. -/
theorem Joined.run {rest : List Extraction} :
    ∀ {es : List Extraction} {draft : Draft}, Joined es draft →
      (es ++ rest).Pairwise (fun a b => NamesDisjoint a.located b.located) →
      Joined (es ++ rest) (rest.foldl Draft.addFile draft) := by
  induction rest with
  | nil =>
      intro es draft h _
      rwa [List.append_nil]
  | cons e rest ih =>
      intro es draft h hapart
      have hnew : NamesDisjoint (locatedIn es) e.located := by
        intro a ha d hd
        obtain ⟨b, hb, hab⟩ := List.mem_flatMap.mp ha
        exact (List.pairwise_append.mp hapart).2.2 b hb e (by simp) a hab d hd
      have hsplit : es ++ e :: rest = (es ++ [e]) ++ rest := by simp
      rw [hsplit] at hapart ⊢
      exact ih (h.addFile hnew) hapart

theorem joined_empty : Joined [] {} := ⟨rfl, .nil, .nil⟩

end Draft

-- ================================================================ the edges

/-- An edge for a use that is resolved: it leads from the node the use leaves,
in the file of the use, to the node that represents what is meant, and carries
the name and the rows of that node. -/
structure Realizes (g : CodeGraph) (all : List Located) (edge : CodeEdge) (m : Use × Located) :
    Prop where
  source : g.nodes[edge.source]? = some m.1.sourceNode
  sourceFile : m.1.sourceNode ∈ contribution m.1.file
  target : g.nodes[edge.target]? = some (nodeAmong all m.2)
  targetName : (nodeAmong all m.2).name = edge.name
  defSpan : (nodeAmong all m.2).span = some edge.defSpan
  name : edge.name = m.1.reference.name
  relationship : edge.relationship = m.1.reference.tagType
  refSpan : edge.refSpan = m.1.reference.span

/-- Resolving a pending reference gives the edge for its use, if there is
one. -/
theorem Draft.Joined.edge? {es : List Extraction} {draft : Draft} (h : Joined es draft)
    (hnames : ∀ a ∈ locatedIn es, ∀ b ∈ locatedIn es,
      qualifiedName a.definition = qualifiedName b.definition →
      a.definition.name = b.definition.name)
    {p : Pending} {u : Use} (hawaits : Awaits draft.nodes p u) :
    Option.Rel (Realizes draft.graph (locatedIn es)) (draft.edge? p)
      ((u.meaning? (locatedIn es)).map (u, ·)) := by
  obtain ⟨hreference, hown, hsource⟩ := hawaits
  unfold Draft.edge? Use.meaning?
  rw [h.placed.definitions_eq, hreference, hown]
  cases hresolve : Resolution.resolve ((locatedIn es).map (·.definition)) u.reference
      u.ownPosition with
  | none => exact .none
  | some i =>
      obtain ⟨definition, hat, hname⟩ := Resolution.named_of_resolve hresolve
      rw [List.getElem?_map, Option.map_eq_some_iff] at hat
      obtain ⟨d, hd, rfl⟩ := hat
      have hentry := rel_getElem? h.placed i
      rw [hd] at hentry
      simp only [bind, Option.bind_some, hd, Option.map_some]
      generalize draft.definitions[i]? = entry at hentry ⊢
      cases hentry with
      | some hstands =>
          have hnode := hstands.node
          obtain ⟨-, first, hfirst, -⟩ := hstands
          have hall : nodeAmong (locatedIn es) d = definitionNode first := nodeAmong_of_find? hfirst
          have hmem : d ∈ locatedIn es := List.mem_of_getElem? hd
          have hfound : sameName d first = true := List.find?_some hfirst
          have hsame : qualifiedName d.definition = qualifiedName first.definition :=
            beq_iff_eq.mp hfound
          have htarget : first.definition.name = u.reference.name := by
            rw [← hname, hnames d hmem first (List.mem_of_find?_eq_some hfirst) hsame]
          refine .some ⟨hsource, u.sourceNode_mem, hnode, ?_, ?_, rfl, rfl, rfl⟩
          · rw [hall]
            exact htarget
          · dsimp only
            rw [hnode, hall]
            rfl

-- ================================================================ the graph

/-- No two files have definitions of the same qualified name. -/
def NamesDiffer (files : List SourceFile) : Prop :=
  files.Pairwise fun f g => NamesDisjoint (extract f).located (extract g).located

instance (as bs : List Located) : Decidable (NamesDisjoint as bs) :=
  inferInstanceAs (Decidable (∀ a ∈ as, ∀ b ∈ bs, _))

instance (files : List SourceFile) : Decidable (NamesDiffer files) :=
  inferInstanceAs (Decidable (files.Pairwise _))

instance : Std.Symm fun f g => NamesDisjoint (extract f).located (extract g).located :=
  ⟨fun _ _ h => h.symm⟩

/-- No located definition has a dot in its name. -/
def NamesDotless (files : List SourceFile) : Prop :=
  ∀ f ∈ files, ∀ d ∈ (extract f).located, '.' ∉ d.definition.name.toList

instance (files : List SourceFile) : Decidable (NamesDotless files) :=
  inferInstanceAs (Decidable (∀ f ∈ files, _))

/-- The files in path order. -/
def sortedFiles (files : List SourceFile) : List SourceFile :=
  files.mergeSort fun f g => (f.path.order g.path).isLE

theorem ordered_eq_map (files : List SourceFile) :
    ordered files = (sortedFiles files).map extract := by
  refine (List.map_mergeSort fun f _ g _ => ?_).symm
  rw [file_extract, file_extract]
  rfl

/-- Distinct paths are in strict order. -/
theorem pairwise_sortedFiles {files : List SourceFile}
    (hpaths : (files.map fun f => f.path.components).Nodup) :
    (sortedFiles files).Pairwise fun f g => f.path.order g.path = .lt := by
  have hle : (sortedFiles files).Pairwise fun f g => (f.path.order g.path).isLE :=
    pairwise_sort SourceFile.path files
  have hne : (sortedFiles files).Pairwise fun f g => f.path.components ≠ g.path.components := by
    rw [← List.pairwise_map (f := fun f : SourceFile => f.path.components)]
    exact ((List.mergeSort_perm files _).map _).nodup_iff.mpr hpaths
  refine (hle.and hne).imp fun {f g} h => ?_
  cases horder : f.path.order g.path with
  | lt => rfl
  | eq => exact absurd (Path.order_eq_eq_iff.mp horder) h.2
  | gt =>
      rw [horder] at h
      exact absurd h.1 (by decide)

/-- In files that share no qualified name, a qualified name decides the
name. -/
theorem name_eq_of_located {files : List SourceFile} (hdiffer : NamesDiffer files)
    (hdotless : NamesDotless files) {a b : Located}
    (ha : a ∈ locatedIn (files.map extract)) (hb : b ∈ locatedIn (files.map extract))
    (h : qualifiedName a.definition = qualifiedName b.definition) :
    a.definition.name = b.definition.name := by
  obtain ⟨e, he, hae⟩ := List.mem_flatMap.mp ha
  obtain ⟨f, hf, rfl⟩ := List.mem_map.mp he
  obtain ⟨e', he', hbe⟩ := List.mem_flatMap.mp hb
  obtain ⟨g, hg, rfl⟩ := List.mem_map.mp he'
  by_cases hfg : f = g
  · subst hfg
    refine name_eq_of_qualifiedName ?_ (hdotless f hf a hae) (hdotless f hf b hbe) h
    rw [path_of_mem_located hae, path_of_mem_located hbe]
  · have hapart : NamesDisjoint (extract f).located (extract g).located :=
      List.Pairwise.forall hdiffer hf hg hfg
    exact absurd h (hapart a hae b hbe)

/-- A code graph holds exactly what its files call for.

The nodes are, for each file in path order, those that the file contributes:
its own, and one for each qualified name among its located definitions, made
from the first definition of the name. The edges are, in the order of files
and tags, one for each use that is resolved. It leaves the node of the
innermost located definition around the use, or of the file if there is none,
and arrives at the node of the definition that is meant. -/
theorem build_holds_contributions {files : List SourceFile}
    (hpaths : (files.map fun f => f.path.components).Nodup) (hdiffer : NamesDiffer files)
    (hdotless : NamesDotless files) :
    ∃ sorted : List SourceFile, sorted.Perm files
      ∧ sorted.Pairwise (fun f g => f.path.order g.path = .lt)
      ∧ (∀ f ∈ sorted, Reads f (extract f))
      ∧ (build files).nodes = (sorted.map extract).flatMap contribution
      ∧ List.Forall₂ (Realizes (build files) (locatedIn (sorted.map extract)))
          (build files).edges (meanings (sorted.map extract)) := by
  have hperm : (sortedFiles files).Perm files := List.mergeSort_perm files _
  have hsorted : NamesDiffer (sortedFiles files) :=
    (hperm.pairwise_iff fun h => NamesDisjoint.symm h).mpr hdiffer
  have hsortedDotless : NamesDotless (sortedFiles files) :=
    fun f hf => hdotless f (hperm.subset hf)
  have hjoined := Draft.joined_empty.run (List.pairwise_map.mpr hsorted)
  rw [List.nil_append, ← ordered_eq_map] at hjoined
  have hbuild : build files = ((ordered files).foldl Draft.addFile {}).graph := rfl
  refine ⟨sortedFiles files, hperm, pairwise_sortedFiles hpaths,
    fun f _ => reads_extract f, ?_, ?_⟩
  · rw [hbuild, ← ordered_eq_map]
    exact hjoined.nodes
  · rw [hbuild, ← ordered_eq_map]
    refine List.rel_filterMap (fun p u hawaits => ?_) hjoined.pending
    refine hjoined.edge? (fun a ha b hb hname => ?_) hawaits
    rw [ordered_eq_map] at ha hb
    exact name_eq_of_located hsorted hsortedDotless ha hb hname

/-- A function that is defined twice, and another that the second definition
uses. -/
def contributingFiles : List SourceFile :=
  [⟨⟨"b.py"⟩, ⟨"/r/b.py"⟩, .python, "def g():\n    pass\n"⟩,
    ⟨⟨"a.py"⟩, ⟨"/r/a.py"⟩, .python, "def f():\n    pass\ndef f():\n    g()\n"⟩]

/-- The two definitions share a node, which the edge of the use leaves. -/
theorem build_holds_contributions_sample :
    (contributingFiles.map fun f => f.path.components).Nodup ∧ NamesDiffer contributingFiles
      ∧ NamesDotless contributingFiles
      ∧ ((contributingFiles.map extract).map fun e => e.located.length) = [1, 2]
      ∧ ((build contributingFiles).nodes.map (·.qualified)) = ["a.py", "a.py:f", "b.py", "b.py:g"]
      ∧ ((build contributingFiles).edges.map fun edge =>
          (((build contributingFiles).nodes[edge.source]?).map (·.qualified),
            ((build contributingFiles).nodes[edge.target]?).map (·.qualified), edge.name))
        = [(some "a.py:f", some "b.py:g", "g")] := by
  have hpaths : (contributingFiles.map fun f => f.path.components).Nodup := by decide +kernel
  have hdiffer : NamesDiffer contributingFiles := by decide +kernel
  have hdotless : NamesDotless contributingFiles := by decide +kernel
  obtain ⟨sorted, hperm, hsorted, -, hnodes, hedges⟩ :=
    build_holds_contributions hpaths hdiffer hdotless
  obtain rfl : sorted = contributingFiles.reverse :=
    eq_of_pairwise_lt hsorted (by decide +kernel) fun f => by
      rw [hperm.mem_iff, List.mem_reverse]
  refine ⟨hpaths, hdiffer, hdotless, by decide +kernel, ?_, ?_⟩
  · rw [hnodes]
    decide +kernel
  · generalize hall : locatedIn (contributingFiles.reverse.map extract) = all at hedges
    have hends : ((build contributingFiles).edges.map fun edge =>
          (((build contributingFiles).nodes[edge.source]?).map (·.qualified),
            ((build contributingFiles).nodes[edge.target]?).map (·.qualified), edge.name))
        = (meanings (contributingFiles.reverse.map extract)).map fun m =>
          (some m.1.sourceNode.qualified, some (nodeAmong all m.2).qualified,
            m.1.reference.name) := by
      rw [← List.forall₂_eq_eq_eq, List.forall₂_map_left_iff, List.forall₂_map_right_iff]
      refine hedges.imp fun edge m h => ?_
      rw [h.source, h.target, h.name]
      rfl
    rw [hends, ← hall]
    decide +kernel

end CodeMap.CodeGraph
