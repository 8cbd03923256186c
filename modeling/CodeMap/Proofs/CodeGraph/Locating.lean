/-
The function or class that is located for a definition, and the definition's name.

# The rule

Three searches look for the node, and the first one that finds something decides
(`Chosen`, `structuralNode?_eq_some_iff`): up from the name for a node of the
right kinds that starts on the row of the name; down from the parent of the name
for one that does; and up from the name for any node of the right kinds. The
second is a search from a stack and finds the first such node in pre-order,
because trees are laid out with rows in order.

# What follows

A node that starts on the name's row holds this row, and so does any node around
the name. The latter takes an argument, as the name node is found by bytes: it
covers the bytes of the definition, whatever is around it covers them as well,
and rows go along with bytes (`contains_of_covers`). Since the bytes of all nodes
are boundaries of characters, the located node has a text, so nothing is located
only if none of the searches finds a node (`structuralNode?_eq_none_iff`).
-/
import CodeMap.CodeGraph
import CodeMap.Proofs.Syntax.Extents
import CodeMap.Proofs.Text.Slices

namespace CodeMap

open Syntax Syntax.Tree

-- ============================================================== vocabulary

/-- A node and its ancestors, innermost first. -/
def Syntax.Visit.wayUp (v : Visit) : List Tree := v.node :: v.ancestors

namespace CodeGraph

/-- A definition whose name is a node of a tree. -/
structure NamedAt (d : Definition) (v : Visit) : Prop where
  bytes : d.bytes = (v.node.extent.start.byte, v.node.extent.stop.byte)
  rows : d.span = nodeSpan v.node

/-- The innermost node around the name of a definition: the one that the bytes of
the name lead to. It covers them and lies, if there are any, at or below every node
that does. -/
structure IsNameNode (tree : Tree) (d : Definition) (name : Visit) : Prop where
  found : innermost? tree.visits d.bytes.1 d.bytes.2 = some name
  visited : name ∈ tree.visits
  covers : name.node.extent.spans d.bytes.1 d.bytes.2 = true
  innermost : d.bytes.1 < d.bytes.2 → ∀ v ∈ tree.visits,
    v.node.extent.spans d.bytes.1 d.bytes.2 = true → name ∈ visitsFrom v.place v.ancestors v.node

/-- The node of a definition: the first one on the way up from its name that is
wanted; else the first one at or below the parent of the name that is; else the
first one on the way up of the right kinds. -/
inductive Chosen (kinds : List String) (row : Nat) (name : Visit) (node : Tree) : Prop where
  | starting (h : firstWanted? kinds row name.wayUp = some node)
  | beside {parent : Tree} (hup : ∀ t ∈ name.wayUp, ¬ Wanted kinds row t)
      (hparent : name.ancestors.head? = some parent)
      (h : firstWanted? kinds row parent.nodes = some node)
  | around (hup : ∀ t ∈ name.wayUp, ¬ Wanted kinds row t)
      (hbeside : ∀ parent ∈ name.ancestors.head?, ∀ t ∈ parent.nodes, ¬ Wanted kinds row t)
      (h : name.wayUp.find? (fun t => decide (t.kind ∈ kinds)) = some node)

/-- A located definition as the text, the rows and the kind of a node. -/
structure Describes (l : Language) (content : String) (category : Category) (node : Tree)
    (found : Located) : Prop where
  kind : node.kind ∈ l.kindsOf category
  nodeKind : found.kind = .ofCategory category
  source : ∃ before after, content = before ++ found.source ++ after
    ∧ before.utf8ByteSize = node.extent.start.byte
    ∧ node.extent.start.byte + found.source.utf8ByteSize = node.extent.stop.byte
  first : found.span.first = node.startRow
  last : found.span.last = node.stopRow

-- ================================================================ searches

section

variable {kinds : List String} {row : Nat} {name : Visit} {node : Tree}

/-- The three searches, one after the other. -/
theorem structuralNode?_eq (kinds : List String) (row : Nat) (name : Visit) :
    structuralNode? kinds row name
      = (firstWanted? kinds row name.wayUp).or
        ((name.ancestors.head?.bind (firstStartingOn? kinds row)).or
          (name.wayUp.find? fun t => decide (t.kind ∈ kinds))) := by
  have hup : (((name.node :: name.ancestors).filter fun t => kinds.contains t.kind).find?
      fun t => t.startRow == row) = firstWanted? kinds row name.wayUp := by
    rw [List.find?_filter]
    unfold firstWanted?
    congr 1
    funext t
    refine decide_eq_decide.mpr ?_
    rw [List.contains_iff_mem, beq_iff_eq]
    rfl
  have haround : ((name.node :: name.ancestors).filter fun t => kinds.contains t.kind).head?
      = name.wayUp.find? fun t => decide (t.kind ∈ kinds) := by
    rw [List.head?_filter]
    simp only [List.contains_eq_mem]
    rfl
  unfold structuralNode?
  dsimp only
  rw [hup]
  cases firstWanted? kinds row name.wayUp with
  | some t => rfl
  | none =>
      rw [Option.none_or]
      cases name.ancestors.head?.bind (firstStartingOn? kinds row) with
      | some t => rfl
      | none => exact haround

theorem structuralNode?_eq_some_iff (hordered : ∀ t ∈ name.ancestors, t.StartsInOrder) :
    structuralNode? kinds row name = some node ↔ Chosen kinds row name node := by
  rw [structuralNode?_eq]
  constructor
  · intro h
    cases hup : firstWanted? kinds row name.wayUp with
    | some t =>
        rw [hup] at h
        exact .starting (hup.trans h)
    | none =>
        have hnone := firstWanted?_eq_none_iff.mp hup
        rw [hup, Option.none_or] at h
        cases hparent : name.ancestors.head? with
        | none =>
            rw [hparent] at h
            refine .around hnone (fun parent hp => ?_) h
            rw [hparent] at hp
            cases hp
        | some parent =>
            have hbelow := firstStartingOn?_eq kinds row
              (hordered parent (List.mem_of_mem_head? hparent))
            rw [hparent, Option.bind_some, hbelow] at h
            cases hbeside : firstWanted? kinds row parent.nodes with
            | some t =>
                rw [hbeside] at h
                exact .beside hnone hparent (hbeside.trans h)
            | none =>
                rw [hbeside, Option.none_or] at h
                refine .around hnone (fun p hp => ?_) h
                rw [hparent] at hp
                obtain rfl : parent = p := Option.some.inj hp
                exact firstWanted?_eq_none_iff.mp hbeside
  · intro h
    cases h with
    | starting h => rw [h, Option.some_or]
    | @beside parent hup hparent h =>
        have hbelow := firstStartingOn?_eq kinds row
          (hordered parent (List.mem_of_mem_head? hparent))
        rw [firstWanted?_eq_none_iff.mpr hup, Option.none_or, hparent, Option.bind_some, hbelow, h,
          Option.some_or]
    | around hup hbeside h =>
        have hnone : name.ancestors.head?.bind (firstStartingOn? kinds row) = none := by
          refine Option.bind_eq_none_iff.mpr fun parent hparent => ?_
          rw [firstStartingOn?_eq kinds row (hordered parent (List.mem_of_mem_head? hparent))]
          exact firstWanted?_eq_none_iff.mpr (hbeside parent hparent)
        rw [firstWanted?_eq_none_iff.mpr hup, Option.none_or, hnone, Option.none_or, h]

theorem structuralNode?_eq_none_iff (hordered : ∀ t ∈ name.ancestors, t.StartsInOrder) :
    structuralNode? kinds row name = none ↔ (∀ t ∈ name.wayUp, t.kind ∉ kinds)
      ∧ ∀ parent ∈ name.ancestors.head?, ∀ t ∈ parent.nodes, ¬ Wanted kinds row t := by
  rw [structuralNode?_eq, Option.or_eq_none_iff, Option.or_eq_none_iff]
  constructor
  · intro h
    obtain ⟨-, hbeside, haround⟩ := h
    refine ⟨fun t ht => ?_, fun parent hparent => ?_⟩
    · have hkind := List.find?_eq_none.mp haround t ht
      rwa [decide_eq_true_eq] at hkind
    · have hnone := Option.bind_eq_none_iff.mp hbeside parent hparent
      rw [firstStartingOn?_eq kinds row (hordered parent (List.mem_of_mem_head? hparent))] at hnone
      exact firstWanted?_eq_none_iff.mp hnone
  · intro h
    obtain ⟨hkinds, hbeside⟩ := h
    refine ⟨?_, ?_, ?_⟩
    · exact firstWanted?_eq_none_iff.mpr fun t ht hwanted => hkinds t ht hwanted.1
    · refine Option.bind_eq_none_iff.mpr fun parent hparent => ?_
      rw [firstStartingOn?_eq kinds row (hordered parent (List.mem_of_mem_head? hparent))]
      exact firstWanted?_eq_none_iff.mpr (hbeside parent hparent)
    · refine List.find?_eq_none.mpr fun t ht => ?_
      rw [decide_eq_true_eq]
      exact hkinds t ht

/-- The chosen node is of the right kinds, and it starts on the row or lies around
the name. -/
theorem Chosen.kind_and_place (h : Chosen kinds row name node) :
    node.kind ∈ kinds ∧ (node.startRow = row ∨ node ∈ name.wayUp) := by
  cases h with
  | starting h =>
      obtain ⟨-, hkind, hrow⟩ := wanted_of_firstWanted? h
      exact ⟨hkind, .inl hrow⟩
  | beside hup hparent h =>
      obtain ⟨-, hkind, hrow⟩ := wanted_of_firstWanted? h
      exact ⟨hkind, .inl hrow⟩
  | around hup hbeside h =>
      have hkind := List.find?_some h
      exact ⟨of_decide_eq_true hkind, .inr (List.mem_of_find?_eq_some h)⟩

/-- If a wanted node lies around the name, then the first one on the way up is
chosen. -/
theorem Chosen.eq_first (h : Chosen kinds row name node)
    (hup : ∃ t ∈ name.wayUp, Wanted kinds row t) :
    firstWanted? kinds row name.wayUp = some node := by
  obtain ⟨t, ht, hwanted⟩ := hup
  cases h with
  | starting h => exact h
  | beside hup => exact absurd hwanted (hup t ht)
  | around hup => exact absurd hwanted (hup t ht)

theorem Chosen.mem_nodes {tree : Tree} (h : Chosen kinds row name node)
    (hname : name ∈ tree.visits) : node ∈ tree.nodes := by
  have hway : ∀ t ∈ name.wayUp, t ∈ tree.nodes := fun t ht =>
    (around_of_mem_visits hname t ht).1
  cases h with
  | starting h => exact hway node (wanted_of_firstWanted? h).1
  | beside hup hparent h =>
      have hmem := hway _ (List.mem_cons_of_mem _ (List.mem_of_mem_head? hparent))
      exact mem_nodes_trans hmem (wanted_of_firstWanted? h).1
  | around hup hbeside h => exact hway node (List.mem_of_find?_eq_some h)

end

-- =================================================================== names

/-- The name of a definition has an innermost node around it. -/
theorem exists_isNameNode {rowAt : Nat → Nat} {tree : Tree} (htree : tree.LaidOut rowAt)
    {d : Definition} {named : Visit} (hnamed : named ∈ tree.visits) (hd : NamedAt d named) :
    ∃ name, IsNameNode tree d name := by
  have hcover : named.node.extent.spans d.bytes.1 d.bytes.2 = true := by
    rw [hd.bytes]
    exact Extent.spans_iff.mpr ⟨Nat.le_refl _, Nat.le_refl _⟩
  obtain ⟨name, hvisit, hname, hcovers⟩ := exists_innermost? hnamed hcover
  exact ⟨name, hname, hvisit, hcovers, fun hlt v hv => innermost?_below hlt htree hname hv⟩

/-- A node without children that names a definition is its name node. -/
theorem IsNameNode.eq_of_leaf {tree : Tree} {d : Definition} {named name : Visit}
    (h : IsNameNode tree d name) (hnamed : named ∈ tree.visits) (hd : NamedAt d named)
    (hlt : d.bytes.1 < d.bytes.2) (hleaf : named.node.children = []) : name = named := by
  have hcover : named.node.extent.spans d.bytes.1 d.bytes.2 = true := by
    rw [hd.bytes]
    exact Extent.spans_iff.mpr ⟨Nat.le_refl _, Nat.le_refl _⟩
  have hbelow := h.innermost hlt named hnamed hcover
  obtain ⟨⟨k, f, e, cs⟩, place, ancestors⟩ := named
  obtain rfl : cs = [] := hleaf
  exact List.mem_singleton.mp hbelow

/-- A node that covers a byte holds the row of the byte. -/
theorem contains_of_covers {rowAt : Nat → Nat} (hrows : Monotone rowAt) {node : Tree}
    (hnode : node.LaidOut rowAt) {byte : Nat} (hstart : node.extent.start.byte ≤ byte)
    (hstop : byte ≤ node.extent.stop.byte) : (nodeSpan node).contains (rowAt byte) = true := by
  refine LineSpan.contains_iff.mpr ⟨?_, ?_⟩
  · show node.startRow ≤ rowAt byte
    rw [hnode.startRow_eq]
    exact hrows hstart
  · refine Nat.le_trans ?_ (Nat.le_max_right node.startRow node.stopRow)
    rw [hnode.stopRow_eq]
    exact hrows hstop

/-- The chosen node holds the row of the name. -/
theorem Chosen.contains_row {rowAt : Nat → Nat} (hrows : Monotone rowAt) {tree : Tree}
    (htree : tree.LaidOut rowAt) {d : Definition} {named name : Visit}
    (hnamed : named ∈ tree.visits) (hd : NamedAt d named) (hname : IsNameNode tree d name)
    {kinds : List String} {node : Tree} (h : Chosen kinds d.span.first name node) :
    (nodeSpan node).contains d.span.first = true := by
  rcases h.kind_and_place.2 with hrow | hway
  · refine LineSpan.contains_iff.mpr ⟨Nat.le_of_eq hrow, ?_⟩
    exact Nat.le_trans (Nat.le_of_eq hrow.symm) (Nat.le_max_left node.startRow node.stopRow)
  · obtain ⟨hmem, hinside⟩ := around_of_mem_visits hname.visited node hway
    have hnode := (htree.of_mem_nodes node hmem).1
    have hlaid := (htree.of_mem_nodes named.node (node_mem_of_mem_visitsFrom hnamed)).1
    obtain ⟨-, hstart, hstop⟩ := hnode.of_mem_nodes _ hinside
    obtain ⟨hstart', hstop'⟩ := Extent.spans_iff.mp hname.covers
    have hforward := hlaid.forward
    have hbytes := hd.bytes
    have hrow : d.span.first = rowAt d.bytes.1 := by
      rw [hd.rows, hd.bytes]
      exact hlaid.startRow_eq
    rw [hrow]
    rw [hbytes] at hstart' hstop' ⊢
    exact contains_of_covers hrows hnode (Nat.le_trans hstart hstart')
      (Nat.le_trans hforward (Nat.le_trans hstop' hstop))

-- =============================================================== locating

theorem locate_eq (l : Language) (content : String) {visits : List Visit} {d : Definition}
    {category : Category} (hcategory : Category.ofTagType? d.tagType = some category)
    {name : Visit} (hname : innermost? visits d.bytes.1 d.bytes.2 = some name) :
    locate l visits content d
      = (structuralNode? (l.kindsOf category) d.span.first name).bind fun node =>
        (nodeText? content node).map fun source =>
          ⟨d, .ofCategory category, nodeSpan node, source⟩ := by
  simp only [locate, bind, pure, hcategory, hname, Option.bind_some]
  congr 1
  funext node
  cases nodeText? content node with
  | none => rfl
  | some source => rfl

/-- A chosen node of a tree whose bytes are boundaries of characters is located,
with what it looks like. -/
theorem exists_described {l : Language} {content : String} {rowAt : Nat → Nat}
    (hrows : Monotone rowAt) {node : Tree} (hnode : node.LaidOut rowAt)
    (hstart : Text.OnBoundary content node.extent.start.byte)
    (hstop : Text.OnBoundary content node.extent.stop.byte) {category : Category}
    (hkind : node.kind ∈ l.kindsOf category) (d : Definition) :
    ∃ source, nodeText? content node = some source
      ∧ Describes l content category node ⟨d, .ofCategory category, nodeSpan node, source⟩ := by
  obtain ⟨source, hsource⟩ := Text.exists_slice hnode.forward hstart hstop
  have hlast : node.startRow ≤ node.stopRow := by
    rw [hnode.startRow_eq, hnode.stopRow_eq]
    exact hrows hnode.forward
  refine ⟨source, hsource, ?_⟩
  exact
    { kind := hkind
      nodeKind := rfl
      source := Text.slice?_eq_some_iff.mp hsource
      first := rfl
      last := Nat.max_eq_right hlast }

/-- A located definition is consistent with its name.

Let a tree with nested and ordered extents be laid out in a text, all its bytes
on boundaries of characters, and let a definition of some category be named by a
node of the tree. The definition has a name node: the innermost node around the
bytes of its name, and the naming node itself if this one has no children.

What is located for the definition is a node of the tree of the language's kinds
for the category: its text between the node's bytes, its rows, and they hold the
row of the name. The node is chosen in this order: the innermost one at or around
the name node that starts on the row of the name; the first one at or below the
parent of the name node that does; the innermost one around. Nothing is located
if and only if no node of the kinds lies at or around the name node and none at
or below its parent starts on the row. -/
theorem located_definition_fits_name {l : Language} {tree : Tree} {content : String}
    {rowAt : Nat → Nat} (hrows : Monotone rowAt) (htree : tree.LaidOut rowAt)
    (hbounds : ∀ n ∈ tree.nodes, Text.OnBoundary content n.extent.start.byte
      ∧ Text.OnBoundary content n.extent.stop.byte)
    {d : Definition} {named : Visit} (hnamed : named ∈ tree.visits) (hd : NamedAt d named)
    {category : Category} (hcategory : Category.ofTagType? d.tagType = some category) :
    ∃ name, IsNameNode tree d name
      ∧ (d.bytes.1 < d.bytes.2 → named.node.children = [] → name = named)
      ∧ (∀ found, locate l tree.visits content d = some found →
        found.definition = d ∧ ∃ node ∈ tree.nodes,
          Describes l content category node found
            ∧ found.span.contains d.span.first = true
            ∧ Chosen (l.kindsOf category) d.span.first name node
            ∧ ((∃ t ∈ name.wayUp, Wanted (l.kindsOf category) d.span.first t) →
              name.wayUp.find? (fun t => decide (Wanted (l.kindsOf category) d.span.first t))
                = some node))
      ∧ (locate l tree.visits content d = none ↔
        (∀ t ∈ name.wayUp, t.kind ∉ l.kindsOf category)
          ∧ ∀ parent ∈ name.ancestors.head?, ∀ t ∈ parent.nodes,
            ¬ Wanted (l.kindsOf category) d.span.first t) := by
  obtain ⟨name, hisname⟩ := exists_isNameNode htree hnamed hd
  have hordered : ∀ t ∈ name.ancestors, t.StartsInOrder := fun t ht =>
    ((htree.of_mem_nodes t (around_of_mem_visits hisname.visited t
      (List.mem_cons_of_mem _ ht)).1).1).startsInOrder hrows
  have hlocate := locate_eq l content hcategory hisname.found
  -- a chosen node can be read, so it is located
  have hchosen : ∀ node, Chosen (l.kindsOf category) d.span.first name node →
      ∃ source, nodeText? content node = some source ∧ node ∈ tree.nodes
        ∧ Describes l content category node ⟨d, .ofCategory category, nodeSpan node, source⟩ := by
    intro node hnode
    have hmem := hnode.mem_nodes hisname.visited
    obtain ⟨hstart, hstop⟩ := hbounds node hmem
    obtain ⟨source, hsource, hdescribes⟩ := exists_described hrows (htree.of_mem_nodes node hmem).1
      hstart hstop hnode.kind_and_place.1 d
    exact ⟨source, hsource, hmem, hdescribes⟩
  refine ⟨name, hisname, hisname.eq_of_leaf hnamed hd, fun found hfound => ?_, ?_⟩
  · rw [hlocate] at hfound
    obtain ⟨node, hnode, hfound⟩ := Option.bind_eq_some_iff.mp hfound
    have hnode := (structuralNode?_eq_some_iff hordered).mp hnode
    obtain ⟨source, hsource, hmem, hdescribes⟩ := hchosen node hnode
    rw [hsource, Option.map_some] at hfound
    obtain rfl := Option.some.inj hfound
    exact ⟨rfl, node, hmem, hdescribes, hnode.contains_row hrows htree hnamed hd hisname, hnode,
      hnode.eq_first⟩
  · rw [hlocate, Option.bind_eq_none_iff, ← structuralNode?_eq_none_iff hordered]
    constructor
    · intro hnone
      refine Option.eq_none_iff_forall_ne_some.mpr fun node hnode => ?_
      obtain ⟨source, hsource, -⟩ := hchosen node ((structuralNode?_eq_some_iff hordered).mp hnode)
      have hlost := hnone node hnode
      rw [hsource] at hlost
      cases hlost
    · intro hnone node hnode
      rw [hnone] at hnode
      cases hnode

/-- A constant whose value is a function of two rows. -/
def constantText : String := "var f = () =>\n 1;\n"

def functionValue : Tree := .node "arrow_function" (some "value") ⟨⟨8, 0⟩, ⟨16, 1⟩⟩ []

def constantTree : Tree :=
  .node "program" none ⟨⟨0, 0⟩, ⟨18, 2⟩⟩
    [.node "variable_declaration" none ⟨⟨0, 0⟩, ⟨17, 1⟩⟩
      [.node "variable_declarator" none ⟨⟨4, 0⟩, ⟨16, 1⟩⟩
        [.node "identifier" (some "name") ⟨⟨4, 0⟩, ⟨5, 0⟩⟩ [], functionValue]]]

def constantName : Definition :=
  ⟨⟨"a.js"⟩, "f", "function", .of 0 0, (4, 5), []⟩

/-- The rows of the text: line feeds stand at bytes 13 and 17. -/
def constantRow (byte : Nat) : Nat := if byte ≤ 13 then 0 else if byte ≤ 17 then 1 else 2

theorem constantRow_mono : Monotone constantRow := by
  intro a b hab
  unfold constantRow
  split_ifs <;> omega

theorem constantTree_laidOut : constantTree.LaidOut constantRow := by
  have hleaf : ∀ c ∈ ([] : List Tree), c.LaidOut constantRow := fun c hc => by cases hc
  refine .node (by decide) rfl rfl (by decide) (by decide) (List.forall_mem_singleton.mpr ?_)
  refine .node (by decide) rfl rfl (by decide) (by decide) (List.forall_mem_singleton.mpr ?_)
  refine .node (by decide) rfl rfl (by decide) (by decide) (List.forall_mem_cons.mpr ⟨?_, ?_⟩)
  · exact .node (by decide) rfl rfl (by decide) .nil hleaf
  · exact List.forall_mem_singleton.mpr (.node (by decide) rfl rfl (by decide) .nil hleaf)

theorem constantTree_onBoundary : ∀ n ∈ constantTree.nodes,
    Text.OnBoundary constantText n.extent.start.byte
      ∧ Text.OnBoundary constantText n.extent.stop.byte := by
  have hascii : ∀ k ≤ 18, Text.OnBoundary constantText k := fun k hk =>
    Text.onBoundary_iff.mpr ⟨constantText.toList.take k, constantText.toList.drop k,
      (List.take_append_drop k constantText.toList).symm, by decide +revert +kernel⟩
  have hbytes : ∀ n ∈ constantTree.nodes, n.extent.start.byte ≤ 18 ∧ n.extent.stop.byte ≤ 18 :=
    by decide
  exact fun n hn => ⟨hascii _ (hbytes n hn).1, hascii _ (hbytes n hn).2⟩

/-- The eight bytes of the function are located for the constant, although its name
stands outside of them. -/
theorem located_constant_fits_name :
    ∃ found, locate .javascript constantTree.visits constantText constantName = some found
      ∧ found.span.contains 0 = true ∧ found.source.utf8ByteSize = 8 := by
  let named : Visit := constantTree.visits.get ⟨3, by decide⟩
  have hnamed : named ∈ constantTree.visits := List.get_mem _ _
  have hd : NamedAt constantName named := ⟨rfl, rfl⟩
  have hcategory : Category.ofTagType? constantName.tagType = some .function := rfl
  obtain ⟨name, -, hleaf, hsome, hnone⟩ := located_definition_fits_name (l := .javascript)
    constantRow_mono constantTree_laidOut constantTree_onBoundary hnamed hd hcategory
  obtain rfl : name = named := hleaf (by decide) rfl
  cases hfound : locate .javascript constantTree.visits constantText constantName with
  | none =>
      have hbeside := (hnone.mp hfound).2 _ rfl functionValue
        (List.mem_cons_of_mem _ (List.mem_cons_of_mem _ List.mem_cons_self))
      exact absurd (by decide) hbeside
  | some found =>
      obtain ⟨-, node, hnode, hdescribes, hrow, -⟩ := hsome found hfound
      obtain ⟨before, after, -, hbefore, hsource⟩ := hdescribes.source
      have hsize : ∀ n ∈ constantTree.nodes, n.kind ∈ Language.javascript.kindsOf .function →
          n.extent.stop.byte = n.extent.start.byte + 8 := by decide
      refine ⟨found, rfl, hrow, ?_⟩
      have hbytes := hsize node hnode hdescribes.kind
      omega

end CodeGraph

end CodeMap
