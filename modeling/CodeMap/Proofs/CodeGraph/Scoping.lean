/-
The scopes around a node, and the qualified names of nested definitions.

# The rule

The nodes above a node are asked one after the other, innermost first, and the
answers are turned around (`enclosingScopes_eq`). A node answers if it is of a
class-like kind and has a name node, and its answer is the text of this node. The
exception is the node asked about: a class does not lie inside itself, so the node
that names it gets no answer from it.

# Why scopes nest

The way up from a node `d` below a class `c` passes through `c` and goes on above it
as the way up from the name node of `c` does. Above `c` both get the same answers,
because the exception concerns a child of the node that is asked, and neither `d`
nor the name node of `c` is a child of anything above `c` (`scopeGiven?_of_far`).
At `c` itself the name node is the exception and `d` is not. So all that `d` has
more is the name of `c`, unless there is an answer from between the two.

A class directly inside `c` is between its own name node and `c` and gives no answer
to it. This is why `DirectlyInside` leaves room for a class that the node names: with
it, functions and classes inside `c` are the same case.
-/
import CodeMap.Proofs.CodeGraph.Extraction
import CodeMap.Proofs.Syntax.Ancestors

namespace CodeMap

open Syntax

-- ============================================================== vocabulary

/-- The node that names a scope: its name, or else its type. -/
def scopeName? (c : Visit) : Option Visit := (scopeNameIndex? c.node).bind c.child?

/-- A node of a class-like kind with the node that names it. -/
structure NamesClass (l : Language) (m c : Visit) : Prop where
  classLike : c.node.kind ∈ l.classKinds
  name : scopeName? c = some m

/-- A node lies below another and no class-like node lies between them, other than
one that it names. -/
structure DirectlyInside (l : Language) (d c : Visit) : Prop where
  below : d ∈ c.below
  between : ∀ x ∈ c.below, d ∈ x.below → x.node.kind ∈ l.classKinds → NamesClass l d x

/-- A pattern of the language finds a definition at a node. -/
def DefinedAt (l : Language) (path : Path) (content : String) (d : Definition) (v : Visit) : Prop :=
  ∃ p ∈ l.patterns, tagAt? l path content v p = some (.definition d)

/-- What a node answers when the scopes around the node at a place are gathered. -/
def scopeGiven? (l : Language) (content : String) (place : List Nat) (a : Visit) : Option String :=
  if a.node.kind ∈ l.classKinds then
    (scopeName? a).bind fun m => if m.place = place then none else nodeText? content m.node
  else none

section

variable {l : Language} {content : String} {place place' : List Nat} {c d m : Visit}

-- ================================================================= answers

theorem scopeGiven?_of_not_classLike (h : c.node.kind ∉ l.classKinds) :
    scopeGiven? l content place c = none := if_neg h

theorem NamesClass.scopeGiven?_eq (h : NamesClass l m c) :
    scopeGiven? l content place c
      = if m.place = place then none else nodeText? content m.node := by
  rw [scopeGiven?, if_pos h.classLike, h.name, Option.bind_some]

/-- The node that names a class is a child of it. -/
theorem exists_child_of_scopeName? (h : scopeName? c = some m) : ∃ i, c.child? i = some m := by
  obtain ⟨i, -, hi⟩ := Option.bind_eq_some_iff.mp h
  exact ⟨i, hi⟩

/-- A place that is too long for a child of a node is no exception to its answer. -/
theorem scopeGiven?_of_far (h : c.place.length + 1 < place.length) :
    scopeGiven? l content place c
      = if c.node.kind ∈ l.classKinds then (scopeName? c).bind fun m => nodeText? content m.node
        else none := by
  unfold scopeGiven?
  congr 1
  refine Option.bind_congr fun m hm => if_neg fun heq => ?_
  obtain ⟨i, hi⟩ := exists_child_of_scopeName? hm
  rw [← heq, Visit.place_of_child hi] at h
  exact Nat.lt_irrefl _ h

/-- One step up puts the answer of an ancestor in front. -/
theorem scopesAlong_cons (l : Language) (content : String) (start : List Nat) (p : Nat)
    (above : List Nat) (a : Tree) (rest : List Tree) :
    scopesAlong l content start (p :: above) (a :: rest)
      = (scopeGiven? l content start ⟨a, above, rest⟩).toList
        ++ scopesAlong l content start above rest := by
  rw [scopesAlong]
  by_cases hclass : a.kind ∈ l.classKinds
  · rw [if_pos (List.contains_iff_mem.mpr hclass), scopeGiven?, if_pos hclass, scopeName?]
    cases hindex : scopeNameIndex? a with
    | none => rfl
    | some i =>
        dsimp only
        rw [Option.bind_some, Visit.child?]
        cases hchild : a.children[i]? with
        | none => simp
        | some t =>
            by_cases hself : i :: above = start
            · simp [hself]
            · cases htext : nodeText? content t <;> simp [hself, htext]
  · have hcontains : ¬ l.classKinds.contains a.kind = true := fun h =>
      hclass (List.contains_iff_mem.mp h)
    rw [if_neg hcontains, scopeGiven?_of_not_classLike hclass]
    rfl

theorem scopesAlong_eq (l : Language) (content : String) (start : List Nat) :
    ∀ (place : List Nat) (ancestors : List Tree), scopesAlong l content start place ancestors
      = (visitsUp place ancestors).filterMap (scopeGiven? l content start) := by
  intro place
  induction place with
  | nil =>
      intro ancestors
      cases ancestors with
      | nil => rfl
      | cons a rest => rfl
  | cons p above ih =>
      intro ancestors
      cases ancestors with
      | nil => rfl
      | cons a rest =>
          rw [scopesAlong_cons, ih, visitsUp, List.filterMap_cons]
          cases scopeGiven? l content start ⟨a, above, rest⟩ with
          | none => rfl
          | some name => rfl

/-- The scopes around a node are the answers on the way up from it, outermost
first. -/
theorem enclosingScopes_eq (l : Language) (content : String) (v : Visit) :
    enclosingScopes l content v
      = (v.above.filterMap (scopeGiven? l content v.place)).reverse := by
  rw [enclosingScopes, scopesAlong_eq]
  rfl

-- ================================================================= nesting

/-- Above a class, all nodes with longer places get the same answers. -/
theorem answers_above_eq (h : c.place.length < place.length) (h' : c.place.length < place'.length) :
    c.above.filterMap (scopeGiven? l content place)
      = c.above.filterMap (scopeGiven? l content place') := by
  refine List.filterMap_congr fun a ha => ?_
  have hshorter := Visit.length_place_lt_of_mem_above ha
  rw [scopeGiven?_of_far (Nat.lt_of_le_of_lt hshorter h),
    scopeGiven?_of_far (Nat.lt_of_le_of_lt hshorter h')]

/-- The node that names a class has the scopes from above the class. -/
theorem NamesClass.enclosingScopes_eq (h : NamesClass l m c) :
    enclosingScopes l content m
      = (c.above.filterMap (scopeGiven? l content m.place)).reverse := by
  obtain ⟨i, hi⟩ := exists_child_of_scopeName? h.name
  rw [CodeMap.enclosingScopes_eq, Visit.above_of_child hi, List.filterMap_cons_none]
  rw [h.scopeGiven?_eq, if_pos rfl]

/-- A node directly inside a class has the scopes of the node that names the class,
and the class. -/
theorem DirectlyInside.enclosingScopes_eq (hd : DirectlyInside l d c) (hm : NamesClass l m c)
    (hne : d ≠ m) :
    enclosingScopes l content d
      = enclosingScopes l content m ++ (nodeText? content m.node).toList := by
  obtain ⟨between, habove, hbetween⟩ := Visit.exists_between hd.below
  obtain ⟨i, hi⟩ := exists_child_of_scopeName? hm.name
  have hplace : m.place ≠ d.place := by
    intro heq
    rw [Visit.place_of_child hi] at heq
    have hchild := Visit.child_of_place hd.below heq.symm
    exact hne (Option.some.inj (hchild.symm.trans hi))
  have hsilent : between.filterMap (scopeGiven? l content d.place) = [] := by
    refine List.filterMap_eq_nil_iff.mpr fun x hx => ?_
    obtain ⟨hbelow, hdx⟩ := hbetween x hx
    by_cases hclass : x.node.kind ∈ l.classKinds
    · rw [(hd.between x hbelow hdx hclass).scopeGiven?_eq, if_pos rfl]
    · exact scopeGiven?_of_not_classLike hclass
  have hsame : c.above.filterMap (scopeGiven? l content d.place)
      = c.above.filterMap (scopeGiven? l content m.place) := by
    refine answers_above_eq (Visit.length_place_lt_of_mem_below hd.below) ?_
    rw [Visit.place_of_child hi]
    exact Nat.lt_succ_self _
  have hown : [c].filterMap (scopeGiven? l content d.place) = (nodeText? content m.node).toList := by
    rw [List.filterMap_cons, hm.scopeGiven?_eq, if_neg hplace]
    cases nodeText? content m.node with
    | none => rfl
    | some name => rfl
  calc enclosingScopes l content d
      = ((between ++ [c] ++ c.above).filterMap (scopeGiven? l content d.place)).reverse := by
        rw [CodeMap.enclosingScopes_eq, habove, List.append_assoc, List.singleton_append]
    _ = ((nodeText? content m.node).toList
          ++ c.above.filterMap (scopeGiven? l content m.place)).reverse := by
        rw [List.filterMap_append, List.filterMap_append, hsilent, List.nil_append, hown, hsame]
    _ = enclosingScopes l content m ++ (nodeText? content m.node).toList := by
        rw [List.reverse_append, hm.enclosingScopes_eq]
        cases nodeText? content m.node with
        | none => rfl
        | some name => rfl

end

-- ============================================================= definitions

section

variable {l : Language} {path : Path} {content : String} {d : Definition} {v : Visit}

/-- What a definition takes from the node it is found at. -/
theorem DefinedAt.fields (h : DefinedAt l path content d v) :
    d.path = path ∧ nodeText? content v.node = some d.name
      ∧ d.scope = enclosingScopes l content v := by
  obtain ⟨p, -, hfound⟩ := h
  unfold tagAt? at hfound
  split at hfound
  · obtain ⟨name, hname, hfound⟩ := Option.map_eq_some_iff.mp hfound
    dsimp only at hfound
    split at hfound
    · injection hfound with hfound
      subst hfound
      exact ⟨rfl, hname, rfl⟩
    · cases hfound
  · cases hfound

end

namespace CodeGraph

/-- A definition scoped by another one has its qualified name in front. -/
theorem qualifiedName_of_scope {outer inner : Definition} (hpath : inner.path = outer.path)
    (hscope : inner.scope = outer.scope ++ [outer.name]) :
    qualifiedName inner = qualifiedName outer ++ "." ++ inner.name := by
  rw [qualifiedName, qualifiedName, hpath, hscope,
    String.intercalate_append_of_ne_nil (by simp) (by simp), String.intercalate_singleton]
  simp only [String.append_assoc]

/-- Scopes nest.

Let `c` be a node of a class-like kind in any tree, and `m` the node that names it:
its name, or else its type. A node below `c`, other than `m` and with no class-like
node between it and `c`, has the scopes of `m` and then the name of `c`. This name is
the text of `m`, and there is none if the bytes of `m` are no text.

If `m` names a definition, then the qualified name of every definition directly
inside `c` is the one of this definition, a dot and its own name. Directly inside
are definitions whose names have no class-like node between them and `c`, other than
a class that they name. -/
theorem scopes_nest (l : Language) (path : Path) (content : String) {c m : Visit}
    (hm : NamesClass l m c) :
    (∀ d ∈ c.below, d ≠ m → (∀ x ∈ c.below, d ∈ x.below → x.node.kind ∉ l.classKinds) →
        enclosingScopes l content d
          = enclosingScopes l content m ++ (nodeText? content m.node).toList)
      ∧ ∀ outer inner d, DefinedAt l path content outer m → DefinedAt l path content inner d →
        DirectlyInside l d c → d ≠ m →
          qualifiedName inner = qualifiedName outer ++ "." ++ inner.name := by
  refine ⟨fun d hd hne hbetween => ?_, fun outer inner d houter hinner hd hne => ?_⟩
  · have hinside : DirectlyInside l d c :=
      ⟨hd, fun x hx hdx hclass => absurd hclass (hbetween x hx hdx)⟩
    exact hinside.enclosingScopes_eq hm hne
  · obtain ⟨hpath, hname, hscope⟩ := houter.fields
    obtain ⟨hpath', -, hscope'⟩ := hinner.fields
    refine qualifiedName_of_scope (hpath'.trans hpath.symm) ?_
    rw [hscope', hd.enclosingScopes_eq hm hne, hname, ← hscope]
    rfl

/-- A class in a class, and a method in the inner one. -/
def nestingText : String := "class A; class B; def m; end; end; end\n"

def nestingTree : Tree :=
  .node "program" none ⟨⟨0, 0⟩, ⟨38, 0⟩⟩
    [.node "class" none ⟨⟨0, 0⟩, ⟨38, 0⟩⟩
      [.node "constant" (some "name") ⟨⟨6, 0⟩, ⟨7, 0⟩⟩ [],
        .node "class" none ⟨⟨9, 0⟩, ⟨33, 0⟩⟩
          [.node "constant" (some "name") ⟨⟨15, 0⟩, ⟨16, 0⟩⟩ [],
            .node "method" none ⟨⟨18, 0⟩, ⟨28, 0⟩⟩
              [.node "identifier" (some "name") ⟨⟨22, 0⟩, ⟨23, 0⟩⟩ []]]]]

/-- The nodes of the tree, in pre-order. -/
def nestingVisit (i : Fin 7) : Visit := nestingTree.visits.get i

/-- The definition of a name on the first row of the text. -/
def nestingDefinition (name tagType : String) (byte : Nat) (scope : List String) : Definition :=
  ⟨⟨"a.rb"⟩, name, tagType, .of 0 0, (byte, byte + 1), scope⟩

/-- From the qualified name of the outer class come those of the inner class and of
the method, one after the other. -/
theorem scopes_nest_sample :
    qualifiedName (nestingDefinition "B" "class" 15 ["A"]) = "a.rb:A.B"
      ∧ qualifiedName (nestingDefinition "m" "method" 22 ["A", "B"]) = "a.rb:A.B.m"
      ∧ enclosingScopes .ruby nestingText (nestingVisit 5) = ["A", "B"] := by
  have houter : DefinedAt .ruby ⟨"a.rb"⟩ nestingText (nestingDefinition "A" "class" 6 [])
      (nestingVisit 2) := by
    unfold DefinedAt
    decide
  have hinner : DefinedAt .ruby ⟨"a.rb"⟩ nestingText (nestingDefinition "B" "class" 15 ["A"])
      (nestingVisit 4) := by
    unfold DefinedAt
    decide
  have hmethod : DefinedAt .ruby ⟨"a.rb"⟩ nestingText
      (nestingDefinition "m" "method" 22 ["A", "B"]) (nestingVisit 6) := by
    unfold DefinedAt
    decide
  have hnames : NamesClass .ruby (nestingVisit 2) (nestingVisit 1) := ⟨by decide, rfl⟩
  have hnames' : NamesClass .ruby (nestingVisit 4) (nestingVisit 3) := ⟨by decide, rfl⟩
  have hbelow : (nestingVisit 1).below = [2, 3, 4, 5, 6].map nestingVisit := rfl
  have hbelow' : (nestingVisit 3).below = [4, 5, 6].map nestingVisit := rfl
  have hne : ∀ i j, i ≠ j → nestingVisit i ≠ nestingVisit j := by
    have hplaces : ∀ i j, i ≠ j → (nestingVisit i).place ≠ (nestingVisit j).place := by decide
    exact fun i j hij heq => hplaces i j hij (congrArg Visit.place heq)
  -- the inner class is the only one below the outer class, and has none below it
  have hinside : DirectlyInside .ruby (nestingVisit 4) (nestingVisit 1) := by
    have honly : ∀ i ∈ [2, 3, 4, 5, 6],
        (nestingVisit i).node.kind ∈ Language.ruby.classKinds → i = 3 := by decide
    refine ⟨hbelow ▸ List.mem_map_of_mem (by decide), fun x hx _ hclass => ?_⟩
    rw [hbelow] at hx
    obtain ⟨i, hi, rfl⟩ := List.mem_map.mp hx
    obtain rfl := honly i hi hclass
    exact hnames'
  have hnone : ∀ x ∈ (nestingVisit 3).below, x.node.kind ∉ Language.ruby.classKinds := by decide
  have hinside' : DirectlyInside .ruby (nestingVisit 6) (nestingVisit 3) :=
    ⟨hbelow' ▸ List.mem_map_of_mem (by decide),
      fun x hx _ hclass => absurd hclass (hnone x hx)⟩
  obtain ⟨-, hnested⟩ := scopes_nest .ruby ⟨"a.rb"⟩ nestingText hnames
  obtain ⟨hscopes, hnested'⟩ := scopes_nest .ruby ⟨"a.rb"⟩ nestingText hnames'
  have hB := hnested _ _ _ houter hinner hinside (hne 4 2 (by decide))
  have hm := hnested' _ _ _ hinner hmethod hinside' (hne 6 4 (by decide))
  have hA : qualifiedName (nestingDefinition "A" "class" 6 []) = "a.rb:A" := by decide
  rw [hA] at hB
  rw [hB] at hm
  refine ⟨hB, hm, ?_⟩
  obtain ⟨-, hname, hscope⟩ := hinner.fields
  rw [hscopes (nestingVisit 5) (hbelow' ▸ List.mem_map_of_mem (by decide)) (hne 5 4 (by decide))
    fun x hx _ => hnone x hx, ← hscope, hname]
  rfl

end CodeGraph

end CodeMap
