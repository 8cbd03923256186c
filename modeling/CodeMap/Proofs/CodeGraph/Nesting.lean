/-
Whether a reference goes to the innermost definition around it.

Nesting is a matter of bytes: one function or class lies inside another if its
node does. The definition that a reference goes to is chosen by rows: of those
around the reference it is the one with the fewest rows, and of those with
equally few the first one in the order of tags. A node inside another has no more
rows than that (`encloses_of_within`), so the two agree as long as the rows
differ.

On the same rows they need not. A class and its method on one row have one row
each, and the tag of the class comes first, so what the method refers to goes to
the class (`outer_definition_holds_inner_reference`). This is the only way for a
definition to be passed over that lies inside the chosen one
(`inner_is_passed_over_on_same_rows`).
-/
import CodeMap.Proofs.CodeGraph.Extraction

namespace CodeMap

-- ==================================================================== nodes

namespace Syntax

instance (inner outer : Extent) : Decidable (inner.Within outer) :=
  inferInstanceAs (Decidable (_ ∧ _ ∧ _ ∧ _))

/-- One node lies inside another and leaves out some of its bytes. -/
def Tree.StrictlyInside (inner outer : Tree) : Prop :=
  inner.extent.Within outer.extent
    ∧ (outer.extent.start.byte < inner.extent.start.byte
      ∨ inner.extent.stop.byte < outer.extent.stop.byte)

instance (inner outer : Tree) : Decidable (inner.StrictlyInside outer) :=
  inferInstanceAs (Decidable (_ ∧ _))

end Syntax

namespace LineSpan

/-- A range inside another is shorter or the same. -/
theorem length_lt_or_eq {s t : LineSpan} (h : s.encloses t = true) :
    t.length < s.length ∨ t = s := by
  obtain ⟨first, last, hordered⟩ := s
  obtain ⟨first', last', hordered'⟩ := t
  obtain ⟨hfirst, hlast⟩ := encloses_iff.mp h
  simp only [length, LineSpan.mk.injEq] at hfirst hlast ⊢
  omega

end LineSpan

open Syntax

namespace CodeGraph

/-- On a row that two nodes hold, the rows of the inner one lie in those of the
outer one. -/
theorem encloses_of_within {inner outer : Tree} (h : inner.extent.Within outer.extent) {row : Nat}
    (hinner : (nodeSpan inner).contains row = true)
    (houter : (nodeSpan outer).contains row = true) :
    (nodeSpan outer).encloses (nodeSpan inner) = true := by
  obtain ⟨-, -, hstart, hstop⟩ := h
  obtain ⟨hafter, -⟩ := LineSpan.contains_iff.mp hinner
  obtain ⟨-, hbefore⟩ := LineSpan.contains_iff.mp houter
  refine LineSpan.encloses_iff.mpr ⟨hstart, ?_⟩
  -- a node that would stop before it starts ends on the row `row`
  have hlast : max inner.startRow inner.stopRow ≤ max row outer.stopRow :=
    Nat.max_le.mpr ⟨hafter.trans (Nat.le_max_left _ _), hstop.trans (Nat.le_max_right _ _)⟩
  exact hlast.trans (Nat.max_le.mpr ⟨hbefore, Nat.le_max_right _ _⟩)

/-- The function or class that a definition of a file names. -/
def structuralNodeOf? (f : SourceFile) (d : Definition) : Option Tree := do
  let tree ← f.language.parse? f.content
  let category ← Category.ofTagType? d.tagType
  let name ← innermost? tree.visits d.bytes.1 d.bytes.2
  structuralNode? (f.language.kindsOf category) d.span.first name

/-- A located definition has a node, and its rows. -/
theorem node_of_mem_located {f : SourceFile} {d : Located} (h : d ∈ (extract f).located) :
    ∃ node, structuralNodeOf? f d.definition = some node ∧ d.span = nodeSpan node := by
  unfold extract at h
  split at h
  next => cases h
  next tree hparse =>
    obtain ⟨definition, -, hlocate⟩ := List.mem_filterMap.mp h
    simp only [locate, bind, Option.bind_eq_some_iff, pure, Option.some.injEq] at hlocate
    obtain ⟨category, hcategory, name, hname, node, hnode, source, -, rfl⟩ := hlocate
    refine ⟨node, ?_, rfl⟩
    simp only [structuralNodeOf?, bind, Option.bind_eq_some_iff]
    exact ⟨tree, hparse, category, hcategory, name, hname, hnode⟩

-- ================================================================== choices

/-- A definition that is located at a position of a file, around a row, with its
node. -/
structure Surrounds (f : SourceFile) (row i : Nat) (d : Located) (node : Tree) : Prop where
  located : (extract f).located[i]? = some d
  row : d.span.contains row = true
  node : structuralNodeOf? f d.definition = some node

section Surrounds

variable {f : SourceFile} {row i j : Nat} {d e : Located} {inner outer : Tree}

theorem Surrounds.span_eq (h : Surrounds f row i d inner) : d.span = nodeSpan inner := by
  obtain ⟨node, hnode, hspan⟩ := node_of_mem_located (List.mem_of_getElem? h.located)
  rw [hspan, Option.some.inj (hnode.symm.trans h.node)]

theorem Surrounds.encloses (hinner : Surrounds f row j e inner) (houter : Surrounds f row i d outer)
    (h : inner.extent.Within outer.extent) : d.span.encloses e.span = true := by
  have hrow := hinner.row
  have hrow' := houter.row
  rw [hinner.span_eq] at hrow
  rw [houter.span_eq] at hrow'
  rw [hinner.span_eq, houter.span_eq]
  exact encloses_of_within h hrow hrow'

/-- The outer one of two definitions is chosen only if it has the same rows and
comes first. -/
theorem Surrounds.eq_and_lt_of_innermost (hinner : Surrounds f row j e inner)
    (houter : Surrounds f row i d outer) (h : inner.StrictlyInside outer)
    (hchosen : Innermost (extract f).located row i) : e.span = d.span ∧ i < j := by
  obtain ⟨c, hc, -, hbest⟩ := hchosen
  obtain rfl : c = d := Option.some.inj (hc.symm.trans houter.located)
  have hplace := hbest j e hinner.located hinner.row
  have hspans := LineSpan.length_lt_or_eq (hinner.encloses houter h.1)
  have hsame : e.span = c.span := by
    rcases hspans with hlt | hsame
    · omega
    · exact hsame
  refine ⟨hsame, ?_⟩
  -- two definitions at one place are one, and nothing lies strictly inside itself
  have hne : i ≠ j := by
    rintro rfl
    obtain rfl : c = e := Option.some.inj (houter.located.symm.trans hinner.located)
    obtain rfl : outer = inner := Option.some.inj (houter.node.symm.trans hinner.node)
    have hbytes := h.2
    omega
  rw [hsame] at hplace
  omega

/-- A definition inside all others around a row is chosen if and only if none of
the same rows comes before it. -/
theorem Surrounds.innermost_iff (hinner : Surrounds f row j e inner)
    (hall : ∀ i d outer, Surrounds f row i d outer → inner.extent.Within outer.extent) :
    Innermost (extract f).located row j
      ↔ ∀ i d, i < j → (extract f).located[i]? = some d → d.span ≠ e.span := by
  constructor
  · rintro ⟨c, hc, -, hbest⟩ i d hlt hd hsame
    obtain rfl : c = e := Option.some.inj (hc.symm.trans hinner.located)
    have hplace := hbest i d hd (hsame ▸ hinner.row)
    rw [hsame] at hplace
    omega
  · intro hfirst
    refine ⟨e, hinner.located, hinner.row, fun i d hd hrow => ?_⟩
    obtain ⟨outer, hnode, -⟩ := node_of_mem_located (List.mem_of_getElem? hd)
    have houter : Surrounds f row i d outer := ⟨hd, hrow, hnode⟩
    rcases LineSpan.length_lt_or_eq (hinner.encloses houter (hall i d outer houter)) with
      hlt | hsame
    · exact .inl hlt
    · refine .inr ⟨congrArg LineSpan.length hsame, ?_⟩
      exact Nat.le_of_not_lt fun hbefore => hfirst i d hbefore hd hsame.symm

end Surrounds

/-- A definition that lies inside the one a reference goes to is passed over on
the same rows only.

Let two definitions be located around the row of a reference, the node of the one
strictly inside that of the other. If the reference goes to the outer one, then
both have the same rows, and the outer one comes first in the order of tags. A
definition inside all others around the row gets the reference if and only if no
definition before it has the same rows. -/
theorem inner_is_passed_over_on_same_rows {f : SourceFile} {r : Reference} {own : Option Nat}
    (hr : (r, own) ∈ (extract f).references) {rows : LineSpan} (hrows : r.span = some rows)
    {j : Nat} {e : Located} {inner : Tree} (hinner : Surrounds f rows.first j e inner) :
    (∀ i d outer, Surrounds f rows.first i d outer → inner.StrictlyInside outer →
        own = some i → e.span = d.span ∧ i < j)
      ∧ ((∀ i d outer, Surrounds f rows.first i d outer → inner.extent.Within outer.extent) →
        (own = some j
          ↔ ∀ i d, i < j → (extract f).located[i]? = some d → d.span ≠ e.span)) := by
  have howner : ∀ i, own = some i ↔ Innermost (extract f).located rows.first i := by
    intro i
    rw [(reads_extract f).owner r own hr i, hrows]
    simp
  refine ⟨fun i d outer houter hinside hown => ?_, fun hall => ?_⟩
  · exact hinner.eq_and_lt_of_innermost houter hinside ((howner i).mp hown)
  · rw [howner]
    exact hinner.innermost_iff hall

/-- Around a row, the definition at one position of a file lies strictly inside
the definition at another. -/
def NestedAround (f : SourceFile) (row i j : Nat) : Prop :=
  ∃ d outer e inner, Surrounds f row i d outer ∧ Surrounds f row j e inner
    ∧ inner.StrictlyInside outer

instance (f : SourceFile) (row i j : Nat) : Decidable (NestedAround f row i j) := by
  refine decidable_of_iff
    (((extract f).located[i]?).any (fun d => d.span.contains row
      && (structuralNodeOf? f d.definition).any fun outer =>
        ((extract f).located[j]?).any fun e => e.span.contains row
          && (structuralNodeOf? f e.definition).any fun inner =>
            decide (inner.StrictlyInside outer)) = true) ?_
  simp only [Option.any_eq_true, Bool.and_eq_true, decide_eq_true_eq]
  constructor
  · rintro ⟨d, hd, hrow, outer, houter, e, he, hrow', inner, hinner, hinside⟩
    exact ⟨d, outer, e, inner, ⟨hd, hrow, houter⟩, ⟨he, hrow', hinner⟩, hinside⟩
  · rintro ⟨d, outer, e, inner, ⟨hd, hrow, houter⟩, ⟨he, hrow', hinner⟩, hinside⟩
    exact ⟨d, hd, hrow, outer, houter, e, he, hrow', inner, hinner, hinside⟩

/-- A class whose method stands on rows of its own. -/
def nestedSource : SourceFile :=
  ⟨⟨"a.rb"⟩, ⟨"/r/a.rb"⟩, .ruby, "class A\n  def m\n    g()\n  end\nend\n"⟩

/-- The method refers to `g`, and not the class. -/
theorem inner_is_passed_over_sample :
    NestedAround nestedSource 2 0 1
      ∧ ∃ p ∈ (extract nestedSource).references, p.1.span = some (LineSpan.of 2 2)
        ∧ p.2 ≠ some 0 := by
  have hnested : NestedAround nestedSource 2 0 1 := by decide +kernel
  have hrefers : ∃ p ∈ (extract nestedSource).references,
      p.1.span = some (LineSpan.of 2 2) := by decide +kernel
  have hspans : ((extract nestedSource).located.map (·.span))
      = [LineSpan.of 0 4, LineSpan.of 1 3] := by decide +kernel
  have ⟨d, outer, e, inner, houter, hinner, hinside⟩ := hnested
  obtain ⟨⟨r, own⟩, hr, hrows⟩ := hrefers
  refine ⟨hnested, ⟨r, own⟩, hr, hrows, fun hown => ?_⟩
  obtain ⟨hsame, -⟩ :=
    (inner_is_passed_over_on_same_rows hr hrows hinner).1 0 d outer houter hinside hown
  have hd : d.span = LineSpan.of 0 4 := by
    have hplace := congrArg (·[0]?) hspans
    simpa [houter.located] using hplace
  have he : e.span = LineSpan.of 1 3 := by
    have hplace := congrArg (·[1]?) hspans
    simpa [hinner.located] using hplace
  rw [hd, he] at hsame
  exact absurd hsame (by decide)

/-- The same class on one row. -/
def crampedSource : SourceFile :=
  ⟨⟨"a.rb"⟩, ⟨"/r/a.rb"⟩, .ruby, "class A; def m; g(); end; end\ndef g\nend\n"⟩

/-- What the method refers to goes to the class. -/
theorem outer_definition_holds_inner_reference :
    ¬ ∀ (f : SourceFile) (r : Reference) (own : Option Nat) (rows : LineSpan) (i j : Nat),
      (r, own) ∈ (extract f).references → r.span = some rows →
      NestedAround f rows.first i j → own ≠ some i := by
  intro hclaim
  have hnested : NestedAround crampedSource 0 0 1 := by decide +kernel
  have hrefers : ∃ p ∈ (extract crampedSource).references,
      p.1.span = some (LineSpan.of 0 0) := by decide +kernel
  have hspan : ((extract crampedSource).located[0]?).map (·.span) = some (LineSpan.of 0 0) := by
    decide +kernel
  obtain ⟨⟨r, own⟩, hr, hrows⟩ := hrefers
  refine hclaim crampedSource r own _ 0 1 hr hrows hnested ?_
  -- the class has one row, which is as few as can be, and comes first
  rw [(reads_extract crampedSource).owner r own hr 0]
  obtain ⟨d, hd, hone⟩ := Option.map_eq_some_iff.mp hspan
  refine ⟨_, hrows, d, hd, ?_, fun j e _ _ => ?_⟩
  · rw [hone]
    decide
  · have hpos := e.span.length_pos
    have hlength : d.span.length = 1 := by rw [hone]; rfl
    omega

end CodeGraph

end CodeMap
