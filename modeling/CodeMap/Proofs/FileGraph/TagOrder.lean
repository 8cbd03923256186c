/-
A graph of files and its ranking do not depend on the order of tags.

Tags enter a graph in two ways. Their uses and their defining files are sorted
before anything is made from them, and elements that compare equal are equal
once every file is spelled in one way, so the rows of the graph come out the
same (`rows_eq_of_perm`). Files are numbered by first use in these rows, ranks
are summed in the order of edges, and so all of that agrees as well.

The graph also keeps the definitions, in tag order. They are looked up by name
and file and sorted by their place in the file, which forgets the order in
which they were kept if no two of them share a place
(`definitionsOf_eq_of_perm`).
-/
import CodeMap.Proofs.FileGraph.Items

namespace CodeMap

open Std

namespace Tag

/-- Every file is spelled in one way. -/
def SpelledAlike (tags : List Tag) : Prop :=
  ∀ t ∈ tags, ∀ u ∈ tags, t.path.same u.path → t.path = u.path

instance (tags : List Tag) : Decidable (SpelledAlike tags) :=
  inferInstanceAs (Decidable (∀ t ∈ tags, ∀ u ∈ tags, _))

/-- No two definitions of one name in one file share their place. -/
def PlacesDiffer (tags : List Tag) : Prop :=
  ∀ d ∈ definitions tags, ∀ e ∈ definitions tags, d.path.same e.path → d.name = e.name →
    d.span.first = e.span.first → d.bytes.1 = e.bytes.1 → d = e

instance (tags : List Tag) : Decidable (PlacesDiffer tags) :=
  inferInstanceAs (Decidable (∀ d ∈ definitions tags, ∀ e ∈ definitions tags, _))

theorem exists_tag_of_definition {tags : List Tag} {d : Definition} (h : d ∈ definitions tags) :
    ∃ t ∈ tags, t.path = d.path := by
  obtain ⟨t, ht, htd⟩ := List.mem_filterMap.mp h
  cases t with
  | definition e =>
      cases htd
      exact ⟨_, ht, rfl⟩
  | reference r => cases htd

theorem exists_tag_of_reference {tags : List Tag} {r : Reference} (h : r ∈ references tags) :
    ∃ t ∈ tags, t.path = r.path := by
  obtain ⟨t, ht, htr⟩ := List.mem_filterMap.mp h
  cases t with
  | definition e => cases htr
  | reference s =>
      cases htr
      exact ⟨_, ht, rfl⟩

theorem SpelledAlike.eq {tags : List Tag} (h : SpelledAlike tags) {p q : Path}
    (hp : ∃ t ∈ tags, t.path = p) (hq : ∃ t ∈ tags, t.path = q)
    (hpq : p.components = q.components) : p = q := by
  obtain ⟨t, ht, rfl⟩ := hp
  obtain ⟨u, hu, rfl⟩ := hq
  exact h t ht u hu (Path.same_iff.mpr hpq)

end Tag

open Tag

variable {tags tags' : List Tag}

-- ===================================================================== rows

namespace Usage

/-- A single use is in a tagged file. -/
theorem mem_singles {u : Usage} (h : u ∈ singles tags) :
    (∃ t ∈ tags, t.path = u.path) ∧ u.count = 1 := by
  unfold singles at h
  split at h
  · obtain ⟨d, hd, rfl⟩ := List.mem_map.mp h
    exact ⟨exists_tag_of_definition hd, rfl⟩
  · obtain ⟨r, hr, rfl⟩ := List.mem_map.mp h
    exact ⟨exists_tag_of_reference hr, rfl⟩

theorem ofTags_eq_of_perm (hperm : tags.Perm tags') (hspelled : SpelledAlike tags) :
    ofTags tags = ofTags tags' := by
  have hreferences : (references tags).Perm (references tags') := hperm.filterMap _
  have hnone : references tags = [] ↔ references tags' = [] := by
    rw [← List.length_eq_zero_iff, ← List.length_eq_zero_iff, hreferences.length_eq]
  have hsingles : (singles tags).Perm (singles tags') := by
    unfold singles
    by_cases h : references tags = []
    · rw [if_pos h, if_pos (hnone.mp h)]
      exact (hperm.filterMap _).map _
    · rw [if_neg h, if_neg (mt hnone.mpr h)]
      exact hreferences.map _
  have hsort : (singles tags).mergeSort (fun a b => (a.order b).isLE)
      = (singles tags').mergeSort fun a b => (a.order b).isLE := by
    refine @sort_eq_of_perm _ _ order _ id _ _ hsingles fun u hu w hw horder => ?_
    obtain ⟨htag, hcount⟩ := mem_singles hu
    obtain ⟨htag', hcount'⟩ := mem_singles hw
    obtain ⟨hname, hpath⟩ := order_eq_eq_iff.mp horder
    have hspelling := hspelled.eq htag htag' hpath
    cases u
    cases w
    simp_all
  rw [ofTags_eq, ofTags_eq]
  unfold collect
  simp only [hnone]
  rw [hsort]

end Usage

namespace Resolution

/-- The definers of a name are those of any arrangement of the definitions. -/
theorem definers_eq_of_perm (hperm : tags.Perm tags') (hspelled : SpelledAlike tags)
    (name : String) :
    definers (definitions tags) name = definers (definitions tags') name := by
  have hdefs : (definitions tags).Perm (definitions tags') := hperm.filterMap _
  have hpaths : ∀ {p}, p ∈ (candidates (definitions tags) name).map (fun c => c.definition.path) →
      ∃ t ∈ tags, t.path = p := by
    intro p hp
    obtain ⟨d, hd, -, rfl⟩ := mem_candidatePaths.mp hp
    exact exists_tag_of_definition hd
  have hlists : ((candidates (definitions tags) name).map fun c => c.definition.path).Perm
      ((candidates (definitions tags') name).map fun c => c.definition.path) := by
    have h := ((map_candidates_perm (definitions tags) name).trans
      ((hdefs.filter _).trans (map_candidates_perm (definitions tags') name).symm)).map
        Definition.path
    rwa [List.map_map, List.map_map] at h
  unfold definers
  congr 1
  refine hlists.eq_of_pairwise (fun p q hp hq hpq hqp => ?_) (pairwise_candidatePaths _ _)
    (pairwise_candidatePaths _ _)
  refine hspelled.eq (hpaths hp) (hpaths (hlists.mem_iff.mpr hq)) ?_
  exact Path.order_eq_eq_iff.mp (eq_of_isLE_of_isLE hpq hqp)

end Resolution

namespace FileGraph

theorem rows_eq_of_perm (hperm : tags.Perm tags') (hspelled : SpelledAlike tags)
    (interest : Interest) : rows tags interest = rows tags' interest := by
  unfold rows
  rw [Usage.ofTags_eq_of_perm hperm hspelled]
  refine List.flatMap_congr fun u _ => ?_
  exact congrArg _ (Resolution.definers_eq_of_perm hperm hspelled u.name)

/-- The graph of rearranged tags: only the kept definitions are rearranged. -/
theorem build_rearranged (hperm : tags.Perm tags') (hspelled : SpelledAlike tags)
    (interest : Interest) : build tags' interest
      = { build tags interest with definitions := Tag.definitions tags' } := by
  unfold build
  rw [rows_eq_of_perm hperm hspelled]
  rfl

-- ==================================================================== items

/-- Definitions that differ in their places are listed in one order only. -/
theorem definitionsOf_eq_of_perm (g : FileGraph) {ds : List Definition}
    (hperm : g.definitions.Perm ds)
    (hplaces : ∀ d ∈ g.definitions, ∀ e ∈ g.definitions, d.path.same e.path → d.name = e.name →
      d.span.first = e.span.first → d.bytes.1 = e.bytes.1 → d = e)
    (group : Group g.files.length) :
    ({ g with definitions := ds } : FileGraph).definitionsOf group = g.definitionsOf group := by
  have hnamed := (Resolution.map_candidates_perm g.definitions group.name).trans
    ((hperm.filter _).trans (Resolution.map_candidates_perm ds group.name).symm)
  refine (@sort_eq_of_perm _ _ placeOrder _ id _ _
    (hnamed.filter fun d => d.path.same (g.file group.file)) fun a ha b hb horder => ?_).symm
  obtain ⟨ha, hba⟩ := mem_definitionsOf.mp (List.mem_mergeSort.mpr ha)
  obtain ⟨hb, hbb⟩ := mem_definitionsOf.mp (List.mem_mergeSort.mpr hb)
  obtain ⟨hpa, hna⟩ := belongs_iff.mp hba
  obtain ⟨hpb, hnb⟩ := belongs_iff.mp hbb
  obtain ⟨hrow, hbyte⟩ := Ordering.then_eq_eq.mp horder
  exact hplaces a ha b hb (Path.same_iff.mpr (hpa.trans hpb.symm)) (hna.trans hnb.symm)
    (LawfulEqOrd.eq_of_compare hrow) (LawfulEqOrd.eq_of_compare hbyte)

/-- The ranking sees the kept definitions only through the groups. -/
theorem rankedItems_congr {α : Type} [RankNumber α] (g : FileGraph) {ds : List Definition}
    (h : ∀ group, ({ g with definitions := ds } : FileGraph).definitionsOf group
      = g.definitionsOf group) (root : Nat → α) (interest : Interest) :
    rankedItems root interest { g with definitions := ds } = rankedItems root interest g := by
  have hitems : (fun group => (({ g with definitions := ds } : FileGraph).definitionsOf group).map
      RankedItem.definition) = fun group => (g.definitionsOf group).map RankedItem.definition := by
    funext group
    rw [h]
  unfold rankedItems arrange
  rw [hitems]
  rfl

-- ================================================================ the order

/-- A graph of files and its ranking do not depend on the order of tags.

If every file is spelled in one way and no two definitions of one name in one
file share their place, a rearrangement of the tags gives the same files and
the same edges in the same order, with the definitions kept in the new order.
There is one edge for each name, file that uses it and file that defines it, in
the order of these. Its weight is that of the name, times the root of how often
the file uses the name. Every file is an end of some edge, and the ranking
lists the same items. -/
theorem build_forgets_tag_order (hperm : tags.Perm tags') (hspelled : SpelledAlike tags)
    (hplaces : PlacesDiffer tags) (interest : Interest) :
    build tags' interest = { build tags interest with definitions := Tag.definitions tags' }
      ∧ ((build tags interest).edges.Pairwise fun e f =>
          ((build tags interest).key e).order ((build tags interest).key f) = .lt)
      ∧ (∀ (name : String) (a b : Path), (∃ e ∈ (build tags interest).edges,
          (build tags interest).key e = ⟨name, a.components, b.components⟩)
            ↔ UsedIn tags name a ∧ DefinedIn tags name b)
      ∧ (∀ {α : Type} [RankNumber α] (root : Nat → α), ∀ e ∈ (build tags interest).edges,
          weight root e = (Emphasis.of interest e.name).factor
            * root (useCount tags e.name ((build tags interest).file e.source)))
      ∧ (∀ v, ∃ e ∈ (build tags interest).edges, e.source = v ∨ e.target = v)
      ∧ (∀ {α : Type} [RankNumber α] (root : Nat → α),
          rankedItems root interest (build tags' interest)
            = rankedItems root interest (build tags interest)) := by
  have hbuild := build_rearranged hperm hspelled interest
  refine ⟨hbuild, pairwise_edges tags interest, fun name a b => exists_edge_iff,
    fun root e he => ?_, exists_edge_at, fun root => ?_⟩
  · obtain ⟨hemphasis, hcount⟩ := weight_of_edge he
    rw [weight, hemphasis, hcount]
  · have hdefs : (build tags interest).definitions.Perm (Tag.definitions tags') :=
      hperm.filterMap _
    have hgroups := definitionsOf_eq_of_perm (build tags interest) hdefs hplaces
    rw [hbuild]
    exact rankedItems_congr (build tags interest) hgroups root interest

theorem build_forgets_tag_order_sample :
    SpelledAlike crossedTags ∧ PlacesDiffer crossedTags
      ∧ (build crossedTags.reverse {}).files = (build crossedTags {}).files
      ∧ rankedItems floatRoot {} (build crossedTags.reverse {})
        = rankedItems floatRoot {} (build crossedTags {}) := by
  have hspelled : SpelledAlike crossedTags := by decide +kernel
  have hplaces : PlacesDiffer crossedTags := by decide +kernel
  obtain ⟨hbuild, -, -, -, -, hitems⟩ :=
    build_forgets_tag_order (List.reverse_perm crossedTags).symm hspelled hplaces {}
  exact ⟨hspelled, hplaces, by rw [hbuild], hitems floatRoot⟩

end FileGraph

end CodeMap
