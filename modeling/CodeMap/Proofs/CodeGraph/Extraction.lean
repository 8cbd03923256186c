/-
What looking at one file finds.

A tag was found at a node by a pattern, or it stands for a word of the text
(`found_or_word_of_mem_tagsOfVisits`), and no tag comes from anywhere else.
Everything found in a file carries the path of the file, so two definitions of
a file differ in their qualified names by scope and name only. A name without
a dot can be read off the end of a qualified name, which is why definitions of
one file that share a qualified name share their name as well
(`name_eq_of_qualifiedName`).

A reference belongs to the innermost of the located definitions around its
first row: the one with the fewest rows, and the first of those
(`Reads.owner`).
-/
import CodeMap.CodeGraph
import Mathlib.Data.List.TakeWhile

namespace CodeMap

-- ===================================================================== tags

section

variable {l : Language} {path : Path} {content : String} {t : Tag}

theorem exists_pattern_of_mem_tagsAt {v : Syntax.Visit} :
    ∀ {ps : List Syntax.Pattern} {seen : List TagSite}, t ∈ (tagsAt l path content v ps seen).1 →
      ∃ p ∈ ps, tagAt? l path content v p = some t := by
  intro ps
  induction ps with
  | nil =>
      intro seen h
      cases h
  | cons p ps ih =>
      intro seen h
      have hlater : ∀ {seen}, t ∈ (tagsAt l path content v ps seen).1 →
          ∃ q ∈ p :: ps, tagAt? l path content v q = some t := fun h =>
        let ⟨q, hq, ht⟩ := ih h
        ⟨q, List.mem_cons_of_mem p hq, ht⟩
      rw [tagsAt] at h
      split at h
      · rcases List.mem_append.mp h with hfirst | hrest
        · exact ⟨p, List.mem_cons_self, Option.mem_toList.mp hfirst⟩
        · exact hlater hrest
      · exact hlater h

theorem exists_visit_of_mem_tagsAlong :
    ∀ {visits : List Syntax.Visit} {seen : List TagSite}, t ∈ tagsAlong l path content visits seen →
      ∃ v ∈ visits, ∃ p ∈ l.patterns, tagAt? l path content v p = some t := by
  intro visits
  induction visits with
  | nil =>
      intro seen h
      cases h
  | cons v vs ih =>
      intro seen h
      rw [tagsAlong] at h
      rcases List.mem_append.mp h with hfirst | hrest
      · exact ⟨v, List.mem_cons_self, exists_pattern_of_mem_tagsAt hfirst⟩
      · obtain ⟨w, hw, hfound⟩ := ih hrest
        exact ⟨w, List.mem_cons_of_mem v hw, hfound⟩

/-- A tag was found at a node by a pattern, or it stands for a word of the text. -/
theorem found_or_word_of_mem_tagsOfVisits {visits : List Syntax.Visit}
    (h : t ∈ tagsOfVisits l path content visits) :
    (∃ v ∈ visits, ∃ p ∈ l.patterns, tagAt? l path content v p = some t)
      ∨ ∃ name ∈ Identifiers.ofText content,
        t = .reference { path, name, tagType := unknownTagType, span := none, scope := [] } := by
  unfold tagsOfVisits at h
  dsimp only at h
  split at h
  · rcases List.mem_append.mp h with hfound | hword
    · exact .inl (exists_visit_of_mem_tagsAlong hfound)
    · obtain ⟨name, hname, rfl⟩ := List.mem_map.mp hword
      exact .inr ⟨name, hname, rfl⟩
  · exact .inl (exists_visit_of_mem_tagsAlong h)

theorem path_of_tagAt? {v : Syntax.Visit} {p : Syntax.Pattern}
    (h : tagAt? l path content v p = some t) : t.path = path := by
  unfold tagAt? at h
  split at h
  · obtain ⟨name, -, rfl⟩ := Option.map_eq_some_iff.mp h
    dsimp only
    split <;> rfl
  · cases h

/-- All tags of a file are in that file. -/
theorem path_of_mem_tagsOfVisits {visits : List Syntax.Visit}
    (h : t ∈ tagsOfVisits l path content visits) : t.path = path := by
  rcases found_or_word_of_mem_tagsOfVisits h with ⟨v, -, p, -, hfound⟩ | ⟨name, -, rfl⟩
  · exact path_of_tagAt? hfound
  · rfl

end

namespace CodeGraph

theorem definition_of_locate {l : Language} {visits : List Syntax.Visit} {content : String}
    {d : Definition} {found : Located} (h : locate l visits content d = some found) :
    found.definition = d := by
  simp only [locate, bind, Option.bind_eq_some_iff, pure, Option.some.injEq] at h
  obtain ⟨category, -, name, -, node, -, source, -, rfl⟩ := h
  rfl

/-- What is located in a file is in that file. -/
theorem path_of_mem_located {f : SourceFile} {d : Located} (h : d ∈ (extract f).located) :
    d.definition.path = f.path := by
  unfold extract at h
  split at h
  · cases h
  · obtain ⟨definition, hdefinition, hlocate⟩ := List.mem_filterMap.mp h
    obtain ⟨t, ht, htag⟩ := List.mem_filterMap.mp hdefinition
    rw [definition_of_locate hlocate, ← path_of_mem_tagsOfVisits ht]
    cases t with
    | definition e =>
        cases htag
        rfl
    | reference r => cases htag

-- ==================================================================== names

/-- What follows the last dot of a text. -/
def lastWord (text : String) : String :=
  String.ofList (text.toList.reverse.takeWhile (· ≠ '.')).reverse

theorem lastWord_intercalate {scope : List String} {name : String} (h : '.' ∉ name.toList) :
    lastWord (String.intercalate "." (scope ++ [name])) = name := by
  have hname : ∀ c ∈ name.toList.reverse, decide (c ≠ '.') = true := by
    intro c hc
    rw [List.mem_reverse] at hc
    simp only [decide_eq_true_eq]
    exact fun heq => h (heq ▸ hc)
  unfold lastWord
  by_cases hscope : scope = []
  · subst hscope
    rw [List.nil_append, String.intercalate_singleton]
    rw [List.takeWhile_eq_self_iff.mpr hname, List.reverse_reverse, String.ofList_toList]
  · rw [String.intercalate_append_of_ne_nil hscope (by simp), String.intercalate_singleton]
    have hsplit : (String.intercalate "." scope ++ "." ++ name).toList.reverse
        = name.toList.reverse ++ '.' :: (String.intercalate "." scope).toList.reverse := by
      simp
    rw [hsplit, List.takeWhile_append_of_pos hname]
    simp

/-- In one file, definitions of the same qualified name have the same name. -/
theorem name_eq_of_qualifiedName {d e : Definition} (hpath : d.path = e.path)
    (hd : '.' ∉ d.name.toList) (he : '.' ∉ e.name.toList)
    (h : qualifiedName d = qualifiedName e) : d.name = e.name := by
  unfold qualifiedName at h
  rw [hpath, String.append_right_inj] at h
  calc d.name = lastWord (String.intercalate "." (d.scope ++ [d.name])) :=
        (lastWord_intercalate hd).symm
    _ = lastWord (String.intercalate "." (e.scope ++ [e.name])) := by rw [h]
    _ = e.name := lastWord_intercalate he

-- =================================================================== owners

/-- The definition at a position holds a row, and of the definitions that do
it is the shortest, and the first of the shortest ones. -/
def Innermost (located : List Located) (row i : Nat) : Prop :=
  ∃ d, located[i]? = some d ∧ d.span.contains row
    ∧ ∀ j e, located[j]? = some e → e.span.contains row →
      d.span.length < e.span.length ∨ d.span.length = e.span.length ∧ i ≤ j

theorem Innermost.unique {located : List Located} {row i j : Nat}
    (hi : Innermost located row i) (hj : Innermost located row j) : i = j := by
  obtain ⟨d, hd, hdrow, hdbest⟩ := hi
  obtain ⟨e, he, herow, hebest⟩ := hj
  rcases hdbest j e he herow with hlt | ⟨heq, hle⟩
  · rcases hebest i d hd hdrow with hgt | ⟨heq, -⟩ <;> omega
  · rcases hebest i d hd hdrow with hgt | ⟨-, hge⟩ <;> omega

/-- The sort keeps elements of equal size in their order, so the first element
is the smallest one that stands first. -/
theorem head?_sortBySize {α : Type} (size : α → Nat) {p : α × Nat} :
    ∀ {ps : List (α × Nat)}, ps.Pairwise (fun a b => a.2 < b.2) →
      (ps.mergeSort fun a b => decide (size a.1 ≤ size b.1)).head? = some p →
      ∀ q ∈ ps, size p.1 < size q.1 ∨ size p.1 = size q.1 ∧ p.2 ≤ q.2 := by
  have htrans : ∀ a b c : α × Nat, decide (size a.1 ≤ size b.1) = true →
      decide (size b.1 ≤ size c.1) = true → decide (size a.1 ≤ size c.1) = true := by
    intro a b c hab hbc
    simp only [decide_eq_true_eq] at hab hbc ⊢
    omega
  have htotal : ∀ a b : α × Nat,
      (decide (size a.1 ≤ size b.1) || decide (size b.1 ≤ size a.1)) = true := by
    intro a b
    simp only [Bool.or_eq_true, decide_eq_true_eq]
    omega
  intro ps
  induction ps with
  | nil =>
      intro _ _ q hq
      cases hq
  | cons a ps ih =>
      intro hplaces hhead q hq
      obtain ⟨larger, rest, hsort, hrest, hbelow⟩ := List.mergeSort_cons htrans htotal a ps
      have hsorted := List.pairwise_mergeSort htrans htotal (a :: ps)
      rw [hsort] at hhead hsorted
      cases larger with
      | nil =>
          -- `a` itself comes first, and every other element has a later place
          rw [List.nil_append, List.head?_cons, Option.some.injEq] at hhead
          subst hhead
          rcases List.mem_cons.mp hq with rfl | hq
          · exact .inr ⟨rfl, Nat.le_refl _⟩
          · have hplace : a.2 < q.2 := List.rel_of_pairwise_cons hplaces hq
            have hmem : q ∈ rest := by
              rw [List.nil_append] at hrest
              exact hrest ▸ List.mem_mergeSort.mpr hq
            have hle := List.rel_of_pairwise_cons hsorted hmem
            simp only [decide_eq_true_eq] at hle
            omega
      | cons b others =>
          rw [List.cons_append, List.head?_cons, Option.some.injEq] at hhead
          subst hhead
          rcases List.mem_cons.mp hq with rfl | hq
          · have hgt := hbelow b (by simp)
            simp only [Bool.not_eq_true', decide_eq_false_iff_not] at hgt
            omega
          · exact ih hplaces.of_cons (by rw [hrest]; rfl) q hq

theorem innermostDefinition?_eq_some_iff {located : List Located} {row i : Nat} :
    innermostDefinition? row located = some i ↔ Innermost located row i := by
  have hplaces : (located.zipIdx.filter fun p => p.1.span.contains row).Pairwise
      fun a b => a.2 < b.2 := by
    refine List.Pairwise.filter _ (List.pairwise_map.mp ?_)
    rw [List.zipIdx_map_snd]
    exact List.pairwise_lt_range' 1
  have hmem : ∀ p, p ∈ located.zipIdx.filter (fun p => p.1.span.contains row)
      ↔ located[p.2]? = some p.1 ∧ p.1.span.contains row := by
    intro p
    rw [List.mem_filter, List.mem_zipIdx_iff_getElem?]
  -- the first element of the sort is the innermost definition
  have hhead : ∀ p, ((located.zipIdx.filter fun p => p.1.span.contains row).mergeSort
      fun a b => decide (a.1.span.length ≤ b.1.span.length)).head? = some p →
      Innermost located row p.2 := by
    intro p hp
    obtain ⟨hat, hrow⟩ := (hmem p).mp (List.mem_mergeSort.mp (List.mem_of_mem_head? hp))
    refine ⟨p.1, hat, hrow, fun j e he herow => ?_⟩
    exact head?_sortBySize (fun d : Located => d.span.length) hplaces hp (e, j)
      ((hmem (e, j)).mpr ⟨he, herow⟩)
  unfold innermostDefinition?
  rw [Option.map_eq_some_iff]
  constructor
  · rintro ⟨p, hp, rfl⟩
    exact hhead p hp
  · intro h
    obtain ⟨d, hd, hrow, hbest⟩ := h
    have hne : ((located.zipIdx.filter fun p => p.1.span.contains row).mergeSort
        fun a b => decide (a.1.span.length ≤ b.1.span.length)) ≠ [] :=
      List.ne_nil_of_mem (List.mem_mergeSort.mpr ((hmem (d, i)).mpr ⟨hd, hrow⟩))
    obtain ⟨p, hp⟩ := Option.ne_none_iff_exists'.mp (mt List.head?_eq_none_iff.mp hne)
    exact ⟨p, hp, (hhead p hp).unique ⟨d, hd, hrow, hbest⟩⟩

-- ============================================================= extractions

/-- The tags of a file as it was read. -/
def fileTags (f : SourceFile) : List Tag :=
  match f.language.parse? f.content with
  | none => []
  | some tree => tagsOfVisits f.language f.path f.content tree.visits

/-- What an extraction holds of its file: the references in tag order, some of
the definitions in tag order, and with every reference the innermost of these
definitions around its first row. -/
structure Reads (f : SourceFile) (e : Extraction) : Prop where
  file : e.file = fileNode f
  references : e.references.map (·.1) = (fileTags f).filterMap Tag.reference?
  located : (e.located.map (·.definition)).Sublist ((fileTags f).filterMap Tag.definition?)
  owner : ∀ r own, (r, own) ∈ e.references → ∀ i,
    own = some i ↔ ∃ s, r.span = some s ∧ Innermost e.located s.first i

theorem located_sublist (l : Language) (visits : List Syntax.Visit) (content : String)
    (ds : List Definition) :
    ((ds.filterMap (locate l visits content)).map (·.definition)).Sublist ds := by
  induction ds with
  | nil => exact List.Sublist.refl _
  | cons d ds ih =>
      cases hd : locate l visits content d with
      | none =>
          rw [List.filterMap_cons_none hd]
          exact ih.cons d
      | some found =>
          rw [List.filterMap_cons_some hd, List.map_cons, definition_of_locate hd]
          exact ih.cons_cons d

theorem reads_extract (f : SourceFile) : Reads f (extract f) := by
  unfold extract
  cases hparse : f.language.parse? f.content with
  | none =>
      have htags : fileTags f = [] := by
        unfold fileTags
        rw [hparse]
      refine ⟨rfl, ?_, List.nil_sublist _, fun r own h => by cases h⟩
      rw [htags]
      rfl
  | some tree =>
      have htags : fileTags f = tagsOfVisits f.language f.path f.content tree.visits := by
        unfold fileTags
        rw [hparse]
      refine ⟨rfl, ?_, ?_, fun r own h i => ?_⟩
      · rw [htags, List.map_map]
        exact List.map_id _
      · rw [htags]
        exact located_sublist _ _ _ _
      · obtain ⟨r', -, heq⟩ := List.mem_map.mp h
        cases heq
        simp only [Option.bind_eq_some_iff, innermostDefinition?_eq_some_iff]

end CodeGraph

end CodeMap
