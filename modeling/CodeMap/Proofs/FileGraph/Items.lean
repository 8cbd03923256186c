/-
What a ranking lists.

A ranking first lists definitions, group by group, and then files. A group is
a name as one file defines it, and there is a group for each edge of the graph
to that file with that name. Of the definitions of a tag list, those of a
wanted name belong to exactly one group (`exists_group_iff`), so going through
the groups meets each of them once (`flatMap_filter_perm`), and leaving out the
groups of files in focus leaves out the definitions of these files.

The files that follow are taken from the ends of edges and from the other
files of the reader's interest. What is in focus or owns one of the listed
definitions is left out, and so are repetitions.

None of this depends on the ranks. They only decide the order of the groups,
and for that it is enough that they can be compared at all. Groups that differ
never compare equal, so it does not matter in which order their scores come, and a
table that lists them in any order will do (`arrange_eq_of_perm`).
-/
import CodeMap.Proofs.FileGraph.Links
import Mathlib.Algebra.Order.Ring.Unbundled.Rat

namespace CodeMap

open Std RankNumber

-- =================================================================== groups

/-- Going through groups that have no element in common meets every element of
some group once. -/
theorem flatMap_filter_perm {α β : Type} (belongs : β → α → Bool) (xs : List α) :
    ∀ {bs : List β},
      bs.Pairwise (fun b c => ∀ x ∈ xs, belongs b x = true → belongs c x = false) →
      (bs.flatMap fun b => xs.filter (belongs b)).Perm
        (xs.filter fun x => bs.any fun b => belongs b x) := by
  intro bs
  induction bs with
  | nil =>
      intro _
      simp
  | cons b bs ih =>
      intro h
      rw [List.flatMap_cons]
      refine ((ih h.of_cons).append_left _).trans ?_
      have hparts := List.filter_append_perm (belongs b)
        (xs.filter fun x => (b :: bs).any fun c => belongs c x)
      rw [List.filter_filter, List.filter_filter] at hparts
      refine (List.Perm.of_eq ?_).trans hparts
      congr 1
      · refine List.filter_congr fun x _ => ?_
        cases hb : belongs b x <;> simp [hb]
      · refine List.filter_congr fun x hx => ?_
        cases hb : belongs b x with
        | false => simp [hb]
        | true =>
            have hnone : (bs.any fun c => belongs c x) = false := by
              refine List.any_eq_false.mpr fun c hc => ?_
              rw [List.rel_of_pairwise_cons h hc x hx hb]
              decide
            simp [hb, hnone]

namespace Tag

/-- Some reference has the name; without any reference every name is wanted. -/
def Wanted (tags : List Tag) (name : String) : Prop :=
  references tags = [] ∨ ∃ r ∈ references tags, r.name = name

instance (tags : List Tag) (name : String) : Decidable (Wanted tags name) :=
  inferInstanceAs (Decidable (_ ∨ _))

/-- A defined name is used by some file exactly if it is wanted. -/
theorem exists_usedIn_iff {tags : List Tag} {name : String} {p : Path}
    (h : DefinedIn tags name p) : (∃ a, UsedIn tags name a) ↔ Wanted tags name := by
  constructor
  · rintro ⟨a, ⟨r, hr, hname, -⟩ | ⟨hnone, -⟩⟩
    · exact .inr ⟨r, hr, hname⟩
    · exact .inl hnone
  · rintro (hnone | ⟨r, hr, hname⟩)
    · exact ⟨p, .inr ⟨hnone, h⟩⟩
    · exact ⟨r.path, .inl ⟨r, hr, hname, Path.same_refl _⟩⟩

end Tag

open Tag

namespace FileGraph

/-- Whether a definition belongs to a group. -/
def belongs (g : FileGraph) (group : Group g.files.length) (d : Definition) : Bool :=
  d.path.same (g.file group.file) && decide (d.name = group.name)

/-- A group holds the definitions of its name in its file. -/
theorem belongs_iff {g : FileGraph} {group : Group g.files.length} {d : Definition} :
    g.belongs group d = true
      ↔ d.path.components = (g.file group.file).components ∧ d.name = group.name := by
  rw [belongs, Bool.and_eq_true, decide_eq_true_eq, Path.same_iff]

/-- Definitions by their place in a file. -/
def placeOrder (a b : Definition) : Ordering :=
  (compare a.span.first b.span.first).then (compare a.bytes.1 b.bytes.1)

theorem placeOrder_eq :
    placeOrder = compareLex (compareOn fun d => d.span.first) (compareOn fun d => d.bytes.1) := rfl

instance : TransCmp placeOrder := placeOrder_eq ▸ inferInstance

/-- The definitions of a group are those that belong to it, rearranged. -/
theorem definitionsOf_perm (g : FileGraph) (group : Group g.files.length) :
    (g.definitionsOf group).Perm (g.definitions.filter (g.belongs group)) := by
  refine (List.mergeSort_perm _ _).trans ?_
  unfold belongs
  rw [← List.filter_filter]
  exact (Resolution.map_candidates_perm _ _).filter _

theorem mem_definitionsOf {g : FileGraph} {group : Group g.files.length} {d : Definition} :
    d ∈ g.definitionsOf group ↔ d ∈ g.definitions ∧ g.belongs group d = true := by
  rw [(definitionsOf_perm g group).mem_iff, List.mem_filter]

/-- The definitions of a group are in the order of their places. -/
theorem pairwise_definitionsOf (g : FileGraph) (group : Group g.files.length) :
    (g.definitionsOf group).Pairwise fun a b => (placeOrder a b).isLE :=
  @pairwise_sort _ _ placeOrder _ id _

/-- There is a group for every target and name of an edge. -/
theorem mem_groups_iff {g : FileGraph} {group : Group g.files.length} :
    group ∈ g.groups ↔ ∃ e ∈ g.edges, e.target = group.file ∧ e.name = group.name := by
  unfold groups
  rw [List.mem_eraseDups, List.mem_map]
  constructor
  · rintro ⟨e, he, rfl⟩
    exact ⟨e, he, rfl, rfl⟩
  · rintro ⟨e, he, hfile, hname⟩
    exact ⟨e, he, by rw [hfile, hname]⟩

/-- No group comes up twice. -/
theorem nodup_groups (g : FileGraph) : g.groups.Nodup := by
  refine (pairwise_eraseDupsBy _ _).imp fun {a b} h heq => ?_
  rw [heq] at h
  exact absurd h (by simp)

section Build

variable {tags : List Tag} {interest : Interest}

/-- The wanted names that a file defines have groups, and no others. -/
theorem exists_group_iff {name : String} {p : Path} :
    (∃ group ∈ (build tags interest).groups, group.name = name
        ∧ ((build tags interest).file group.file).components = p.components)
      ↔ Wanted tags name ∧ DefinedIn tags name p := by
  constructor
  · rintro ⟨group, hgroup, rfl, hfile⟩
    obtain ⟨e, he, htarget, hname⟩ := mem_groups_iff.mp hgroup
    have hlink := (exists_edge_iff (a := (build tags interest).file e.source) (b := p)).mp
      ⟨e, he, by rw [key, htarget, hname, hfile]⟩
    exact ⟨(exists_usedIn_iff hlink.2).mp ⟨_, hlink.1⟩, hlink.2⟩
  · rintro ⟨hwanted, hdefined⟩
    obtain ⟨a, hused⟩ := (exists_usedIn_iff hdefined).mpr hwanted
    obtain ⟨e, he, hkey⟩ := exists_edge_iff.mpr ⟨hused, hdefined⟩
    obtain ⟨hname, -, hdefiner⟩ := LinkKey.mk.injEq .. ▸ hkey
    exact ⟨⟨e.target, e.name⟩, mem_groups_iff.mpr ⟨e, he, rfl, rfl⟩, hname, hdefiner⟩

/-- A file and a name have one group. -/
theorem group_unique {a b : Group (build tags interest).files.length}
    (hfile : ((build tags interest).file a.file).components
      = ((build tags interest).file b.file).components)
    (hname : a.name = b.name) : a = b := by
  have hnumber : a.file = b.file := file_injective tags interest hfile
  cases a
  cases b
  simp_all

/-- Groups that share a definition are the same. -/
theorem group_of_belongs {a b : Group (build tags interest).files.length} {d : Definition}
    (ha : (build tags interest).belongs a d = true)
    (hb : (build tags interest).belongs b d = true) : a = b := by
  obtain ⟨hfa, hna⟩ := belongs_iff.mp ha
  obtain ⟨hfb, hnb⟩ := belongs_iff.mp hb
  exact group_unique (hfa.symm.trans hfb) (hna.symm.trans hnb)

theorem definitionsOf_ne_nil {group : Group (build tags interest).files.length}
    (h : group ∈ (build tags interest).groups) :
    (build tags interest).definitionsOf group ≠ [] := by
  obtain ⟨-, d, hd, hname, hpath⟩ :=
    exists_group_iff.mp ⟨group, h, rfl, rfl⟩
  exact List.ne_nil_of_mem
    (mem_definitionsOf.mpr ⟨hd, belongs_iff.mpr ⟨Path.same_iff.mp hpath, hname⟩⟩)

end Build

-- ================================================================ the order

section Order

variable {α : Type} [RankNumber α]

/-- A group comes before another by a higher score, else by file, else by
name. -/
def Precedes (g : FileGraph) (score : Group g.files.length → α) (a b : Group g.files.length) :
    Prop :=
  below (score b) (score a) = true
    ∨ below (score a) (score b) = false
      ∧ ((g.file a.file).order (g.file b.file) = .lt
        ∨ (g.file a.file).same (g.file b.file) = true ∧ compare a.name b.name = .lt)

theorem orderDescending_eq_eq {a b : α} (h : orderDescending a b = .eq) :
    below a b = false := by
  unfold orderDescending at h
  cases hab : below a b with
  | false => rfl
  | true =>
      rw [hab] at h
      split at h <;> cases h

theorem orderDescending_eq_lt {a b : α} (h : orderDescending a b = .lt) : below b a = true := by
  unfold orderDescending at h
  split at h
  next hba => exact hba
  next => split at h <;> cases h

/-- What is sorted before another group precedes it, unless the two have the
same file and name. -/
theorem precedes_of_isLE {g : FileGraph} {score : Group g.files.length → α}
    {a b : Group g.files.length} (h : (g.orderScored (a, score a) (b, score b)).isLE)
    (hdiffer : (g.file a.file).components = (g.file b.file).components → a.name ≠ b.name) :
    g.Precedes score a b := by
  unfold orderScored at h
  cases hscore : orderDescending (score a) (score b) with
  | lt => exact .inl (orderDescending_eq_lt hscore)
  | gt =>
      rw [hscore] at h
      cases h
  | eq =>
      refine .inr ⟨orderDescending_eq_eq hscore, ?_⟩
      cases hfile : (g.file a.file).order (g.file b.file) with
      | lt => exact .inl rfl
      | gt =>
          rw [hscore, hfile] at h
          cases h
      | eq =>
          have hcomponents := Path.order_eq_eq_iff.mp hfile
          refine .inr ⟨Path.same_iff.mpr hcomponents, ?_⟩
          rw [hscore, hfile] at h
          refine lt_of_isLE_of_ne h fun heq => ?_
          exact hdiffer hcomponents (LawfulEqOrd.eq_of_compare heq)

theorem orderScored_eq (g : FileGraph) : @orderScored α _ g
    = compareLex (Ordering.byKey (·.2) orderDescending)
        (compareLex (Ordering.byKey (fun s => g.file s.1.file) Path.order)
          (compareOn fun s => s.1.name)) := rfl

instance [TransCmp (@orderDescending α _)] (g : FileGraph) : TransCmp (@orderScored α _ g) :=
  @orderScored_eq α _ g ▸ inferInstance

/-- The groups in the order of their scores. -/
def ordered (g : FileGraph) (scores : List (Group g.files.length × α)) :
    List (Group g.files.length) :=
  (scores.mergeSort fun a b => (g.orderScored a b).isLE).map (·.1)

/-- Every group with its score. -/
def scored (g : FileGraph) (score : Group g.files.length → α) :
    List (Group g.files.length × α) :=
  g.groups.map fun group => (group, score group)

theorem ordered_perm (g : FileGraph) (score : Group g.files.length → α) :
    (g.ordered (g.scored score)).Perm g.groups := by
  refine ((List.mergeSort_perm _ _).map _).trans (List.Perm.of_eq ?_)
  rw [scored, List.map_map]
  exact List.map_id _

theorem nodup_ordered (g : FileGraph) (score : Group g.files.length → α) :
    (g.ordered (g.scored score)).Nodup :=
  (g.ordered_perm score).nodup_iff.mpr (nodup_groups g)

theorem pairwise_ordered [TransCmp (@orderDescending α _)] (tags : List Tag) (interest : Interest)
    (score : Group (build tags interest).files.length → α) :
    ((build tags interest).ordered ((build tags interest).scored score)).Pairwise
      ((build tags interest).Precedes score) := by
  have hnodup := nodup_ordered (build tags interest) score
  have hsorted := @pairwise_sort _ _ ((build tags interest).orderScored) _ id
    ((build tags interest).scored score)
  refine List.pairwise_map.mpr
    ((hsorted.and (List.pairwise_map.mp hnodup)).imp_of_mem fun {a b} ha hb hab => ?_)
  obtain ⟨x, -, rfl⟩ := List.mem_map.mp (List.mem_mergeSort.mp ha)
  obtain ⟨y, -, rfl⟩ := List.mem_map.mp (List.mem_mergeSort.mp hb)
  exact precedes_of_isLE hab.1 fun hfile hname => hab.2 (group_unique hfile hname)

/-- Two groups that compare equal have the same file and name, so they are the
same group. Sorting forgets in which order the groups came. -/
theorem ordered_eq_of_perm [TransCmp (@orderDescending α _)] {tags : List Tag}
    {interest : Interest} {score : Group (build tags interest).files.length → α}
    {scores : List (Group (build tags interest).files.length × α)}
    (h : scores.Perm ((build tags interest).scored score)) :
    (build tags interest).ordered scores
      = (build tags interest).ordered ((build tags interest).scored score) := by
  unfold ordered
  refine congrArg _ (@sort_eq_of_perm _ _ (build tags interest).orderScored _ id _ _ h ?_)
  intro a ha b hb heq
  obtain ⟨x, -, rfl⟩ := List.mem_map.mp (h.mem_iff.mp ha)
  obtain ⟨y, -, rfl⟩ := List.mem_map.mp (h.mem_iff.mp hb)
  rw [orderScored_eq] at heq
  obtain ⟨-, hfile, hname⟩ : orderDescending (score x) (score y) = .eq
      ∧ ((build tags interest).file x.file).order ((build tags interest).file y.file) = .eq
      ∧ compare x.name y.name = .eq := by
    have hscore := compareLex_eq_eq.mp heq
    exact ⟨hscore.1, compareLex_eq_eq.mp hscore.2⟩
  have hgroup : x = y :=
    group_unique (Path.order_eq_eq_iff.mp hfile) (LawfulEqOrd.eq_of_compare hname)
  rw [hgroup]

/-- What is listed depends on which groups have which scores. In what order a table
of the scores is gone through makes no difference. -/
theorem arrange_eq_of_perm [TransCmp (@orderDescending α _)] {tags : List Tag}
    {interest : Interest} (ranks : Vector α (build tags interest).files.length)
    {score : Group (build tags interest).files.length → α}
    {scores : List (Group (build tags interest).files.length × α)}
    (h : scores.Perm ((build tags interest).scored score)) :
    (build tags interest).arrange interest ranks scores
      = (build tags interest).arrange interest ranks ((build tags interest).scored score) := by
  have hordered := ordered_eq_of_perm h
  unfold ordered at hordered
  unfold arrange
  rw [hordered]

/-- A ranking may read the scores it computes in any order. -/
theorem rankedItems_eq_of_perm [TransCmp (@orderDescending α _)] (root : Nat → α)
    {tags : List Tag} {interest : Interest}
    {scores : List (Group (build tags interest).files.length × α)}
    (h : scores.Perm
      ((build tags interest).scores root (ranks root interest (build tags interest)))) :
    (build tags interest).arrange interest (ranks root interest (build tags interest)) scores
      = rankedItems root interest (build tags interest) :=
  arrange_eq_of_perm _ h

end Order

-- ============================================================== definitions

section Listing

variable {α : Type} [RankNumber α] {tags : List Tag} {interest : Interest}

/-- A definition that a ranking lists. -/
def Listed (tags : List Tag) (interest : Interest) (d : Definition) : Prop :=
  ¬d.path.among interest.focus ∧ Wanted tags d.name

instance (tags : List Tag) (interest : Interest) (d : Definition) :
    Decidable (Listed tags interest d) :=
  inferInstanceAs (Decidable (_ ∧ _))

/-- The groups that a ranking lists. -/
def shown (interest : Interest) (g : FileGraph) (scores : List (Group g.files.length × α)) :
    List (Group g.files.length) :=
  (g.ordered scores).filter fun group => !(g.file group.file).among interest.focus

theorem mem_shown_iff {g : FileGraph} {score : Group g.files.length → α}
    {group : Group g.files.length} : group ∈ g.shown interest (g.scored score)
      ↔ group ∈ g.groups ∧ ¬(g.file group.file).among interest.focus := by
  rw [shown, List.mem_filter, (ordered_perm g score).mem_iff]
  simp

/-- The listed definitions are those that belong to some shown group. -/
theorem exists_shown_iff (score : Group (build tags interest).files.length → α) {d : Definition}
    (hd : d ∈ Tag.definitions tags) :
    (∃ group ∈ (build tags interest).shown interest ((build tags interest).scored score),
        (build tags interest).belongs group d = true) ↔ Listed tags interest d := by
  constructor
  · rintro ⟨group, hgroup, hbelongs⟩
    obtain ⟨hmem, hfocus⟩ := mem_shown_iff.mp hgroup
    obtain ⟨hfile, hname⟩ := belongs_iff.mp hbelongs
    rw [← Path.among_congr hfile] at hfocus
    exact ⟨hfocus, (exists_group_iff.mp ⟨group, hmem, hname.symm, hfile.symm⟩).1⟩
  · rintro ⟨hfocus, hwanted⟩
    obtain ⟨group, hmem, hname, hfile⟩ := exists_group_iff.mpr
      ⟨hwanted, d, hd, rfl, Path.same_refl d.path⟩
    rw [← Path.among_congr hfile] at hfocus
    exact ⟨group, mem_shown_iff.mpr ⟨hmem, hfocus⟩, belongs_iff.mpr ⟨hfile.symm, hname.symm⟩⟩

theorem definitions_shown_perm (score : Group (build tags interest).files.length → α) :
    (((build tags interest).shown interest ((build tags interest).scored score)).flatMap
        (build tags interest).definitionsOf).Perm
      ((Tag.definitions tags).filter fun d => Listed tags interest d) := by
  refine (List.Perm.flatMap_left _ fun group _ => definitionsOf_perm _ group).trans ?_
  have hnodup : ((build tags interest).shown interest
      ((build tags interest).scored score)).Nodup := (nodup_ordered _ score).filter _
  refine (flatMap_filter_perm _ _ (hnodup.imp fun {a b} hne d _ ha => ?_)).trans
    (List.Perm.of_eq (List.filter_congr fun d hd => ?_))
  · exact Bool.eq_false_iff.mpr fun hb => hne (group_of_belongs ha hb)
  · rw [Bool.eq_iff_iff, List.any_eq_true, decide_eq_true_eq]
    exact exists_shown_iff score hd

-- ==================================================================== files

/-- A path is an end of some edge. -/
def IsEnd (g : FileGraph) (p : Path) : Prop :=
  ∃ e ∈ g.edges, (g.file e.source).same p = true ∨ (g.file e.target).same p = true

theorem exists_mem_rankedFiles_iff {ranks : Vector α (build tags interest).files.length}
    {p : Path} : (∃ q ∈ (build tags interest).rankedFiles ranks, q.components = p.components)
      ↔ (build tags interest).IsEnd p := by
  unfold rankedFiles
  constructor
  · rintro ⟨q, hq, hqp⟩
    obtain ⟨v, -, rfl⟩ := List.mem_map.mp hq
    obtain ⟨e, he, rfl | rfl⟩ := exists_edge_at v
    · exact ⟨e, he, .inl (Path.same_iff.mpr hqp)⟩
    · exact ⟨e, he, .inr (Path.same_iff.mpr hqp)⟩
  · have hmem : ∀ v, (build tags interest).file v ∈ (build tags interest).rankedFiles ranks :=
      fun v => List.mem_map_of_mem (List.mem_mergeSort.mpr (List.mem_finRange v))
    rintro ⟨e, -, hsame | hsame⟩
    · exact ⟨_, hmem e.source, Path.same_iff.mp hsame⟩
    · exact ⟨_, hmem e.target, Path.same_iff.mp hsame⟩

/-- The files that own a listed definition are those of the shown groups. -/
theorem among_owners_iff (score : Group (build tags interest).files.length → α) {p : Path} :
    p.among (((build tags interest).shown interest ((build tags interest).scored score)).map
        fun group => (build tags interest).file group.file) = true
      ↔ ∃ d ∈ Tag.definitions tags, Listed tags interest d ∧ d.path.same p = true := by
  rw [Path.among_iff]
  constructor
  · rintro ⟨q, hq, hqp⟩
    obtain ⟨group, hgroup, rfl⟩ := List.mem_map.mp hq
    obtain ⟨d, hd⟩ := List.exists_mem_of_ne_nil _
      (definitionsOf_ne_nil (mem_shown_iff.mp hgroup).1)
    obtain ⟨hd, hbelongs⟩ := mem_definitionsOf.mp hd
    refine ⟨d, hd, (exists_shown_iff score hd).mp ⟨group, hgroup, hbelongs⟩, ?_⟩
    exact Path.same_iff.mpr ((belongs_iff.mp hbelongs).1.trans hqp)
  · rintro ⟨d, hd, hlisted, hsame⟩
    obtain ⟨group, hgroup, hbelongs⟩ := (exists_shown_iff score hd).mpr hlisted
    exact ⟨_, List.mem_map_of_mem hgroup,
      (belongs_iff.mp hbelongs).1.symm.trans (Path.same_iff.mp hsame)⟩

/-- The files that a ranking lists after its groups. -/
def trailing (interest : Interest) (g : FileGraph) (ranks : Vector α g.files.length)
    (groups : List (Group g.files.length)) : List Path :=
  Path.firstUses ((g.rankedFiles ranks ++ Path.sortedSet interest.other).filter fun p =>
    !p.among interest.focus && !p.among (groups.map fun group => g.file group.file))

theorem exists_trailing_iff {g : FileGraph} {ranks : Vector α g.files.length}
    {groups : List (Group g.files.length)} {p : Path} :
    (∃ q ∈ g.trailing interest ranks groups, q.components = p.components)
      ↔ ((∃ q ∈ g.rankedFiles ranks, q.components = p.components) ∨ p.among interest.other = true)
        ∧ ¬p.among interest.focus
        ∧ ¬p.among (groups.map fun group => g.file group.file) := by
  have hcongr : ∀ {q : Path}, q.components = p.components →
      ((!q.among interest.focus && !q.among (groups.map fun group => g.file group.file)) = true
        ↔ ¬p.among interest.focus
          ∧ ¬p.among (groups.map fun group => g.file group.file)) := by
    intro q hqp
    rw [Path.among_congr hqp, Path.among_congr hqp]
    simp
  constructor
  · rintro ⟨q, hq, hqp⟩
    obtain ⟨hmem, hkept⟩ := List.mem_filter.mp (Path.mem_of_mem_firstUses hq)
    refine ⟨?_, (hcongr hqp).mp hkept⟩
    rcases List.mem_append.mp hmem with hranked | hother
    · exact .inl ⟨q, hranked, hqp⟩
    · exact .inr (Path.among_iff.mpr ⟨q, Path.mem_of_mem_sortedSet hother, hqp⟩)
  · rintro ⟨hsource, hkept⟩
    have hfound : ∃ q ∈ g.rankedFiles ranks ++ Path.sortedSet interest.other,
        q.components = p.components := by
      rcases hsource with ⟨q, hq, hqp⟩ | hother
      · exact ⟨q, List.mem_append_left _ hq, hqp⟩
      · obtain ⟨o, ho, hop⟩ := Path.among_iff.mp hother
        obtain ⟨q, hq, hqo⟩ := Path.exists_mem_sortedSet ho
        exact ⟨q, List.mem_append_right _ hq, hqo.trans hop⟩
    obtain ⟨q, hq, hqp⟩ := hfound
    obtain ⟨r, hr, hrq⟩ : ∃ r ∈ g.trailing interest ranks groups, r.components = q.components :=
      Path.exists_mem_firstUses (List.mem_filter.mpr ⟨hq, (hcongr hqp).mpr hkept⟩)
    exact ⟨r, hr, hrq.trans hqp⟩

-- ================================================================== listing

theorem arrange_eq {g : FileGraph} (h : g.edges ≠ []) (ranks : Vector α g.files.length)
    (scores : List (Group g.files.length × α)) : g.arrange interest ranks scores
      = ((g.shown interest scores).flatMap g.definitionsOf).map .definition
        ++ (g.trailing interest ranks (g.shown interest scores)).map .file := by
  unfold arrange
  rw [if_neg (mt List.isEmpty_iff.mp h), List.map_flatMap]
  rfl

/-- What a ranking of a tag list is to list: groups of definitions, then
files. -/
structure Listing (tags : List Tag) (interest : Interest)
    (score : Group (build tags interest).files.length → α)
    (groups : List (Group (build tags interest).files.length)) (files : List Path) : Prop where
  /-- Groups are in the order of their scores, then of files and names. -/
  ordered : groups.Pairwise ((build tags interest).Precedes score)
  /-- A file and a name have one group. -/
  separate : groups.Pairwise fun a b =>
    ((build tags interest).file a.file).components
      = ((build tags interest).file b.file).components → a.name ≠ b.name
  /-- A group holds definitions of its name in its file. -/
  members : ∀ group ∈ groups, (build tags interest).definitionsOf group ≠ []
    ∧ ∀ d ∈ (build tags interest).definitionsOf group, d.name = group.name
      ∧ d.path.same ((build tags interest).file group.file) = true
  /-- Within a group, definitions are in the order of their places. -/
  places : ∀ group ∈ groups, ((build tags interest).definitionsOf group).Pairwise fun a b =>
    (placeOrder a b).isLE
  /-- All definitions to be listed are, as often as they occur. -/
  definitions : (groups.flatMap (build tags interest).definitionsOf).Perm
    ((Tag.definitions tags).filter fun d => Listed tags interest d)
  /-- No two files are the same. -/
  distinct : files.Pairwise fun p q => p.components ≠ q.components
  /-- The files are the ends of edges and the other files, without those in
  focus and those that own a listed definition. -/
  files_iff : ∀ p : Path, (∃ q ∈ files, q.components = p.components)
    ↔ ((build tags interest).IsEnd p ∨ p.among interest.other = true)
      ∧ ¬p.among interest.focus
      ∧ ¬∃ d ∈ Tag.definitions tags, Listed tags interest d ∧ d.path.same p = true

theorem listing_arrange [TransCmp (@orderDescending α _)]
    (score : Group (build tags interest).files.length → α)
    (ranks : Vector α (build tags interest).files.length) :
    Listing tags interest score
      ((build tags interest).shown interest ((build tags interest).scored score))
      ((build tags interest).trailing interest ranks
        ((build tags interest).shown interest ((build tags interest).scored score))) where
  ordered := (pairwise_ordered tags interest score).filter _
  separate := ((nodup_ordered _ score).filter _).imp fun {a b} hne hfile hname =>
    hne (group_unique hfile hname)
  members group hgroup := by
    refine ⟨definitionsOf_ne_nil (mem_shown_iff.mp hgroup).1, fun d hd => ?_⟩
    obtain ⟨hfile, hname⟩ := belongs_iff.mp (mem_definitionsOf.mp hd).2
    exact ⟨hname, Path.same_iff.mpr hfile⟩
  places group _ := pairwise_definitionsOf _ group
  definitions := definitions_shown_perm score
  distinct := Path.pairwise_firstUses _
  files_iff p := by
    rw [exists_trailing_iff, exists_mem_rankedFiles_iff, among_owners_iff]

/-- A list of items is a listing. -/
def Lists (tags : List Tag) (interest : Interest)
    (score : Group (build tags interest).files.length → α) (items : List RankedItem) : Prop :=
  ∃ groups files,
    items = (groups.flatMap (build tags interest).definitionsOf).map .definition
        ++ files.map .file
      ∧ Listing tags interest score groups files

/-- A ranking loses nothing and repeats nothing.

Suppose that numbers are totally ordered and that the graph of a tag list has
an edge. Whatever ranks its files and whatever scores its groups are given, the
definitions of wanted names outside of the files in focus are listed first, as
often as they occur, group by group: by falling score, then by file and name.
Then come the other files of the graph and of the reader's interest, each once.
In particular this holds of the ranks and scores that a ranking computes. -/
theorem rankedItems_lists_once [TransCmp (@orderDescending α _)]
    (hedges : (build tags interest).edges ≠ []) :
    (∀ (ranks : Vector α (build tags interest).files.length)
        (score : Group (build tags interest).files.length → α),
      Lists tags interest score
        ((build tags interest).arrange interest ranks ((build tags interest).scored score)))
      ∧ ∀ root : Nat → α,
        Lists tags interest
          (score root (build tags interest) (PageRank.outWeights (links root (build tags interest)))
            (ranks root interest (build tags interest)))
          (rankedItems root interest (build tags interest)) := by
  have harrange : ∀ (ranks : Vector α (build tags interest).files.length)
      (score : Group (build tags interest).files.length → α),
      Lists tags interest score
        ((build tags interest).arrange interest ranks ((build tags interest).scored score)) :=
    fun ranks score => ⟨_, _, arrange_eq hedges ranks _, listing_arrange score ranks⟩
  exact ⟨harrange, fun root => harrange _ _⟩

end Listing

-- =================================================================== a case

theorem orderDescending_rat : @orderDescending Rat _ = fun a b => compare b a := by
  funext a b
  unfold orderDescending
  rcases Std.lt_trichotomy a b with hlt | heq | hgt
  · simp [below, hlt, compare_gt_iff_gt.mpr hlt, hlt.le]
  · simp [below, heq]
  · simp [below, hgt, compare_lt_iff_lt.mpr hgt]

instance : TransCmp (@orderDescending Rat _) := orderDescending_rat ▸ inferInstance

/-- Two files that define and use each other's names; one name is defined
twice in one row. -/
def crossedTags : List Tag :=
  [.definition ⟨⟨"a.py"⟩, "f", "function", .of 0 0, (4, 5), []⟩,
    .reference ⟨⟨"b.py"⟩, "f", "call", some (.of 1 1), []⟩,
    .definition ⟨⟨"b.py"⟩, "_g", "function", .of 0 0, (9, 11), []⟩,
    .definition ⟨⟨"b.py"⟩, "_g", "function", .of 0 0, (4, 6), []⟩,
    .reference ⟨⟨"a.py"⟩, "_g", "call", none, []⟩,
    .reference ⟨⟨"b.py"⟩, "f", "call", some (.of 2 2), []⟩]

/-- One file is in focus, and one has no tags. -/
def crossedInterest : Interest := { focus := [⟨"a.py"⟩], other := [⟨"c.py"⟩] }

theorem rankedItems_lists_once_sample :
    (build crossedTags crossedInterest).edges ≠ []
      ∧ ∃ (ds : List Definition) (files : List Path),
        rankedItems (fun count => (Nat.sqrt count : Rat)) crossedInterest
            (build crossedTags crossedInterest)
          = ds.map RankedItem.definition ++ files.map RankedItem.file
        ∧ ds.Perm
          [⟨⟨"b.py"⟩, "_g", "function", .of 0 0, (9, 11), []⟩,
            ⟨⟨"b.py"⟩, "_g", "function", .of 0 0, (4, 6), []⟩]
        ∧ ∃ q ∈ files, q.components = [.name "c.py"] := by
  have hedges : (build crossedTags crossedInterest).edges ≠ [] := by
    have hused : UsedIn crossedTags "f" ⟨"b.py"⟩ :=
      .inl ⟨⟨⟨"b.py"⟩, "f", "call", some (.of 1 1), []⟩, by decide +kernel, rfl, rfl⟩
    have hdefined : DefinedIn crossedTags "f" ⟨"a.py"⟩ :=
      ⟨⟨⟨"a.py"⟩, "f", "function", .of 0 0, (4, 5), []⟩, by decide +kernel, rfl, rfl⟩
    obtain ⟨e, he, -⟩ := exists_edge_iff.mpr ⟨hused, hdefined⟩
    exact List.ne_nil_of_mem he
  obtain ⟨groups, files, hitems, hlisting⟩ :=
    (rankedItems_lists_once hedges).2 fun count => (Nat.sqrt count : Rat)
  refine ⟨hedges, _, files, hitems, hlisting.definitions.trans (List.Perm.of_eq ?_), ?_⟩
  · decide +kernel
  · exact (hlisting.files_iff ⟨"c.py"⟩).mpr ⟨.inr (by decide +kernel), by decide +kernel⟩

end FileGraph

end CodeMap
