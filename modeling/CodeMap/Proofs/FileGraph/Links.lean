/-
Which edges a graph of files has.

There is one edge for each name, file that uses the name and file that defines
it (`exists_edge_iff`), and the edges are in the order of these triples
(`pairwise_edges`). An edge carries how often its first file uses its name
(`weight_of_edge`), and every file of the graph is an end of some edge
(`exists_edge_at`).

# Usages

Usages are sorted and then merged from the right. `Merged` says what the merged
list is to the sorted one: in strict order, made from usages that were there,
and covering all of them. A usage joins the first merged one exactly if the two
compare equal, and since all that follows is no smaller, it can join no other.

# Numbers

Edges name their files by number. Files are numbered by first use, no two
numbers stand for spellings of one file, and every end of a row has a number,
so nothing is lost on the way from rows to edges (`map_number?`). What is said
about rows therefore holds of edges, with `FileGraph.key` in place of
`Row.key`.
-/
import CodeMap.FileGraph
import CodeMap.Proofs.Path.Sets
import CodeMap.Proofs.Resolution.Choice

namespace CodeMap

open Std

-- =================================================================== usages

namespace Usage

theorem order_eq : order = compareLex (compareOn name) (Ordering.byKey path Path.order) := rfl

instance : TransCmp order := order_eq ▸ inferInstance

theorem order_eq_eq_iff {u v : Usage} :
    u.order v = .eq ↔ u.name = v.name ∧ u.path.components = v.path.components := by
  rw [order, Ordering.then_eq_eq, LawfulEqCmp.compare_eq_iff_eq, Path.order_eq_eq_iff]

theorem order_self (u : Usage) : u.order u = .eq := order_eq_eq_iff.mpr ⟨rfl, rfl⟩

/-- What merging makes of a sorted list of usages. -/
structure Merged (us ms : List Usage) : Prop where
  sorted : ms.Pairwise fun a b => a.order b = .lt
  source : ∀ m ∈ ms, ∃ u ∈ us, u.name = m.name ∧ u.path = m.path
  covers : ∀ u ∈ us, ∃ m ∈ ms, m.order u = .eq

section Merging

variable {u v : Usage} {rest others : List Usage}

/-- The next usage comes before the merged ones or is equal to the first. -/
theorem Merged.isLE_head (h : Merged rest (v :: others))
    (hfirst : ∀ w ∈ rest, (u.order w).isLE) : (u.order v).isLE := by
  obtain ⟨w, hw, hname, hpath⟩ := h.source v List.mem_cons_self
  have hle := hfirst w hw
  unfold order at hle ⊢
  rwa [← hname, ← hpath]

theorem Merged.head_lt (h : Merged rest (v :: others)) {m : Usage} (hm : m ∈ others) :
    v.order m = .lt :=
  List.rel_of_pairwise_cons h.sorted hm

/-- A usage that equals the first merged one takes its place. -/
theorem Merged.absorb (h : Merged rest (v :: others)) (heq : u.order v = .eq) (count : Nat) :
    Merged (u :: rest) ({ u with count } :: others) := by
  have hcongr : ∀ x, ({ u with count } : Usage).order x = v.order x := fun x =>
    TransCmp.congr_left heq
  refine ⟨?_, ?_, ?_⟩
  · refine List.pairwise_cons.mpr ⟨fun m hm => ?_, h.sorted.of_cons⟩
    rw [hcongr]
    exact h.head_lt hm
  · intro m hm
    rcases List.mem_cons.mp hm with rfl | hm
    · exact ⟨u, List.mem_cons_self, rfl, rfl⟩
    · obtain ⟨w, hw, hwm⟩ := h.source m (List.mem_cons_of_mem v hm)
      exact ⟨w, List.mem_cons_of_mem u hw, hwm⟩
  · intro x hx
    rcases List.mem_cons.mp hx with rfl | hx
    · exact ⟨_, List.mem_cons_self, order_self x⟩
    · obtain ⟨m, hm, hmx⟩ := h.covers x hx
      rcases List.mem_cons.mp hm with rfl | hm
      · exact ⟨_, List.mem_cons_self, (hcongr x).trans hmx⟩
      · exact ⟨m, List.mem_cons_of_mem _ hm, hmx⟩

/-- A usage that comes before the first merged one goes in front. -/
theorem Merged.push {ms : List Usage} (h : Merged rest ms) (hlt : ∀ m ∈ ms, u.order m = .lt) :
    Merged (u :: rest) (u :: ms) := by
  refine ⟨List.pairwise_cons.mpr ⟨hlt, h.sorted⟩, ?_, ?_⟩
  · intro m hm
    rcases List.mem_cons.mp hm with rfl | hm
    · exact ⟨m, List.mem_cons_self, rfl, rfl⟩
    · obtain ⟨w, hw, hwm⟩ := h.source m hm
      exact ⟨w, List.mem_cons_of_mem u hw, hwm⟩
  · intro x hx
    rcases List.mem_cons.mp hx with rfl | hx
    · exact ⟨x, List.mem_cons_self, order_self x⟩
    · obtain ⟨m, hm, hmx⟩ := h.covers x hx
      exact ⟨m, List.mem_cons_of_mem u hm, hmx⟩

end Merging

/-- One more usage from the right: it is joined with the first merged one, or
it comes strictly before all of them. -/
theorem merge_cons_cases (join : Nat → Nat → Nat) {u : Usage} {rest : List Usage}
    (h : Merged rest (merge join rest)) (hfirst : ∀ w ∈ rest, (u.order w).isLE) :
    (∃ v others, merge join rest = v :: others ∧ u.order v = .eq
        ∧ merge join (u :: rest) = { u with count := join u.count v.count } :: others)
      ∨ (∀ m ∈ merge join rest, u.order m = .lt)
        ∧ merge join (u :: rest) = u :: merge join rest := by
  rw [merge]
  cases hms : merge join rest with
  | nil => exact .inr ⟨fun m hm => absurd hm (by simp), rfl⟩
  | cons v others =>
      rw [hms] at h
      by_cases hsame : u.name = v.name ∧ u.path.same v.path = true
      · refine .inl ⟨v, others, rfl, ?_, if_pos hsame⟩
        exact order_eq_eq_iff.mpr ⟨hsame.1, Path.same_iff.mp hsame.2⟩
      · refine .inr ⟨?_, if_neg hsame⟩
        have hne : u.order v ≠ .eq := fun heq => hsame
          ⟨(order_eq_eq_iff.mp heq).1, Path.same_iff.mpr (order_eq_eq_iff.mp heq).2⟩
        have hlt : u.order v = .lt := lt_of_isLE_of_ne (h.isLE_head hfirst) hne
        intro m hm
        rcases List.mem_cons.mp hm with rfl | hm
        · exact hlt
        · exact TransCmp.lt_trans hlt (h.head_lt hm)

theorem merged_merge (join : Nat → Nat → Nat) {us : List Usage}
    (h : us.Pairwise fun a b => (a.order b).isLE) : Merged us (merge join us) := by
  induction us with
  | nil => exact ⟨.nil, fun m hm => absurd hm (by simp [merge]), fun u hu => by cases hu⟩
  | cons u rest ih =>
      have hrest := ih h.of_cons
      rcases merge_cons_cases join hrest fun w hw => List.rel_of_pairwise_cons h hw with
        ⟨v, others, hms, heq, hmerge⟩ | ⟨hlt, hmerge⟩
      · rw [hmerge]
        rw [hms] at hrest
        exact hrest.absorb heq _
      · rw [hmerge]
        exact hrest.push hlt

/-- If single usages are added up, a merged usage counts its equals. -/
theorem count_merge_add {us : List Usage} (h : us.Pairwise fun a b => (a.order b).isLE)
    (hone : ∀ u ∈ us, u.count = 1) :
    ∀ m ∈ merge (· + ·) us, m.count = us.countP fun u => u.order m == .eq := by
  induction us with
  | nil =>
      intro m hm
      cases hm
  | cons u rest ih =>
      intro m hm
      have hrest := merged_merge (· + ·) h.of_cons
      have hcount := ih h.of_cons fun w hw => hone w (List.mem_cons_of_mem u hw)
      have hu : u.count = 1 := hone u List.mem_cons_self
      rcases merge_cons_cases (· + ·) hrest fun w hw => List.rel_of_pairwise_cons h hw with
        ⟨v, others, hms, heq, hmerge⟩ | ⟨hlt, hmerge⟩
      · rw [hmerge] at hm
        rw [hms] at hrest hcount
        rcases List.mem_cons.mp hm with rfl | hm
        · -- the joined usage: `u` itself and the equals of `v`
          have hself : (u.order { u with count := u.count + v.count } == .eq) = true :=
            beq_iff_eq.mpr (order_self u)
          have hequals : ∀ w : Usage, w.order { u with count := u.count + v.count } = w.order v :=
            fun w => @TransCmp.congr_right _ order _ _ u v heq
          rw [List.countP_cons, if_pos hself]
          simp only [hequals]
          rw [hu, hcount v List.mem_cons_self, Nat.add_comm]
        · have hum : u.order m = .lt := by
            rw [@TransCmp.congr_left _ order _ u v m heq]
            exact hrest.head_lt hm
          rw [List.countP_cons_of_neg (by rw [hum]; decide)]
          exact hcount m (List.mem_cons_of_mem v hm)
      · rw [hmerge] at hm
        rcases List.mem_cons.mp hm with rfl | hm
        · -- nothing that follows equals a usage before all merged ones
          have hnone : rest.countP (fun w => w.order m == .eq) = 0 := by
            refine List.countP_eq_zero.mpr fun w hw hwm => ?_
            obtain ⟨x, hx, hxw⟩ := hrest.covers w hw
            have hxm : x.order m = .eq := by
              rw [@TransCmp.congr_left _ order _ x w m hxw]
              exact beq_iff_eq.mp hwm
            have hmx := hlt x hx
            rw [@OrientedCmp.eq_swap _ order _ m x, hxm] at hmx
            cases hmx
          have hself : (m.order m == .eq) = true := beq_iff_eq.mpr (order_self m)
          rw [List.countP_cons, if_pos hself, hnone, hu]
        · rw [List.countP_cons_of_neg (by rw [hlt m hm]; decide)]
          exact hcount m hm

/-- If only the first count is kept, a merged usage counts once. -/
theorem count_merge_first {us : List Usage} (h : us.Pairwise fun a b => (a.order b).isLE)
    (hone : ∀ u ∈ us, u.count = 1) : ∀ m ∈ merge (fun a _ => a) us, m.count = 1 := by
  induction us with
  | nil =>
      intro m hm
      cases hm
  | cons u rest ih =>
      intro m hm
      have hrest := merged_merge (fun a _ => a) h.of_cons
      have hcount := ih h.of_cons fun w hw => hone w (List.mem_cons_of_mem u hw)
      have hu : u.count = 1 := hone u List.mem_cons_self
      rcases merge_cons_cases (fun a _ => a) hrest fun w hw => List.rel_of_pairwise_cons h hw with
        ⟨v, others, hms, -, hmerge⟩ | ⟨-, hmerge⟩
      · rw [hmerge] at hm
        rcases List.mem_cons.mp hm with rfl | hm
        · exact hu
        · exact hcount m (by rw [hms]; exact List.mem_cons_of_mem v hm)
      · rw [hmerge] at hm
        rcases List.mem_cons.mp hm with rfl | hm
        · exact hu
        · exact hcount m hm

end Usage

-- =============================================================== tag lists

namespace Tag

/-- The references of a tag list. -/
def references (tags : List Tag) : List Reference := tags.filterMap Tag.reference?

/-- The definitions of a tag list. -/
def definitions (tags : List Tag) : List Definition := tags.filterMap Tag.definition?

/-- A file defines a name. -/
def DefinedIn (tags : List Tag) (name : String) (p : Path) : Prop :=
  ∃ d ∈ definitions tags, d.name = name ∧ d.path.same p

/-- A file uses a name. Without any reference, what defines a name uses it. -/
def UsedIn (tags : List Tag) (name : String) (p : Path) : Prop :=
  (∃ r ∈ references tags, r.name = name ∧ r.path.same p)
    ∨ references tags = [] ∧ DefinedIn tags name p

/-- How often a file uses a name. -/
def useCount (tags : List Tag) (name : String) (p : Path) : Nat :=
  if references tags = [] then 1
  else (references tags).countP fun r => r.name = name ∧ r.path.same p

theorem useCount_congr {p q : Path} (h : p.components = q.components) (tags : List Tag)
    (name : String) : useCount tags name p = useCount tags name q := by
  unfold useCount Path.same
  rw [h]

end Tag

open Tag

namespace Usage

/-- The uses of a tag list, one by one. -/
def singles (tags : List Tag) : List Usage :=
  if references tags = [] then (definitions tags).map fun d => ⟨d.name, d.path, 1⟩
  else (references tags).map fun r => ⟨r.name, r.path, 1⟩

theorem ofTags_eq (tags : List Tag) : ofTags tags =
    collect (if references tags = [] then fun a _ => a else (· + ·)) (singles tags) := by
  unfold ofTags singles
  dsimp only
  by_cases hnone : references tags = []
  · rw [if_pos hnone, if_pos hnone]
    exact if_pos (List.isEmpty_iff.mpr hnone)
  · rw [if_neg hnone, if_neg hnone]
    exact if_neg (mt List.isEmpty_iff.mp hnone)

theorem usedIn_iff {tags : List Tag} {name : String} {p : Path} :
    UsedIn tags name p ↔
      ∃ u ∈ singles tags, u.name = name ∧ u.path.components = p.components := by
  unfold UsedIn DefinedIn singles
  by_cases hnone : references tags = []
  · rw [if_pos hnone]
    simp [hnone, Path.same_iff]
  · rw [if_neg hnone]
    simp [hnone, Path.same_iff]

theorem pairwise_sortUsages (us : List Usage) :
    (us.mergeSort fun a b => (a.order b).isLE).Pairwise fun a b => (a.order b).isLE :=
  pairwise_sort id us

theorem merged_ofTags (tags : List Tag) :
    Merged ((singles tags).mergeSort fun a b => (a.order b).isLE) (ofTags tags) := by
  rw [ofTags_eq]
  exact merged_merge _ (pairwise_sortUsages _)

/-- A usage of a tag list stands for a use, in the spelling of that use. -/
theorem single_of_mem_ofTags {tags : List Tag} {u : Usage} (h : u ∈ ofTags tags) :
    ∃ w ∈ singles tags, w.name = u.name ∧ w.path = u.path := by
  obtain ⟨w, hw, hwu⟩ := (merged_ofTags tags).source u h
  exact ⟨w, List.mem_mergeSort.mp hw, hwu⟩

theorem exists_mem_ofTags_iff {tags : List Tag} {name : String} {p : Path} :
    (∃ u ∈ ofTags tags, u.name = name ∧ u.path.components = p.components)
      ↔ UsedIn tags name p := by
  rw [usedIn_iff]
  constructor
  · rintro ⟨u, hu, rfl, hpath⟩
    obtain ⟨w, hw, hname, hsame⟩ := single_of_mem_ofTags hu
    exact ⟨w, hw, hname, by rw [hsame, hpath]⟩
  · rintro ⟨w, hw, rfl, hpath⟩
    obtain ⟨u, hu, huw⟩ := (merged_ofTags tags).covers w (List.mem_mergeSort.mpr hw)
    obtain ⟨hname, hsame⟩ := order_eq_eq_iff.mp huw
    exact ⟨u, hu, hname, hsame.trans hpath⟩

/-- A usage counts the uses it stands for. -/
theorem count_of_mem_ofTags {tags : List Tag} {u : Usage} (h : u ∈ ofTags tags) :
    u.count = useCount tags u.name u.path := by
  have hone : ∀ w ∈ (singles tags).mergeSort fun a b => (a.order b).isLE, w.count = 1 := by
    intro w hw
    rw [List.mem_mergeSort, singles] at hw
    split at hw
    · obtain ⟨d, -, rfl⟩ := List.mem_map.mp hw
      rfl
    · obtain ⟨r, -, rfl⟩ := List.mem_map.mp hw
      rfl
  have hsorted := pairwise_sortUsages (singles tags)
  rw [ofTags_eq] at h
  unfold useCount
  by_cases hnone : references tags = []
  · rw [if_pos hnone] at h ⊢
    exact count_merge_first hsorted hone u h
  · rw [if_neg hnone] at h ⊢
    rw [count_merge_add hsorted hone u h, (List.mergeSort_perm _ _).countP_eq, singles,
      if_neg hnone, List.countP_map]
    refine List.countP_congr fun r _ => ?_
    simp [order_eq_eq_iff, Path.same_iff]

end Usage

-- ================================================================= definers

namespace Resolution

theorem map_named (name : String) (n : Nat) (defs : List Definition) :
    (named name n defs).map (·.definition) = defs.filter fun d => d.name = name := by
  induction defs generalizing n with
  | nil => rfl
  | cons d rest ih =>
      rw [named]
      split
      next hname => rw [List.map_cons, ih, List.filter_cons_of_pos (by simpa using hname)]
      next hname => rw [ih, List.filter_cons_of_neg (by simpa using hname)]

/-- The candidates of a name are the definitions of the name. -/
theorem map_candidates_perm (defs : List Definition) (name : String) :
    ((candidates defs name).map (·.definition)).Perm (defs.filter fun d => d.name = name) := by
  rw [← map_named name 0 defs]
  exact (List.mergeSort_perm _ _).map _

theorem pairwise_candidatePaths (defs : List Definition) (name : String) :
    ((candidates defs name).map fun c => c.definition.path).Pairwise
      fun p q => (p.order q).isLE := by
  refine List.pairwise_map.mpr ((pairwise_candidates defs name).imp fun {a b} hle => ?_)
  unfold Candidate.order at hle
  cases hpath : a.definition.path.order b.definition.path with
  | lt => rfl
  | eq => rfl
  | gt =>
      rw [hpath] at hle
      cases hle

theorem pairwise_definers (defs : List Definition) (name : String) :
    (definers defs name).Pairwise fun p q => p.order q = .lt :=
  Path.pairwise_dropRepeated (pairwise_candidatePaths defs name)

/-- The paths of the definitions of a name. -/
theorem mem_candidatePaths {defs : List Definition} {name : String} {p : Path} :
    p ∈ (candidates defs name).map (fun c => c.definition.path)
      ↔ ∃ d ∈ defs, d.name = name ∧ d.path = p := by
  have hperm := (map_candidates_perm defs name).map Definition.path
  rw [List.map_map] at hperm
  rw [show (fun c : Candidate => c.definition.path) = Definition.path ∘ (·.definition) from rfl,
    hperm.mem_iff, List.mem_map]
  simp [and_assoc]

theorem definition_of_mem_definers {defs : List Definition} {name : String} {p : Path}
    (h : p ∈ definers defs name) : ∃ d ∈ defs, d.name = name ∧ d.path = p :=
  mem_candidatePaths.mp ((Path.dropRepeated_sublist _).subset h)

theorem exists_mem_definers_iff {tags : List Tag} {name : String} {p : Path} :
    (∃ q ∈ definers (definitions tags) name, q.components = p.components)
      ↔ DefinedIn tags name p := by
  constructor
  · rintro ⟨q, hq, hqp⟩
    obtain ⟨d, hd, hname, rfl⟩ := definition_of_mem_definers hq
    exact ⟨d, hd, hname, Path.same_iff.mpr hqp⟩
  · rintro ⟨d, hd, hname, hsame⟩
    obtain ⟨q, hq, hqd⟩ :=
      Path.exists_mem_dropRepeated _ d.path (mem_candidatePaths.mpr ⟨d, hd, hname, rfl⟩)
    exact ⟨q, hq, hqd.trans (Path.same_iff.mp hsame)⟩

end Resolution

-- ===================================================================== rows

/-- What tells links apart: a name, and the components of a file that uses it
and of a file that defines it. -/
structure LinkKey where
  name : String
  user : List Component
  definer : List Component
  deriving DecidableEq

/-- By name, then by the file that uses it, then by the file that defines it. -/
def LinkKey.order (a b : LinkKey) : Ordering :=
  (compare a.name b.name).then
    ((Path.orderComponents a.user b.user).then (Path.orderComponents a.definer b.definer))

namespace FileGraph

def Row.key (r : Row) : LinkKey := ⟨r.name, r.user.components, r.definer.components⟩

theorem mem_rows_iff {tags : List Tag} {interest : Interest} {r : Row} :
    r ∈ rows tags interest ↔ ∃ u ∈ Usage.ofTags tags,
      ∃ q ∈ Resolution.definers (Tag.definitions tags) u.name,
        r = ⟨u.name, .of interest u.name, u.count, u.path, q⟩ := by
  unfold rows
  simp only [List.mem_flatMap, List.mem_map, eq_comm]
  rfl

/-- There is a row for each name, file that uses it and file that defines
it. -/
theorem exists_row_iff {tags : List Tag} {interest : Interest} {name : String} {a b : Path} :
    (∃ r ∈ rows tags interest, r.key = ⟨name, a.components, b.components⟩)
      ↔ UsedIn tags name a ∧ DefinedIn tags name b := by
  rw [← Usage.exists_mem_ofTags_iff, ← Resolution.exists_mem_definers_iff]
  constructor
  · rintro ⟨r, hr, hkey⟩
    obtain ⟨u, hu, q, hq, rfl⟩ := mem_rows_iff.mp hr
    obtain ⟨rfl, huser, hdefiner⟩ := LinkKey.mk.injEq .. ▸ hkey
    exact ⟨⟨u, hu, rfl, huser⟩, q, hq, hdefiner⟩
  · rintro ⟨⟨u, hu, rfl, huser⟩, q, hq, hdefiner⟩
    exact ⟨_, mem_rows_iff.mpr ⟨u, hu, q, hq, rfl⟩, by rw [Row.key, huser, hdefiner]⟩

theorem pairwise_rows (tags : List Tag) (interest : Interest) :
    (rows tags interest).Pairwise fun r s => r.key.order s.key = .lt := by
  refine List.pairwise_flatMap.mpr ⟨fun u _ => ?_, ?_⟩
  · refine List.pairwise_map.mpr ((Resolution.pairwise_definers _ _).imp fun {p q} hlt => ?_)
    show (compare u.name u.name).then ((u.path.order u.path).then (p.order q)) = .lt
    rw [ReflOrd.compare_self, @ReflCmp.compare_self _ Path.order, hlt]
    rfl
  · refine (Usage.merged_ofTags tags).sorted.imp fun {u v} hlt x hx y hy => ?_
    obtain ⟨p, -, rfl⟩ := List.mem_map.mp hx
    obtain ⟨q, -, rfl⟩ := List.mem_map.mp hy
    show (compare u.name v.name).then ((u.path.order v.path).then (p.order q)) = .lt
    rw [← Ordering.then_assoc]
    show ((u.order v).then (p.order q)) = .lt
    rw [hlt]
    rfl

-- ================================================================== numbers

theorem exists_findFinIdx? {files : List Path} {q : Path}
    (h : ∃ p ∈ files, p.components = q.components) :
    ∃ i, files.findFinIdx? (·.same q) = some i
      ∧ (files.get i).components = q.components := by
  obtain ⟨p, hp, hpq⟩ := h
  have hsome : (files.findFinIdx? (·.same q)).isSome := by
    rw [List.isSome_findFinIdx?, List.any_eq_true]
    exact ⟨p, hp, Path.same_iff.mpr hpq⟩
  obtain ⟨i, hi⟩ := Option.isSome_iff_exists.mp hsome
  exact ⟨i, hi, Path.same_iff.mp (List.findFinIdx?_eq_some_iff.mp hi).1⟩

/-- Both ends of a row are among some files. -/
def Row.Covered (files : List Path) (r : Row) : Prop :=
  (∃ p ∈ files, p.components = r.user.components)
    ∧ ∃ p ∈ files, p.components = r.definer.components

/-- Numbering the ends of rows loses no row and changes no link. -/
theorem map_number? {files : List Path} {rs : List Row} (h : ∀ r ∈ rs, r.Covered files) :
    ((rs.filterMap (Row.number? files)).map fun e =>
        ((⟨e.name, (files.get e.source).components, (files.get e.target).components⟩ : LinkKey),
          e.emphasis, e.count))
      = rs.map fun r => (r.key, r.emphasis, r.count) := by
  induction rs with
  | nil => rfl
  | cons r rest ih =>
      obtain ⟨i, hi, huser⟩ := exists_findFinIdx? (h r List.mem_cons_self).1
      obtain ⟨j, hj, hdefiner⟩ := exists_findFinIdx? (h r List.mem_cons_self).2
      have hnumber : r.number? files = some ⟨r.name, r.emphasis, r.count, i, j⟩ := by
        unfold Row.number?
        rw [hi, hj]
      rw [List.filterMap_cons_some hnumber, List.map_cons, List.map_cons,
        ih fun s hs => h s (List.mem_cons_of_mem r hs)]
      dsimp only
      rw [huser, hdefiner]
      rfl

-- ==================================================================== edges

/-- The link that an edge is. -/
def key (g : FileGraph) (e : FileEdge g.files.length) : LinkKey :=
  ⟨e.name, (g.file e.source).components, (g.file e.target).components⟩

section Build

variable (tags : List Tag) (interest : Interest)

theorem mem_files_build {p : Path} (h : p ∈ (build tags interest).files) :
    ∃ r ∈ rows tags interest, p = r.user ∨ p = r.definer := by
  obtain ⟨r, hr, hp⟩ := List.mem_flatMap.mp (Path.mem_of_mem_firstUses h)
  refine ⟨r, hr, ?_⟩
  simpa using hp

theorem covered_rows : ∀ r ∈ rows tags interest, r.Covered (build tags interest).files := by
  intro r hr
  constructor
  · exact Path.exists_mem_firstUses (List.mem_flatMap.mpr ⟨r, hr, by simp⟩)
  · exact Path.exists_mem_firstUses (List.mem_flatMap.mpr ⟨r, hr, by simp⟩)

theorem map_edges_build :
    ((build tags interest).edges.map fun e =>
        ((build tags interest).key e, e.emphasis, e.count))
      = (rows tags interest).map fun r => (r.key, r.emphasis, r.count) :=
  map_number? (covered_rows tags interest)

theorem map_key_edges :
    (build tags interest).edges.map (build tags interest).key
      = (rows tags interest).map Row.key := by
  have h := congrArg (List.map Prod.fst) (map_edges_build tags interest)
  rwa [List.map_map, List.map_map] at h

/-- No two numbers stand for spellings of one file. -/
theorem file_injective {v w : Fin (build tags interest).files.length}
    (h : ((build tags interest).file v).components = ((build tags interest).file w).components) :
    v = w := by
  have hpairwise : (build tags interest).files.Pairwise
      fun p q => p.components ≠ q.components := Path.pairwise_firstUses _
  have hget := List.pairwise_iff_getElem.mp hpairwise
  rcases Nat.lt_trichotomy v w with hlt | heq | hgt
  · exact absurd h (hget v w v.isLt w.isLt hlt)
  · exact Fin.ext heq
  · exact absurd h.symm (hget w v w.isLt v.isLt hgt)

/-- The edges are in the order of their links. -/
theorem pairwise_edges :
    (build tags interest).edges.Pairwise fun e f =>
      ((build tags interest).key e).order ((build tags interest).key f) = .lt := by
  have h : ((rows tags interest).map Row.key).Pairwise fun a b => a.order b = .lt :=
    List.pairwise_map.mpr (pairwise_rows tags interest)
  rw [← map_key_edges] at h
  exact List.pairwise_map.mp h

variable {tags interest}

/-- The row that an edge was made from. -/
theorem row_of_edge {e : FileEdge (build tags interest).files.length}
    (h : e ∈ (build tags interest).edges) :
    ∃ r ∈ rows tags interest, r.key = (build tags interest).key e ∧ r.emphasis = e.emphasis
      ∧ r.count = e.count := by
  have hmem := List.mem_map_of_mem h
    (f := fun e => ((build tags interest).key e, e.emphasis, e.count))
  rw [map_edges_build] at hmem
  obtain ⟨r, hr, heq⟩ := List.mem_map.mp hmem
  simp only [Prod.mk.injEq] at heq
  exact ⟨r, hr, heq.1, heq.2.1, heq.2.2⟩

theorem exists_edge_of_row {r : Row} (h : r ∈ rows tags interest) :
    ∃ e ∈ (build tags interest).edges, (build tags interest).key e = r.key := by
  have hmem : r.key ∈ (rows tags interest).map Row.key := List.mem_map_of_mem h
  rw [← map_key_edges] at hmem
  exact List.mem_map.mp hmem

/-- There is an edge for each name, file that uses it and file that defines
it. -/
theorem exists_edge_iff {name : String} {a b : Path} :
    (∃ e ∈ (build tags interest).edges,
        (build tags interest).key e = ⟨name, a.components, b.components⟩)
      ↔ UsedIn tags name a ∧ DefinedIn tags name b := by
  rw [← exists_row_iff]
  constructor
  · rintro ⟨e, he, hkey⟩
    obtain ⟨r, hr, hrow, -, -⟩ := row_of_edge he
    exact ⟨r, hr, hrow.trans hkey⟩
  · rintro ⟨r, hr, hkey⟩
    obtain ⟨e, he, hedge⟩ := exists_edge_of_row hr
    exact ⟨e, he, hedge.trans hkey⟩

/-- An edge carries the emphasis of its name and how often its first file uses
the name. -/
theorem weight_of_edge {e : FileEdge (build tags interest).files.length}
    (h : e ∈ (build tags interest).edges) :
    e.emphasis = .of interest e.name
      ∧ e.count = useCount tags e.name ((build tags interest).file e.source) := by
  obtain ⟨r, hr, hkey, hemphasis, hcount⟩ := row_of_edge h
  obtain ⟨u, hu, q, -, rfl⟩ := mem_rows_iff.mp hr
  obtain ⟨hname, huser, -⟩ := LinkKey.mk.injEq .. ▸ hkey
  dsimp only at hname huser hemphasis hcount
  refine ⟨by rw [← hemphasis, hname], ?_⟩
  rw [← hcount, Usage.count_of_mem_ofTags hu, hname]
  exact useCount_congr huser tags e.name

/-- Every file of the graph is an end of some edge. -/
theorem exists_edge_at (v : Fin (build tags interest).files.length) :
    ∃ e ∈ (build tags interest).edges, e.source = v ∨ e.target = v := by
  obtain ⟨r, hr, hend⟩ := mem_files_build tags interest (List.get_mem _ v)
  obtain ⟨e, he, hkey⟩ := exists_edge_of_row hr
  obtain ⟨-, huser, hdefiner⟩ := LinkKey.mk.injEq .. ▸ hkey
  refine ⟨e, he, ?_⟩
  rcases hend with hend | hend
  · left
    refine file_injective tags interest (huser.trans ?_)
    rw [← hend]
    rfl
  · right
    refine file_injective tags interest (hdefiner.trans ?_)
    rw [← hend]
    rfl

end Build

end FileGraph

end CodeMap
