/-
A map request is a pair of sets of files.

A request names files in lists of paths, and a path can be written in two ways,
as it is seen from the root or joined to it. `MapRequest.Restates` says that two
requests name the same files: each path of the one is spelled by some path of
the other, in any order and as often as one likes, and files in focus may be
named among the other files as well.

Both spellings of a path are looked up at the same place (`Spells.fromRoot`), so
restated lists read the same files. What is read for plain paths is then a set
in a strong sense: of one path there is one spelling and one content
(`Agreeing`), because a file that is found is found at the place that the
components of its path lead to. Sorting such files and dropping repetitions
forgets the order in which they came (`Agreeing.distinctFiles_eq`), and
everything else reads the lists of paths as sets (`Interest.Alike`).
-/
import CodeMap.Proofs.FileGraph.Interests
import CodeMap.Proofs.RepoMap.Usability

namespace CodeMap

open Std

-- =================================================================== places

namespace FileSystem

variable {fs : FileSystem} {p q : Path}

theorem entry_of_lookup {location : List String} {e : Entry}
    (h : fs.lookup p = .ok (location, e)) :
    fs.locate p = .ok location ∧ fs.entry? location = some e := by
  unfold lookup at h
  split at h
  · cases h
  · cases hlocate : fs.locate p with
    | error why =>
        rw [hlocate] at h
        cases h
    | ok place =>
        rw [hlocate] at h
        cases hentry : fs.entry? place with
        | none => simp [bind, Except.bind, hentry] at h
        | some e' =>
            simp only [bind, Except.bind, pure, Except.pure, hentry] at h
            split at h
            · cases h
            · cases h
              exact ⟨rfl, hentry⟩

/-- Paths of the same components lead to the same place, if they lead to
anything. -/
theorem lookup_unique (h : p.components = q.components) {location location' : List String}
    {e e' : Entry} (hp : fs.lookup p = .ok (location, e))
    (hq : fs.lookup q = .ok (location', e')) : e = e' := by
  obtain ⟨hlocation, hentry⟩ := entry_of_lookup hp
  obtain ⟨hlocation', hentry'⟩ := entry_of_lookup hq
  have hsame : fs.locate p = fs.locate q := by
    unfold locate Path.isAbsolute
    rw [h]
  rw [hsame, hlocation'] at hlocation
  rw [← Except.ok.inj hlocation, hentry'] at hentry
  exact (Option.some.inj hentry).symm

end FileSystem

namespace Path

variable {root p q : Path}

/-- The ways to write a path of a request: as it is, or, if it is seen from the
root, joined to the root. -/
def Spells (q root p : Path) : Prop := q = p ∨ p.isAbsolute = false ∧ q = root.join p

instance : Decidable (q.Spells root p) :=
  inferInstanceAs (Decidable (q = p ∨ p.isAbsolute = false ∧ q = root.join p))

theorem Spells.fromRoot (h : q.Spells root p) (hroot : root.isAbsolute = true) :
    Walk.fromRoot root q = Walk.fromRoot root p := by
  rcases h with rfl | ⟨hp, rfl⟩
  · rfl
  · unfold Walk.fromRoot
    rw [if_pos (isAbsolute_join hroot hp), if_neg (Bool.eq_false_iff.mp hp)]

/-- Both spellings are seen from the root in the same way. -/
theorem Spells.relative (h : q.Spells root p) (hroot : root.isAbsolute = true)
    (hplain : p.Plain) : RepoMap.relative root q = RepoMap.relative root p := by
  rcases h with rfl | ⟨hp, rfl⟩
  · rfl
  · unfold RepoMap.relative
    rw [relativeTo?_join hroot hp hplain, relativeTo?_of_relative hroot hp]
    rfl

/-- A plain path is plain as it is seen from the root, and that tells where to
look: below the root, or at the path itself. -/
theorem Plain.seen (hplain : p.Plain) (hroot : root.isAbsolute = true) {seen : Path}
    (h : RepoMap.relative root (Walk.fromRoot root p) = seen) :
    seen.Plain ∧ (seen.isAbsolute = false
        ∧ (Walk.fromRoot root p).components = root.components ++ seen.components
      ∨ seen.isAbsolute = true ∧ Walk.fromRoot root p = seen) := by
  unfold RepoMap.relative Walk.fromRoot at h
  unfold Walk.fromRoot
  cases hp : p.isAbsolute with
  | false =>
      rw [hp, if_neg Bool.false_ne_true, relativeTo?_join hroot hp hplain] at h
      obtain rfl : p = seen := h
      rw [if_neg Bool.false_ne_true]
      exact ⟨hplain, .inl ⟨hp, hplain.components_join hroot hp⟩⟩
  | true =>
      rw [hp, if_pos rfl] at h
      rw [if_pos rfl]
      cases hbelow : p.relativeTo? root with
      | none =>
          obtain rfl : p = seen := by rw [← h, hbelow]; rfl
          exact ⟨hplain, .inr ⟨hp, rfl⟩⟩
      | some rest =>
          obtain rfl : rest = seen := by rw [← h, hbelow]; rfl
          obtain ⟨hrest, hrelative, hcomponents⟩ := hplain.relativeTo? hroot hp hbelow
          exact ⟨hrest, .inl ⟨hrelative, hcomponents⟩⟩

/-- How a plain path is seen from the root tells where to look. -/
theorem Plain.components_eq_of_seen (hp : p.Plain) (hq : q.Plain) (hroot : root.isAbsolute = true)
    (h : (RepoMap.relative root (Walk.fromRoot root p)).components
      = (RepoMap.relative root (Walk.fromRoot root q)).components) :
    (Walk.fromRoot root p).components = (Walk.fromRoot root q).components := by
  obtain ⟨-, hplace⟩ := hp.seen hroot rfl
  obtain ⟨-, hplace'⟩ := hq.seen hroot rfl
  have hkind : (RepoMap.relative root (Walk.fromRoot root p)).isAbsolute
      = (RepoMap.relative root (Walk.fromRoot root q)).isAbsolute := by
    unfold isAbsolute
    rw [h]
  rcases hplace with ⟨hseen, hbelow⟩ | ⟨hseen, hsame⟩ <;>
    rcases hplace' with ⟨hseen', hbelow'⟩ | ⟨hseen', hsame'⟩
  · rw [hbelow, hbelow', h]
  · rw [hkind, hseen'] at hseen
    cases hseen
  · rw [hkind, hseen'] at hseen
    cases hseen
  · rw [hsame, hsame', h]

end Path

namespace RepoMap

-- ================================================================== loading

section Loading

variable {fs : FileSystem} {root : Path} {maxSize : Nat}

theorem mem_load_iff {paths : List Path} {f : SourceFile} :
    f ∈ load fs root maxSize paths ↔ ∃ p ∈ paths, read? fs root maxSize p = some f := by
  rw [load_eq, List.mem_filterMap]

theorem read?_eq_some (hroot : root.isAbsolute = true) {p : Path} {f : SourceFile}
    (h : read? fs root maxSize p = some f) :
    f.path = relative root (Walk.fromRoot root p) ∧ ∃ location bytes,
      fs.lookup (Walk.fromRoot root p) = .ok (location, .file bytes)
        ∧ Walk.usableText? maxSize bytes = some f.content := by
  unfold read? at h
  split at h
  next =>
    unfold Walk.readSource? at h
    rw [fromRoot_fromRoot hroot] at h
    dsimp only at h
    split at h
    next location bytes hfound =>
      obtain ⟨content, htext, rfl⟩ := Option.map_eq_some_iff.mp h
      exact ⟨rfl, location, bytes, hfound, htext⟩
    next => cases h
  next => cases h

/-- Of one path there is one spelling and one content. -/
def Agreeing (files : List SourceFile) : Prop :=
  ∀ f ∈ files, ∀ g ∈ files, f.path.components = g.path.components →
    f.path = g.path ∧ f.content = g.content

/-- What is read for plain paths agrees. -/
theorem agreeing_load (hroot : root.isAbsolute = true) {paths : List Path}
    (hplain : ∀ p ∈ paths, p.Plain) : Agreeing (load fs root maxSize paths) := by
  intro f hf g hg hcomponents
  obtain ⟨p, hp, hread⟩ := mem_load_iff.mp hf
  obtain ⟨q, hq, hread'⟩ := mem_load_iff.mp hg
  obtain ⟨hpath, location, bytes, hfound, htext⟩ := read?_eq_some hroot hread
  obtain ⟨hpath', location', bytes', hfound', htext'⟩ := read?_eq_some hroot hread'
  rw [hpath, hpath'] at hcomponents
  constructor
  · rw [hpath, hpath']
    apply Path.Plain.eq_of_components
    · exact ((hplain p hp).seen hroot rfl).1
    · exact ((hplain q hq).seen hroot rfl).1
    · exact hcomponents
  · have hplace := (hplain p hp).components_eq_of_seen (hplain q hq) hroot hcomponents
    obtain rfl := Entry.file.inj (FileSystem.lookup_unique hplace hfound hfound')
    exact Option.some.inj (htext.symm.trans htext')

/-- A file as it is printed from. -/
def sourceOf (f : SourceFile) : Source := ⟨f.path, f.content⟩

/-- Of the files of one path the first that was given is kept. -/
theorem distinctFiles_eq_eraseDupsBy (files : List SourceFile) :
    distinctFiles files = (files.mergeSort fun a b => (a.path.order b.path).isLE).eraseDupsBy
      fun a b => a.path.same b.path := by
  refine eraseRepsBy_eq_eraseDupsBy (fun f g => ?_)
    (@pairwise_sort _ _ Path.order _ SourceFile.path files)
  rw [Path.same_iff, Path.order_eq_eq_iff]

theorem pairwise_distinctFiles (files : List SourceFile) :
    (distinctFiles files).Pairwise fun f g => f.path.order g.path = .lt := by
  rw [distinctFiles_eq_eraseDupsBy]
  have hle := (@pairwise_sort _ _ Path.order _ SourceFile.path files).sublist
    (eraseDupsBy_sublist (fun a b : SourceFile => a.path.same b.path) _)
  have hne := pairwise_eraseDupsBy (fun a b : SourceFile => a.path.same b.path)
    (files.mergeSort fun a b => (a.path.order b.path).isLE)
  refine (hle.and hne).imp fun {f g} h => ?_
  apply lt_of_isLE_of_ne h.1
  intro heq
  rw [Path.same_iff.mpr (Path.order_eq_eq_iff.mp heq).symm] at h
  cases h.2

theorem Agreeing.mem_distinctFiles_iff {files : List SourceFile} (h : Agreeing files) {s : Source} :
    s ∈ (distinctFiles files).map sourceOf ↔ ∃ f ∈ files, sourceOf f = s := by
  rw [distinctFiles_eq_eraseDupsBy]
  have hsub : ∀ f ∈ (files.mergeSort fun a b => (a.path.order b.path).isLE).eraseDupsBy
      (fun a b => a.path.same b.path), f ∈ files := fun f hf =>
    List.mem_mergeSort.mp ((eraseDupsBy_sublist _ _).subset hf)
  rw [List.mem_map]
  constructor
  · rintro ⟨f, hf, rfl⟩
    exact ⟨f, hsub f hf, rfl⟩
  · rintro ⟨f, hf, rfl⟩
    obtain ⟨g, hg, hsame⟩ := exists_mem_eraseDupsBy
      (r := fun a b : SourceFile => a.path.same b.path) (fun a => Path.same_refl a.path)
      (List.mem_mergeSort.mpr hf)
    obtain ⟨hpath, hcontent⟩ := h f hf g (hsub g hg) (Path.same_iff.mp hsame)
    refine ⟨g, hg, ?_⟩
    unfold sourceOf
    rw [hpath, hcontent]

/-- Sorting agreeing files and dropping repetitions forgets in which order and
how often they came. -/
theorem Agreeing.distinctFiles_eq {files files' : List SourceFile} (h : Agreeing files)
    (hsame : ∀ f, f ∈ files ↔ f ∈ files') :
    (distinctFiles files).map sourceOf = (distinctFiles files').map sourceOf := by
  have h' : Agreeing files' := fun f hf g hg => h f ((hsame f).mpr hf) g ((hsame g).mpr hg)
  refine @eq_of_pairwise_lt _ _ Path.order _ Source.path _ _
    (List.pairwise_map.mpr (pairwise_distinctFiles files))
    (List.pairwise_map.mpr (pairwise_distinctFiles files')) fun s => ?_
  rw [h.mem_distinctFiles_iff, h'.mem_distinctFiles_iff]
  exact exists_congr fun f => and_congr_left fun _ => hsame f

end Loading

end RepoMap

-- ================================================================= outlines

/-- An outline reads its files in focus as a set. -/
theorem Outline.render_congr {s t : Setting} (hsources : s.sources = t.sources)
    (hfocus : ∀ p, p ∈ s.focus ↔ p ∈ t.focus) (hwidth : s.width = t.width)
    (items : List RankedItem) : render s items = render t items := by
  have hsections : sections items s.focus = sections items t.focus := by
    unfold sections
    simp only [Path.among_eq_of_mem_iff hfocus]
  have hprint : printSection s = printSection t := by
    funext section_
    unfold printSection Setting.content?
    rw [hsources]
  unfold render
  rw [hsections, hprint, hwidth]

-- ================================================================= requests

/-- Each path of the second list is spelled by a path of the first one, and
nothing else is in that: in any order, and as often as one likes. -/
structure Respells (root : Path) (qs ps : List Path) : Prop where
  sound : ∀ q ∈ qs, ∃ p ∈ ps, q.Spells root p
  complete : ∀ p ∈ ps, ∃ q ∈ qs, q.Spells root p

/-- Whether a list is empty is a matter of its members. -/
theorem isEmpty_eq_of_mem_iff {α : Type} {xs ys : List α} (h : ∀ x, x ∈ xs ↔ x ∈ ys) :
    xs.isEmpty = ys.isEmpty := by
  rw [Bool.eq_iff_iff, List.isEmpty_iff, List.isEmpty_iff, List.eq_nil_iff_forall_not_mem,
    List.eq_nil_iff_forall_not_mem]
  exact forall_congr' fun x => not_congr (h x)

theorem Respells.isEmpty_eq {root : Path} {qs ps : List Path} (h : Respells root qs ps) :
    qs.isEmpty = ps.isEmpty := by
  rw [Bool.eq_iff_iff, List.isEmpty_iff, List.isEmpty_iff]
  constructor
  · rintro rfl
    refine List.eq_nil_iff_forall_not_mem.mpr fun p hp => ?_
    obtain ⟨q, hq, -⟩ := h.complete p hp
    cases hq
  · rintro rfl
    refine List.eq_nil_iff_forall_not_mem.mpr fun q hq => ?_
    obtain ⟨p, hp, -⟩ := h.sound q hq
    cases hp

namespace MapRequest

/-- All paths of a request are plain. -/
def Plain (request : MapRequest) : Prop :=
  ∀ p ∈ request.focus ++ request.other ++ request.mentionedFiles, p.Plain

/-- Two requests for the same files. Files in focus may be named among the other
files as well. -/
structure Restates (root : Path) (restated request : MapRequest) : Prop where
  focus : Respells root restated.focus request.focus
  other : ∃ shared ⊆ request.focus, Respells root restated.other (request.other ++ shared)
  mentionedFiles : Respells root restated.mentionedFiles request.mentionedFiles
  mentionedNames : ∀ name, name ∈ restated.mentionedNames ↔ name ∈ request.mentionedNames
  budget : restated.budget = request.budget

end MapRequest

namespace RepoMap

section Restated

variable {fs : FileSystem} {root : Path} {maxSize : Nat}

/-- Lists that name the same paths read the same files. -/
theorem mem_load_respells (hroot : root.isAbsolute = true) {qs ps : List Path}
    (h : Respells root qs ps) {f : SourceFile} :
    f ∈ load fs root maxSize qs ↔ f ∈ load fs root maxSize ps := by
  have hread : ∀ {q p : Path}, q.Spells root p →
      read? fs root maxSize q = read? fs root maxSize p := by
    intro q p hspells
    unfold read?
    rw [hspells.fromRoot hroot]
  rw [mem_load_iff, mem_load_iff]
  constructor
  · rintro ⟨q, hq, hf⟩
    obtain ⟨p, hp, hspells⟩ := h.sound q hq
    exact ⟨p, hp, (hread hspells).symm.trans hf⟩
  · rintro ⟨p, hp, hf⟩
    obtain ⟨q, hq, hspells⟩ := h.complete p hp
    exact ⟨q, hq, (hread hspells).trans hf⟩

theorem mem_relative_respells (hroot : root.isAbsolute = true) {qs ps : List Path}
    (hplain : ∀ p ∈ ps, p.Plain) (h : Respells root qs ps) (seen : Path) :
    seen ∈ qs.map (relative root) ↔ seen ∈ ps.map (relative root) := by
  rw [List.mem_map, List.mem_map]
  constructor
  · rintro ⟨q, hq, rfl⟩
    obtain ⟨p, hp, hspells⟩ := h.sound q hq
    exact ⟨p, hp, (hspells.relative hroot (hplain p hp)).symm⟩
  · rintro ⟨p, hp, rfl⟩
    obtain ⟨q, hq, hspells⟩ := h.complete p hp
    exact ⟨q, hq, hspells.relative hroot (hplain p hp)⟩

variable {restated request : MapRequest}

/-- The other files of a restated request are those of the request and some of
those in focus. -/
theorem mem_load_restated (hroot : root.isAbsolute = true) (h : restated.Restates root request)
    {f : SourceFile} :
    f ∈ load fs root maxSize restated.focus ++ load fs root maxSize restated.other
      ↔ f ∈ load fs root maxSize request.focus ++ load fs root maxSize request.other := by
  obtain ⟨shared, hshared, hother⟩ := h.other
  rw [List.mem_append, List.mem_append, mem_load_respells hroot h.focus,
    mem_load_respells hroot hother, mem_load_iff, mem_load_iff, mem_load_iff]
  simp only [List.mem_append, or_and_right, exists_or]
  constructor
  · rintro (hfocus | hother | ⟨p, hp, hf⟩)
    · exact .inl hfocus
    · exact .inr hother
    · exact .inl ⟨p, hshared hp, hf⟩
  · rintro (hfocus | hother)
    · exact .inl hfocus
    · exact .inr (.inl hother)

theorem agreeing_request (hroot : root.isAbsolute = true) (hplain : request.Plain) :
    Agreeing (load fs root maxSize request.focus ++ load fs root maxSize request.other) := by
  have hjoined : load fs root maxSize request.focus ++ load fs root maxSize request.other
      = load fs root maxSize (request.focus ++ request.other) := by
    rw [load_eq, load_eq, load_eq, List.filterMap_append]
  rw [hjoined]
  exact agreeing_load hroot fun p hp => hplain p (List.mem_append_left _ hp)

/-- What is read for a restated request differs in orders and repetitions
only. -/
theorem interest_alike (hroot : root.isAbsolute = true) (hplain : request.Plain)
    (h : restated.Restates root request) :
    (gather fs root maxSize restated).interest.Alike (gather fs root maxSize request).interest where
  focus p := by
    show p ∈ (load _ _ _ _).map _ ↔ p ∈ (load _ _ _ _).map _
    rw [List.mem_map, List.mem_map]
    exact exists_congr fun f => and_congr_left fun _ => mem_load_respells hroot h.focus
  paths p := by
    show p ∈ (load _ _ _ _).map _ ++ (load _ _ _ _).map _
      ↔ p ∈ (load _ _ _ _).map _ ++ (load _ _ _ _).map _
    rw [← List.map_append, ← List.map_append, List.mem_map, List.mem_map]
    exact exists_congr fun f => and_congr_left fun _ => mem_load_restated hroot h
  mentionedFiles seen := by
    refine mem_relative_respells hroot (fun p hp => ?_) h.mentionedFiles seen
    exact hplain p (List.mem_append_right _ hp)
  mentionedNames := h.mentionedNames

theorem spelledOnce_interest (hroot : root.isAbsolute = true) (hplain : request.Plain) :
    Path.SpelledOnce (gather fs root maxSize request).interest.paths := by
  intro p hp q hq heq
  have hseen : ∀ seen ∈ (gather fs root maxSize request).interest.paths,
      ∃ f ∈ load fs root maxSize request.focus ++ load fs root maxSize request.other,
        f.path = seen := by
    intro seen hmem
    have hmem' : seen ∈ (load fs root maxSize request.focus).map _
        ++ (load fs root maxSize request.other).map _ := hmem
    rw [← List.map_append] at hmem'
    exact List.mem_map.mp hmem'
  obtain ⟨f, hf, rfl⟩ := hseen p hp
  obtain ⟨g, hg, rfl⟩ := hseen q hq
  exact (agreeing_request hroot hplain f hf g hg heq).1

/-- The files that are printed are the same. -/
theorem sources_restated (hroot : root.isAbsolute = true) (hplain : request.Plain)
    (h : restated.Restates root request) :
    (gather fs root maxSize restated).files.map sourceOf
      = (gather fs root maxSize request).files.map sourceOf := by
  symm
  apply (agreeing_request hroot hplain).distinctFiles_eq
  intro f
  exact (mem_load_restated hroot h).symm

/-- The budget asks whether a path in focus was given. -/
theorem effectiveBudget_restated (settings : MapSettings) (h : restated.Restates root request) :
    effectiveBudget settings restated = effectiveBudget settings request := by
  unfold effectiveBudget
  rw [h.focus.isEmpty_eq, h.budget]

end Restated

-- ===================================================================== maps

/-- The tags of a file are found in its content and its path. -/
theorem rankedItems_eq (m : Material) :
    rankedItems m
      = (FileGraph.build ((m.files.map sourceOf).flatMap fun s => extractTags s.path s.content)
          m.interest).rankedItems FileGraph.floatRoot m.interest := by
  unfold rankedItems
  rw [List.flatMap_map]
  rfl

section Maps

variable {maker : RepoMap} {fs : FileSystem} {restated request : MapRequest}
  (hroot : maker.root.isAbsolute = true) (hplain : request.Plain)
  (h : restated.Restates maker.root request)

include hroot hplain h

theorem alike_restated : (maker.materialFor fs restated).interest.Alike
    (maker.materialFor fs request).interest :=
  interest_alike hroot hplain h

theorem rankedItems_restated :
    rankedItems (maker.materialFor fs restated) = rankedItems (maker.materialFor fs request) := by
  have halike : (maker.materialFor fs restated).interest.Alike
      (maker.materialFor fs request).interest := alike_restated hroot hplain h
  have hspelled : Path.SpelledOnce (maker.materialFor fs request).interest.paths :=
    spelledOnce_interest hroot hplain
  have hsources : (maker.materialFor fs restated).files.map sourceOf
      = (maker.materialFor fs request).files.map sourceOf := sources_restated hroot hplain h
  rw [rankedItems_eq, rankedItems_eq, hsources]
  apply FileGraph.rankedItems_alike halike
  exact hspelled.subset fun p hp => (halike.paths p).mp hp

/-- Outlines are printed from the same sources, and leave out the same files. -/
theorem render_restated (items : List RankedItem) :
    Outline.render (outlineSetting maker.settings (maker.materialFor fs restated)) items
      = Outline.render (outlineSetting maker.settings (maker.materialFor fs request)) items := by
  apply Outline.render_congr
  · exact sources_restated hroot hplain h
  · exact (alike_restated hroot hplain h).focus
  · rfl

/-- The preface tells whether a file in focus was read. -/
theorem prefaceFor_restated : maker.prefaceFor fs restated = maker.prefaceFor fs request := by
  unfold prefaceFor
  rw [isEmpty_eq_of_mem_iff (alike_restated hroot hplain h).focus]

theorem fitted_restated :
    maker.fitted fs restated Outline.render = maker.fitted fs request Outline.render := by
  unfold fitted
  dsimp only
  rw [effectiveBudget_restated maker.settings h, prefaceFor_restated hroot hplain h,
    rankedItems_restated hroot hplain h]
  simp only [render_restated hroot hplain h]

end Maps

/-- A map request is a pair of sets of files.

Below an absolute root, whatever is in the file system, requests that name the
same files get the same map, and leave the same excerpts behind: paths may be
given in any order, as often as one likes and in either spelling, and files in
focus may be named among the other files as well. This holds of plain paths, the
ones without empty, `.` and `..` components. -/
theorem generate_reads_file_sets (maker : RepoMap) (fs : FileSystem)
    {restated request : MapRequest} (hroot : maker.root.isAbsolute = true)
    (hplain : request.Plain) (h : restated.Restates maker.root request) :
    maker.generate fs restated = maker.generate fs request := by
  rw [generate_eq, generate_eq, prefaceFor_restated hroot hplain h,
    fitted_restated hroot hplain h]

/-- The one file of the notes, in both spellings. -/
def wordyRequest : MapRequest where
  other := [⟨"/a.py"⟩, ⟨"a.py"⟩]

theorem wordyRequest_restates : wordyRequest.Restates notesMaker.root notesRequest where
  focus := ⟨by decide, by decide⟩
  other := ⟨[], List.nil_subset _, by decide +kernel, by decide +kernel⟩
  mentionedFiles := ⟨by decide, by decide⟩
  mentionedNames _ := Iff.rfl
  budget := rfl

theorem plain_notesRequest : notesRequest.Plain := by
  intro p hp
  obtain rfl : p = ⟨"a.py"⟩ := List.mem_singleton.mp hp
  exact ⟨["a.py".toList], by decide +kernel, .inl (by decide +kernel)⟩

/-- Three files that call each other. -/
def ringTree : FileSystem where
  top := .directory [("a.py", .file "def f():\n    g()\n".toUTF8),
    ("b.py", .file "def g():\n    h()\n".toUTF8), ("c.py", .file "def h():\n    f()\n".toUTF8)]

/-- One of the files in focus. -/
def ringRequest : MapRequest where
  focus := [⟨"b.py"⟩]
  other := [⟨"a.py"⟩, ⟨"c.py"⟩]
  mentionedFiles := [⟨"c.py"⟩]
  budget := some 100

/-- The same files the other way round, the one in focus among them. -/
def turnedRequest : MapRequest where
  focus := [⟨"/b.py"⟩, ⟨"b.py"⟩]
  other := [⟨"c.py"⟩, ⟨"b.py"⟩, ⟨"/a.py"⟩, ⟨"/c.py"⟩]
  mentionedFiles := [⟨"/c.py"⟩]
  budget := some 100

theorem turnedRequest_restates : turnedRequest.Restates notesMaker.root ringRequest where
  focus := ⟨by decide +kernel, by decide +kernel⟩
  other := ⟨[⟨"b.py"⟩], by decide, by decide +kernel, by decide +kernel⟩
  mentionedFiles := ⟨by decide +kernel, by decide +kernel⟩
  mentionedNames _ := Iff.rfl
  budget := rfl

theorem plain_ringRequest : ringRequest.Plain := by
  have hnames : ∀ p ∈ ringRequest.focus ++ ringRequest.other ++ ringRequest.mentionedFiles,
      p = ⟨"a.py"⟩ ∨ p = ⟨"b.py"⟩ ∨ p = ⟨"c.py"⟩ := by decide
  intro p hp
  rcases hnames p hp with rfl | rfl | rfl
  · exact ⟨["a.py".toList], by decide +kernel, .inl (by decide +kernel)⟩
  · exact ⟨["b.py".toList], by decide +kernel, .inl (by decide +kernel)⟩
  · exact ⟨["c.py".toList], by decide +kernel, .inl (by decide +kernel)⟩

/-- A file that is named twice is shown once, and three files make one map in
either order. -/
theorem generate_reads_file_sets_sample :
    notesMaker.root.isAbsolute = true
      ∧ (notesRequest.Plain ∧ wordyRequest.Restates notesMaker.root notesRequest
        ∧ (notesMaker.generate (notesTree "def f():\n    f()\n") wordyRequest).1
          = "Some files:\n\na.py:\n\u2502def f():\n\u22ee...\n")
      ∧ ringRequest.Plain ∧ turnedRequest.Restates notesMaker.root ringRequest
        ∧ ((load ringTree notesMaker.root 100 ringRequest.other).map (·.path.text)
            = ["a.py", "c.py"]
          ∧ (load ringTree notesMaker.root 100 turnedRequest.other).map (·.path.text)
            = ["c.py", "b.py", "a.py", "c.py"])
        ∧ notesMaker.generate ringTree turnedRequest
          = notesMaker.generate ringTree ringRequest := by
  have hroot : notesMaker.root.isAbsolute = true := by decide +kernel
  refine ⟨hroot, ⟨plain_notesRequest, wordyRequest_restates, ?_⟩, plain_ringRequest,
    turnedRequest_restates, ⟨by decide +kernel, by decide +kernel⟩, ?_⟩
  · rw [generate_reads_file_sets notesMaker _ hroot plain_notesRequest wordyRequest_restates]
    decide +kernel
  · exact generate_reads_file_sets notesMaker _ hroot plain_ringRequest turnedRequest_restates

end RepoMap

end CodeMap
