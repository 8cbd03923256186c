/-
Files that cannot be used are skipped, and count in one place only.

A path of a request is looked at twice: there has to be a file at it, and the
file has to hold text that is neither too large nor binary. `Unusable` lists the
ways in which that can fail, and leaving unusable paths out of a request leaves
what is read for it as it was (`gather_usablePart`).

The budget of a request is settled before anything is read, from the paths in
focus as they were given. A request whose files in focus are all unusable is
therefore not raised to what the context window allows, while everything else
treats it as one without focus. `generate_reads_usable_part` says that this is
the only trace an unusable path leaves, and `unusable_focus_lowers_budget` is a
request where it shows.
-/
import CodeMap.Proofs.Path.Spelling
import CodeMap.Proofs.RepoMap.Budget

namespace CodeMap

-- ================================================================== reading

/-- Why nothing can be read at a path. -/
inductive Unusable (fs : FileSystem) (maxSize : Nat) (p : Path) : Prop where
  | missing (why : LookupFailure) (found : fs.lookup p = .error why)
  | directory (location : List String) (children : List (String × Entry))
      (found : fs.lookup p = .ok (location, .directory children))
  | tooLarge (location : List String) (bytes : ByteArray)
      (found : fs.lookup p = .ok (location, .file bytes)) (size : maxSize < bytes.size)
  /-- The file is not UTF-8 text. -/
  | undecodable (location : List String) (bytes : ByteArray)
      (found : fs.lookup p = .ok (location, .file bytes)) (invalid : ¬ bytes.IsValidUTF8)
  /-- The file has a zero byte near its start. -/
  | binary (location : List String) (bytes : ByteArray)
      (found : fs.lookup p = .ok (location, .file bytes))
      (zero : 0 ∈ (bytes.extract 0 Walk.binaryWindow).toList)
  /-- The file is a graph database, which is binary. -/
  | database (location : List String) (store : Store)
      (found : fs.lookup p = .ok (location, .database store))

theorem usableText?_eq_none_iff {maxSize : Nat} {bytes : ByteArray} :
    Walk.usableText? maxSize bytes = none
      ↔ maxSize < bytes.size ∨ ¬ bytes.IsValidUTF8
        ∨ 0 ∈ (bytes.extract 0 Walk.binaryWindow).toList := by
  unfold Walk.usableText?
  by_cases hsize : bytes.size ≤ maxSize
  · have hnot : ¬ maxSize < bytes.size := Nat.not_lt.mpr hsize
    rw [if_pos hsize, String.fromUTF8?]
    by_cases hvalid : bytes.IsValidUTF8
    · simp [hvalid, hnot]
    · simp [hvalid]
  · rw [if_neg hsize]
    simp [Nat.lt_of_not_le hsize]

section Reading

variable {fs : FileSystem} {maxSize : Nat} {root p : Path}

theorem readSource?_eq_none_iff :
    Walk.readSource? fs root p maxSize = none
      ↔ Unusable fs maxSize (Walk.fromRoot root p) := by
  unfold Walk.readSource?
  dsimp only
  cases hfound : fs.lookup (Walk.fromRoot root p) with
  | error why => exact ⟨fun _ => .missing why hfound, fun _ => rfl⟩
  | ok found =>
      obtain ⟨location, entry⟩ := found
      cases entry with
      | directory children => exact ⟨fun _ => .directory location children hfound, fun _ => rfl⟩
      | database store => exact ⟨fun _ => .database location store hfound, fun _ => rfl⟩
      | file bytes =>
          rw [Option.map_eq_none_iff, usableText?_eq_none_iff]
          constructor
          · rintro (hsize | hinvalid | hzero)
            · exact .tooLarge location bytes hfound hsize
            · exact .undecodable location bytes hfound hinvalid
            · exact .binary location bytes hfound hzero
          · rintro (⟨_, found⟩ | ⟨_, _, found⟩ | ⟨_, _, found, hsize⟩ | ⟨_, _, found, hinvalid⟩
              | ⟨_, _, found, hzero⟩ | ⟨_, _, found⟩) <;> rw [hfound] at found <;> cases found
            · exact .inl hsize
            · exact .inr (.inl hinvalid)
            · exact .inr (.inr hzero)

/-- Where there is no file, there is nothing or a directory. -/
theorem unusable_of_not_isFile (h : fs.isFile p = false) : Unusable fs maxSize p := by
  unfold FileSystem.isFile at h
  cases hfound : fs.lookup p with
  | error why => exact .missing why hfound
  | ok found =>
      obtain ⟨location, entry⟩ := found
      rw [hfound] at h
      cases entry with
      | directory children => exact .directory location children hfound
      | file bytes => cases h
      | database store => cases h

theorem isAbsolute_fromRoot (hroot : root.isAbsolute = true) :
    (Walk.fromRoot root p).isAbsolute = true := by
  unfold Walk.fromRoot
  split
  next hp => exact hp
  next hp => exact Path.isAbsolute_join hroot (Bool.eq_false_iff.mpr hp)

/-- A path that is seen from an absolute root is not moved again. -/
theorem fromRoot_fromRoot (hroot : root.isAbsolute = true) :
    Walk.fromRoot root (Walk.fromRoot root p) = Walk.fromRoot root p :=
  if_pos (isAbsolute_fromRoot hroot)

end Reading

namespace RepoMap

section Loading

variable (fs : FileSystem) (root : Path) (maxSize : Nat)

/-- What is read for a path of a request. -/
def read? (p : Path) : Option SourceFile :=
  if fs.isFile (Walk.fromRoot root p) then
    Walk.readSource? fs root (Walk.fromRoot root p) maxSize
  else none

/-- No file is at the path, or the file that is then read is unusable. Before
reading, a relative root is put in front once more. -/
def Skipped (p : Path) : Prop :=
  fs.isFile (Walk.fromRoot root p) = false
    ∨ Unusable fs maxSize (Walk.fromRoot root (Walk.fromRoot root p))

theorem load_eq (paths : List Path) :
    load fs root maxSize paths = paths.filterMap (read? fs root maxSize) := by
  unfold load
  dsimp only
  rw [List.filter_map, List.filterMap_map, List.filterMap_filter]
  rfl

variable {fs root maxSize} {p : Path}

theorem read?_eq_none_iff : read? fs root maxSize p = none ↔ Skipped fs root maxSize p := by
  unfold read? Skipped
  cases fs.isFile (Walk.fromRoot root p) with
  | false => simp
  | true => simp [readSource?_eq_none_iff]

instance : DecidablePred (Skipped fs root maxSize) := fun _ =>
  decidable_of_iff _ read?_eq_none_iff

/-- Below an absolute root exactly the unusable files are skipped. -/
theorem skipped_iff_unusable (hroot : root.isAbsolute = true) :
    Skipped fs root maxSize p ↔ Unusable fs maxSize (Walk.fromRoot root p) := by
  unfold Skipped
  rw [fromRoot_fromRoot hroot]
  exact or_iff_right_of_imp unusable_of_not_isFile

theorem load_filter_not_skipped (paths : List Path) :
    load fs root maxSize (paths.filter fun p => ¬ Skipped fs root maxSize p)
      = load fs root maxSize paths := by
  rw [load_eq, load_eq, List.filterMap_filter]
  refine List.filterMap_congr fun p _ => ?_
  split
  next => rfl
  next hskipped =>
    symm
    exact read?_eq_none_iff.mpr (by simpa using hskipped)

end Loading

-- ================================================================= requests

section Requests

variable (maker : RepoMap) (fs : FileSystem) (request : MapRequest)

/-- The request without the paths that are skipped. -/
def usablePart : MapRequest :=
  let usable (p : Path) : Bool := ¬ Skipped fs maker.root maker.walk.maxFileSize p
  { request with
    focus := request.focus.filter usable
    other := request.other.filter usable }

/-- The maker with another context window. -/
def withWindow (window : Option Nat) : RepoMap :=
  { maker with settings := { maker.settings with contextWindow := window } }

/-- What is skipped is no part of what is read. -/
theorem gather_usablePart :
    gather fs maker.root maker.walk.maxFileSize (maker.usablePart fs request)
      = gather fs maker.root maker.walk.maxFileSize request := by
  unfold gather usablePart
  dsimp only
  rw [load_filter_not_skipped, load_filter_not_skipped]

variable {maker fs request}

/-- A map is made from what is read and from the budget. The context window
counts for nothing else. -/
theorem generate_usablePart {window : Option Nat}
    (hbudget : effectiveBudget (maker.withWindow window).settings (maker.usablePart fs request)
      = effectiveBudget maker.settings request) :
    ((maker.withWindow window).generate fs (maker.usablePart fs request)).1
        = (maker.generate fs request).1
      ∧ ((maker.withWindow window).generate fs (maker.usablePart fs request)).2.cache
        = (maker.generate fs request).2.cache := by
  have hmaterial : (maker.withWindow window).materialFor fs (maker.usablePart fs request)
      = maker.materialFor fs request := maker.gather_usablePart fs request
  have hpreface : (maker.withWindow window).prefaceFor fs (maker.usablePart fs request)
      = maker.prefaceFor fs request := by
    unfold prefaceFor
    rw [hmaterial]
    rfl
  have hfitted : (maker.withWindow window).fitted fs (maker.usablePart fs request) Outline.render
      = maker.fitted fs request Outline.render := by
    unfold fitted
    rw [hbudget, hpreface, hmaterial]
    rfl
  rw [generate_eq, generate_eq, hpreface, hfitted]
  exact ⟨rfl, rfl⟩

/-- Without a context window a budget is not raised. -/
theorem effectiveBudget_withoutWindow (hfocus : request.focus ≠ []) :
    effectiveBudget (maker.withWindow none).settings (maker.usablePart fs request)
      = effectiveBudget maker.settings request := by
  rw [effectiveBudget_eq, effectiveBudget_eq]
  cases hpaths : request.focus with
  | nil => exact absurd hpaths hfocus
  | cons p rest => cases maker.settings.contextWindow <;> rfl

/-- The budget is another one only if there are files in focus, all of them are
skipped, and there is a context window to raise it to. -/
theorem effectiveBudget_usablePart_ne
    (h : effectiveBudget maker.settings (maker.usablePart fs request)
      ≠ effectiveBudget maker.settings request) :
    request.focus ≠ [] ∧ (maker.usablePart fs request).focus = []
      ∧ maker.settings.contextWindow ≠ none := by
  rw [effectiveBudget_eq, effectiveBudget_eq] at h
  refine ⟨fun hnone => h ?_, ?_, fun hnone => h ?_⟩
  · have hnone' : (maker.usablePart fs request).focus = [] := by
      show request.focus.filter _ = []
      rw [hnone, List.filter_nil]
    rw [hnone, hnone']
    rfl
  · cases hpaths : (maker.usablePart fs request).focus with
    | nil => rfl
    | cons p rest =>
        -- a file that is left was there before
        have hfocus : request.focus ≠ [] := by
          intro hnone
          have hmem : p ∈ request.focus.filter _ := hpaths ▸ List.mem_cons_self
          rw [hnone] at hmem
          cases hmem
        obtain ⟨q, others, hq⟩ := List.exists_cons_of_ne_nil hfocus
        rw [hpaths, hq] at h
        exact absurd (by cases maker.settings.contextWindow <;> rfl) h
  · rw [hnone]
    rfl

end Requests

/-- Skipped files change a map through its budget only.

Leaving the skipped paths out of the lists of a request leaves its map as it is,
and the excerpts that are kept with it, whenever it leaves the budget. It
changes the budget only if there are files in focus and all of them are skipped,
and if there is a context window: then the request counts as one with focus, and
its map is the one that a maker without a context window makes from what is
left. Below an absolute root exactly the unusable paths are skipped. -/
theorem generate_reads_usable_part (maker : RepoMap) (fs : FileSystem) (request : MapRequest) :
    (maker.root.isAbsolute = true → ∀ p, Skipped fs maker.root maker.walk.maxFileSize p
        ↔ Unusable fs maker.walk.maxFileSize (Walk.fromRoot maker.root p))
      ∧ (effectiveBudget maker.settings (maker.usablePart fs request)
          = effectiveBudget maker.settings request →
        maker.generate fs (maker.usablePart fs request) = maker.generate fs request)
      ∧ (effectiveBudget maker.settings (maker.usablePart fs request)
          ≠ effectiveBudget maker.settings request →
        request.focus ≠ []
          ∧ (∀ p ∈ request.focus, Skipped fs maker.root maker.walk.maxFileSize p)
          ∧ maker.settings.contextWindow ≠ none)
      ∧ (request.focus ≠ [] →
        (maker.generate fs request).1
            = ((maker.withWindow none).generate fs (maker.usablePart fs request)).1
          ∧ (maker.generate fs request).2.cache
            = ((maker.withWindow none).generate fs (maker.usablePart fs request)).2.cache) := by
  refine ⟨fun hroot p => skipped_iff_unusable hroot, fun hbudget => ?_, fun hbudget => ?_,
    fun hfocus => ?_⟩
  · obtain ⟨htext, hcache⟩ := generate_usablePart
      (show effectiveBudget (maker.withWindow maker.settings.contextWindow).settings
        (maker.usablePart fs request) = effectiveBudget maker.settings request from hbudget)
    have hmaker : maker.withWindow maker.settings.contextWindow = maker := rfl
    rw [hmaker] at htext hcache
    rw [generate_eq, generate_eq] at htext hcache ⊢
    exact Prod.ext htext (congrArg (fun cache => { maker with cache }) hcache)
  · obtain ⟨hfocus, hskipped, hwindow⟩ := effectiveBudget_usablePart_ne hbudget
    refine ⟨hfocus, fun p hp => ?_, hwindow⟩
    have hnot := List.filter_eq_nil_iff.mp hskipped p hp
    simpa using hnot
  · obtain ⟨htext, hcache⟩ := generate_usablePart (effectiveBudget_withoutWindow hfocus)
    exact ⟨htext.symm, hcache.symm⟩

/-- A missing file beside one that is there. -/
def gappyRequest : MapRequest where
  other := [⟨"gone.py"⟩, ⟨"a.py"⟩]

/-- A missing file in focus. -/
def unfocusedRequest : MapRequest where
  focus := [⟨"gone.py"⟩]
  other := [⟨"a.py"⟩]

/-- A missing file is passed over among the others; in focus it only keeps the
budget from being raised. -/
theorem generate_reads_usable_part_sample :
    Unusable (notesTree "def f():\n    f()\n") 1048576 ⟨"/gone.py"⟩
      ∧ (notesMaker.usablePart (notesTree "def f():\n    f()\n") gappyRequest).other
        = [⟨"a.py"⟩]
      ∧ notesMaker.generate (notesTree "def f():\n    f()\n")
          (notesMaker.usablePart (notesTree "def f():\n    f()\n") gappyRequest)
        = notesMaker.generate (notesTree "def f():\n    f()\n") gappyRequest
      ∧ (notesMaker.generate (notesTree "def f():\n    f()\n") unfocusedRequest).1
        = ((notesMaker.withWindow none).generate (notesTree "def f():\n    f()\n")
          (notesMaker.usablePart (notesTree "def f():\n    f()\n") unfocusedRequest)).1 := by
  have hroot : notesMaker.root.isAbsolute = true := by decide +kernel
  have hmissing : Skipped (notesTree "def f():\n    f()\n") notesMaker.root
      notesMaker.walk.maxFileSize ⟨"gone.py"⟩ := by decide +kernel
  obtain ⟨hskipped, hsame, -, -⟩ :=
    generate_reads_usable_part notesMaker (notesTree "def f():\n    f()\n") gappyRequest
  obtain ⟨-, -, -, hfocus⟩ :=
    generate_reads_usable_part notesMaker (notesTree "def f():\n    f()\n") unfocusedRequest
  exact ⟨(hskipped hroot ⟨"gone.py"⟩).mp hmissing, by decide +kernel, hsame (by decide +kernel),
    (hfocus (by decide)).1⟩

/-- A missing file in focus takes the map away: it does not fit into the budget
that is not raised. -/
theorem unusable_focus_lowers_budget :
    (notesMaker.generate (notesTree "def f():\n    f()\n") unfocusedRequest).1 = ""
      ∧ (notesMaker.generate (notesTree "def f():\n    f()\n")
          (notesMaker.usablePart (notesTree "def f():\n    f()\n") unfocusedRequest)).1
        = "Some files:\n\na.py:\n\u2502def f():\n\u22ee...\n"
      ∧ ¬ ∀ (maker : RepoMap) (fs : FileSystem) (request : MapRequest),
        (maker.generate fs (maker.usablePart fs request)).1 = (maker.generate fs request).1 := by
  have hraised : (notesMaker.generate (notesTree "def f():\n    f()\n")
      (notesMaker.usablePart (notesTree "def f():\n    f()\n") unfocusedRequest)).1
      = "Some files:\n\na.py:\n\u2502def f():\n\u22ee...\n" := by decide +kernel
  have hempty : (notesMaker.generate (notesTree "def f():\n    f()\n") unfocusedRequest).1
      = "" := by decide +kernel
  refine ⟨hempty, hraised, fun hclaim => ?_⟩
  have hsame := hclaim notesMaker (notesTree "def f():\n    f()\n") unfocusedRequest
  rw [hempty, hraised] at hsame
  exact absurd hsame (by decide)

end RepoMap

end CodeMap
