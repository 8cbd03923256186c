/-
A map depends on the files as they are, not on the maps that were made before.

# Calls

Between two requests anything may happen to the files. `calls` lists the
requests of such a run, each with the maker as its history left it and the
files as they are at that moment. A call starts by dropping all excerpts, so
the maker's past enters nowhere (`generate_eq` has the empty cache on its right
side), and a call changes nothing else about the maker.

# Excerpts

Within one call excerpts are kept, and the key under which one is kept leaves
out the content of the file. A kept excerpt may be served because the contents
that a call reads do not change while it runs. `Faithful` says so of a cache:
whatever it holds for a file whose content is at hand is the excerpt of that
content. To speak of the lookups inside a call, the search is run once more
with a log (`lookups`); `Recorded` ties the two runs together through all
renderings of the search. It is a relation between states, and `Agree` lifts it
from single sections to the whole search.
-/
import CodeMap.Proofs.Path.Sets
import CodeMap.Proofs.RepoMap.Budget

namespace CodeMap

-- ============================================================ agreeing runs

/-- From related states two computations give the same result and end in
related states. -/
def Agree {σ τ α : Type} (R : σ → τ → Prop) (x : StateM σ α) (y : StateM τ α) : Prop :=
  ∀ s t, R s t → (x.run s).1 = (y.run t).1 ∧ R (x.run s).2 (y.run t).2

namespace Agree

variable {σ τ α β : Type} {R : σ → τ → Prop}

theorem pure (a : α) : Agree R (Pure.pure a : StateM σ α) (Pure.pure a : StateM τ α) :=
  fun _ _ h => ⟨rfl, h⟩

theorem bind {x : StateM σ α} {y : StateM τ α} {f : α → StateM σ β} {g : α → StateM τ β}
    (h : Agree R x y) (h' : ∀ a, Agree R (f a) (g a)) : Agree R (x >>= f) (y >>= g) := by
  intro s t hst
  obtain ⟨hresult, hstate⟩ := h s t hst
  show ((f (x.run s).1).run (x.run s).2).1 = ((g (y.run t).1).run (y.run t).2).1
    ∧ R ((f (x.run s).1).run (x.run s).2).2 ((g (y.run t).1).run (y.run t).2).2
  rw [hresult]
  exact h' _ _ _ hstate

theorem mapM {f : α → StateM σ β} {g : α → StateM τ β} (h : ∀ a, Agree R (f a) (g a))
    (xs : List α) : Agree R (xs.mapM f) (xs.mapM g) := by
  induction xs with
  | nil => exact .pure []
  | cons x rest ih =>
      rw [List.mapM_cons, List.mapM_cons]
      exact (h x).bind fun b => ih.bind fun bs => .pure (b :: bs)

/-- The search agrees if the renderings do: which length it tries next only
depends on the texts. -/
theorem searchFrom {render : Nat → StateM σ String} {render' : Nat → StateM τ String}
    (h : ∀ n, Agree R (render n) (render' n)) (count : TokenCounter) (budget steps : Nat) :
    ∀ s : Budget.Search, Agree R (Budget.searchFrom count budget render steps s)
      (Budget.searchFrom count budget render' steps s) := by
  induction steps with
  | zero =>
      intro s
      exact .pure s.best
  | succ steps ih =>
      intro s
      unfold Budget.searchFrom
      split
      · refine (h s.middle).bind fun text => ?_
        dsimp only
        split
        · exact ih _
        · split
          · exact .pure _
          · exact ih _
      · exact .pure s.best

theorem fit {render : Nat → StateM σ String} {render' : Nat → StateM τ String}
    (h : ∀ n, Agree R (render n) (render' n)) (count : TokenCounter) (budget len : Nat) :
    Agree R (Budget.fit count budget len render) (Budget.fit count budget len render') := by
  unfold Budget.fit
  split
  · exact .pure ""
  · exact searchFrom h count budget (len + 1) _

end Agree

-- ====================================================== spellings of a path

/-- An excerpt depends on the path through the language only, and that on the
components. -/
theorem Excerpt.render_same {p q : Path} (h : p.same q = true) (content : String)
    (rows : List Nat) : Excerpt.render p content rows = Excerpt.render q content rows := by
  have hcomponents : p.components = q.components := beq_iff_eq.mp h
  have hlanguage : Language.ofPath p = Language.ofPath q := by
    simp only [Language.ofPath, Path.extension?, Path.fileName?, hcomponents]
  simp only [Excerpt.render, shownRows, scopeRanges, hlanguage]

theorem Outline.content?_same (setting : Outline.Setting) {p q : Path} (h : p.same q = true) :
    setting.content? p = setting.content? q := by
  have hcomponents : p.components = q.components := beq_iff_eq.mp h
  simp only [Outline.Setting.content?, Path.same, hcomponents]

-- =========================================================== faithful caches

namespace Excerpt.Cache

/-- Whatever a cache holds for a file whose content is at hand is the excerpt
of that content. -/
def Faithful (setting : Outline.Setting) (cache : Cache) : Prop :=
  ∀ path rows text content, cache.find? path rows = some text →
    setting.content? path = some content → text = Excerpt.render path content rows

theorem faithful_empty (setting : Outline.Setting) : Faithful setting {} := by
  intro path rows text content hfound
  cases hfound

variable {setting : Outline.Setting} {cache : Cache} {path : Path} {content : String}

/-- A lookup gives the excerpt of the content at hand, kept or not. -/
theorem Faithful.text (h : Faithful setting cache) (hcontent : setting.content? path = some content)
    (rows : List Nat) :
    (cache.render path content rows).1 = Excerpt.render path content rows := by
  unfold render
  split
  next text hfound => exact h path rows text content hfound hcontent
  next => rfl

/-- A new excerpt is kept under a key that other spellings of the path share. -/
theorem Faithful.render (h : Faithful setting cache)
    (hcontent : setting.content? path = some content) (rows : List Nat) :
    Faithful setting (cache.render path content rows).2 := by
  unfold Cache.render
  split
  next => exact h
  next =>
    intro path' rows' text content' hfound hcontent'
    unfold find? at hfound
    rw [List.find?_cons] at hfound
    split at hfound
    next hkey =>
      obtain ⟨hsame, hrows⟩ := Bool.and_eq_true_iff.mp hkey
      have hrows' : rows = rows' := beq_iff_eq.mp hrows
      rw [Outline.content?_same setting hsame, hcontent'] at hcontent
      cases hcontent
      cases hfound
      rw [Excerpt.render_same hsame, hrows']
    next => exact h path' rows' text content' hfound hcontent'

end Excerpt.Cache

-- ================================================================== lookups

/-- A lookup of an excerpt: what was asked, what the file held, and what came
back. -/
structure Lookup where
  path : Path
  rows : List Nat
  content : String
  text : String
  /-- Whether the excerpt was there already. -/
  kept : Bool
  deriving DecidableEq

namespace Outline

/-- The lookup that printing a section makes, if it makes one. -/
def lookup? (setting : Setting) (s : Section) (cache : Excerpt.Cache) : Option Lookup :=
  match s.rows, setting.content? s.path with
  | some rows, some content =>
    some ⟨s.path, rows, content, (cache.render s.path content rows).1,
      (cache.find? s.path rows).isSome⟩
  | _, _ => none

/-- What is printed of a section is what the lookup gave, and the cache is the
one that the lookup left. -/
theorem run_printSection (setting : Setting) (s : Section) (cache : Excerpt.Cache) :
    (printSection setting s).run cache
      = match lookup? setting s cache with
        | some l => ("\n" ++ s.path.text ++ ":\n" ++ l.text,
            (cache.render s.path l.content l.rows).2)
        | none => ("\n" ++ s.path.text ++ "\n", cache) := by
  unfold printSection lookup?
  cases s.rows with
  | none => rfl
  | some rows =>
      cases setting.content? s.path with
      | none => rfl
      | some content => rfl

/-- Prints a section and notes its lookup. -/
def printSectionNoting (setting : Setting) (s : Section) :
    StateM (Excerpt.Cache × List Lookup) String := fun (cache, log) =>
  (((printSection setting s).run cache).1,
    (((printSection setting s).run cache).2, log ++ (lookup? setting s cache).toList))

/-- The outline of some entries, with a log of its lookups. -/
def renderNoting (setting : Setting) (items : List RankedItem) :
    StateM (Excerpt.Cache × List Lookup) String := do
  let texts ← (sections items setting.focus).mapM (printSectionNoting setting)
  return cutLines setting.width (String.join texts)

/-- What holds between a cache and the log of the lookups that led to it. -/
structure Recorded (setting : Setting) (cache : Excerpt.Cache)
    (noted : Excerpt.Cache × List Lookup) : Prop where
  same : noted.1 = cache
  faithful : cache.Faithful setting
  /-- Every lookup had the content at hand and gave the excerpt of it. -/
  lookups : ∀ l ∈ noted.2, setting.content? l.path = some l.content
    ∧ l.text = Excerpt.render l.path l.content l.rows
  /-- The cache counts its lookups. -/
  hits : cache.hits = noted.2.countP (·.kept)
  size : cache.size = noted.2.countP (!·.kept)

theorem recorded_empty (setting : Setting) : Recorded setting {} ({}, []) :=
  ⟨rfl, Excerpt.Cache.faithful_empty setting, by simp, rfl, rfl⟩

/-- One lookup more. -/
theorem Recorded.lookup {setting : Setting} {cache : Excerpt.Cache} {log : List Lookup}
    (h : Recorded setting cache (cache, log)) {path : Path} {content : String}
    (hcontent : setting.content? path = some content) (rows : List Nat) :
    Recorded setting (cache.render path content rows).2
      ((cache.render path content rows).2,
        log ++ [⟨path, rows, content, (cache.render path content rows).1,
          (cache.find? path rows).isSome⟩]) := by
  refine ⟨rfl, h.faithful.render hcontent rows, fun l hl => ?_, ?_, ?_⟩
  · rcases List.mem_append.mp hl with hl | hl
    · exact h.lookups l hl
    · rw [List.mem_singleton.mp hl]
      exact ⟨hcontent, h.faithful.text hcontent rows⟩
  · rw [List.countP_append, ← h.hits]
    unfold Excerpt.Cache.render
    cases cache.find? path rows <;> rfl
  · rw [List.countP_append, ← h.size]
    unfold Excerpt.Cache.render
    cases cache.find? path rows <;> rfl

theorem agree_printSection (setting : Setting) (s : Section) :
    Agree (Recorded setting) (printSection setting s) (printSectionNoting setting s) := by
  rintro cache ⟨noted, log⟩ h
  obtain rfl : noted = cache := h.same
  refine ⟨rfl, ?_⟩
  show Recorded setting ((printSection setting s).run noted).2
    (((printSection setting s).run noted).2, log ++ (lookup? setting s noted).toList)
  rw [run_printSection]
  unfold lookup?
  cases s.rows with
  | none =>
      rw [Option.toList_none, List.append_nil]
      exact h
  | some rows =>
      cases hcontent : setting.content? s.path with
      | none =>
          rw [Option.toList_none, List.append_nil]
          exact h
      | some content => exact h.lookup hcontent rows

theorem agree_render (setting : Setting) (items : List RankedItem) :
    Agree (Recorded setting) (render setting items) (renderNoting setting items) :=
  (Agree.mapM (agree_printSection setting) (sections items setting.focus)).bind fun _ => .pure _

end Outline

namespace RepoMap

/-- What a cache says about itself: its size, and the lookups that found an
excerpt. -/
def cacheStats (maker : RepoMap) : Nat × Nat := (maker.cache.size, maker.cache.hits)

section Call

variable (maker : RepoMap) (fs : FileSystem) (request : MapRequest)

/-- The lookups that a call makes, in order. -/
def lookups : List Lookup := ((maker.fitted fs request Outline.renderNoting).run ({}, [])).2.2

theorem recorded_fitted :
    Outline.Recorded (outlineSetting maker.settings (maker.materialFor fs request))
      ((maker.fitted fs request Outline.render).run {}).2
      ((maker.fitted fs request Outline.renderNoting).run ({}, [])).2 :=
  (Agree.fit (fun n => Outline.agree_render _ ((rankedItems (maker.materialFor fs request)).take n))
    _ _ _ _ _ (Outline.recorded_empty _)).2

/-- The lookups of a call are those that the cache counts. -/
theorem cacheStats_generate :
    (maker.generate fs request).2.cacheStats
      = ((maker.lookups fs request).countP (!·.kept), (maker.lookups fs request).countP (·.kept)) := by
  have h := maker.recorded_fitted fs request
  rw [generate_eq, cacheStats, lookups, ← h.size, ← h.hits]

-- ================================================================== contents

/-- A file of the material was read during the call. -/
theorem read_of_mem_files {f : SourceFile} (hf : f ∈ (maker.materialFor fs request).files) :
    ∃ p ∈ request.focus ++ request.other,
      Walk.readSource? fs maker.root (Walk.fromRoot maker.root p) maker.walk.maxFileSize
        = some f := by
  have hload : ∀ paths : List Path, f ∈ load fs maker.root maker.walk.maxFileSize paths →
      ∃ p ∈ paths, Walk.readSource? fs maker.root (Walk.fromRoot maker.root p)
        maker.walk.maxFileSize = some f := by
    intro paths hmem
    obtain ⟨full, hfull, hread⟩ := List.mem_filterMap.mp hmem
    obtain ⟨p, hp, rfl⟩ := List.mem_map.mp (List.mem_filter.mp hfull).1
    exact ⟨p, hp, hread⟩
  have hmem := List.mem_mergeSort.mp ((eraseRepsBy_sublist _ _).subset hf)
  rcases List.mem_append.mp hmem with hmem | hmem
  · obtain ⟨p, hp, hread⟩ := hload request.focus hmem
    exact ⟨p, List.mem_append_left _ hp, hread⟩
  · obtain ⟨p, hp, hread⟩ := hload request.other hmem
    exact ⟨p, List.mem_append_right _ hp, hread⟩

/-- Every lookup of a call gives the excerpt of what the file holds now. -/
theorem lookup_reads_file {l : Lookup} (hl : l ∈ maker.lookups fs request) :
    ∃ p ∈ request.focus ++ request.other, ∃ f,
      Walk.readSource? fs maker.root (Walk.fromRoot maker.root p) maker.walk.maxFileSize = some f
      ∧ f.path.same l.path = true
      ∧ l.text = Excerpt.render l.path f.content l.rows := by
  obtain ⟨hcontent, htext⟩ := (maker.recorded_fitted fs request).lookups l hl
  obtain ⟨source, hsource, hheld⟩ := Option.map_eq_some_iff.mp hcontent
  obtain ⟨f, hf, rfl⟩ := List.mem_map.mp (List.mem_reverse.mp (List.mem_of_find?_eq_some hsource))
  obtain ⟨p, hp, hread⟩ := maker.read_of_mem_files fs request hf
  have hsame := List.find?_some hsource
  refine ⟨p, hp, f, hread, hsame, ?_⟩
  rw [htext, ← hheld]

end Call

-- =================================================================== history

/-- What can happen between and with a maker's requests. -/
inductive Event where
  | request (r : MapRequest)
  /-- Files were written and removed, and this is what they are now. -/
  | change (fs : FileSystem)

/-- A request with the maker and the files that it meets. -/
structure Call where
  maker : RepoMap
  fs : FileSystem
  request : MapRequest

/-- The requests of a run, each with the maker that the requests before it
left. -/
def calls (maker : RepoMap) (fs : FileSystem) : List Event → List Call
  | [] => []
  | .request r :: rest => ⟨maker, fs, r⟩ :: calls (maker.generate fs r).2 fs rest
  | .change fs' :: rest => calls maker fs' rest

/-- A new maker for the same root, with the same settings and counter. -/
def renewed (maker : RepoMap) : RepoMap where
  root := maker.root
  settings := maker.settings
  walk := maker.walk
  counter := maker.counter

theorem renewed_generate (maker : RepoMap) (fs : FileSystem) (request : MapRequest) :
    (maker.generate fs request).2.renewed = maker.renewed := by
  rw [generate_eq]
  rfl

/-- A maker answers like a new one, and is left in the same state. -/
theorem generate_renewed (maker : RepoMap) (fs : FileSystem) (request : MapRequest) :
    maker.generate fs request = maker.renewed.generate fs request := by
  rw [generate_eq, generate_eq]
  rfl

/-- Whatever was asked before, a call meets a maker that differs from the first
one in its excerpts alone. -/
theorem renewed_of_mem_calls (events : List Event) :
    ∀ {maker : RepoMap} {fs : FileSystem}, ∀ call ∈ calls maker fs events,
      call.maker.renewed = maker.renewed := by
  induction events with
  | nil =>
      intro maker fs call hcall
      cases hcall
  | cons event rest ih =>
      intro maker fs call hcall
      cases event with
      | change fs' => exact ih call hcall
      | request r =>
          rcases List.mem_cons.mp hcall with rfl | hcall
          · rfl
          · rw [ih call hcall, renewed_generate]

/-- Maps do not depend on history: after any requests and any changes to the
files, a call gives the map and the cache statistics of a new maker that is
asked once, and every excerpt that it looks up, kept or not, is the excerpt of
what the file holds at that moment. The statistics count these lookups. -/
theorem generate_forgets_history (maker : RepoMap) (fs : FileSystem) (events : List Event) :
    ∀ call ∈ calls maker fs events,
      (call.maker.generate call.fs call.request).1
        = (maker.renewed.generate call.fs call.request).1
      ∧ (call.maker.generate call.fs call.request).2.cacheStats
        = (maker.renewed.generate call.fs call.request).2.cacheStats
      ∧ (call.maker.generate call.fs call.request).2.cacheStats
        = ((call.maker.lookups call.fs call.request).countP (!·.kept),
            (call.maker.lookups call.fs call.request).countP (·.kept))
      ∧ ∀ l ∈ call.maker.lookups call.fs call.request,
          ∃ p ∈ call.request.focus ++ call.request.other, ∃ f,
            Walk.readSource? call.fs maker.root (Walk.fromRoot maker.root p)
              maker.walk.maxFileSize = some f
            ∧ f.path.same l.path = true
            ∧ l.text = Excerpt.render l.path f.content l.rows := by
  intro call hcall
  have hsetup := renewed_of_mem_calls events call hcall
  have hanswer : call.maker.generate call.fs call.request
      = maker.renewed.generate call.fs call.request := by
    rw [generate_renewed, hsetup]
  have hroot : call.maker.renewed.root = maker.renewed.root := by rw [hsetup]
  have hwalk : call.maker.renewed.walk = maker.renewed.walk := by rw [hsetup]
  refine ⟨by rw [hanswer], by rw [hanswer], cacheStats_generate _ _ _, fun l hl => ?_⟩
  show ∃ p ∈ _, ∃ f, Walk.readSource? call.fs maker.renewed.root
    (Walk.fromRoot maker.renewed.root p) maker.renewed.walk.maxFileSize = some f ∧ _
  rw [← hroot, ← hwalk]
  exact call.maker.lookup_reads_file call.fs call.request hl

/-- A request, an edit of the file, and the same request again. -/
def editedRun : List Event :=
  [.request notesRequest, .change (notesTree "def g():\n    g()\n"), .request notesRequest]

/-- The second call meets an excerpt of the old file under the key that it looks
up, and is given an excerpt of the new one. -/
theorem generate_forgets_history_sample :
    ∃ call ∈ calls notesMaker (notesTree "def f():\n    f()\n") editedRun,
      call.maker.cache.find? ⟨"a.py"⟩ [0] = some "\u2502def f():\n\u22ee...\n"
      ∧ (call.maker.generate call.fs call.request).1
        = (notesMaker.renewed.generate call.fs call.request).1
      ∧ ∃ f, Walk.readSource? call.fs ⟨"/"⟩ ⟨"/a.py"⟩ 1048576 = some f
          ∧ "\u2502def g():\n\u22ee...\n" = Excerpt.render ⟨"a.py"⟩ f.content [0] := by
  have hcall : (⟨(notesMaker.generate (notesTree "def f():\n    f()\n") notesRequest).2,
      notesTree "def g():\n    g()\n", notesRequest⟩ : Call)
      ∈ calls notesMaker (notesTree "def f():\n    f()\n") editedRun := by
    simp [calls, editedRun]
  have hlookup : (⟨⟨"a.py"⟩, [0], "def g():\n    g()\n", "\u2502def g():\n\u22ee...\n", false⟩ : Lookup)
      ∈ (notesMaker.generate (notesTree "def f():\n    f()\n") notesRequest).2.lookups
        (notesTree "def g():\n    g()\n") notesRequest := by
    decide +kernel
  obtain ⟨hanswer, -, -, hlookups⟩ := generate_forgets_history notesMaker
    (notesTree "def f():\n    f()\n") editedRun _ hcall
  obtain ⟨p, hp, f, hread, -, htext⟩ := hlookups _ hlookup
  obtain rfl : p = ⟨"a.py"⟩ := List.mem_singleton.mp hp
  exact ⟨_, hcall, by decide +kernel, hanswer, f, hread, htext⟩

end RepoMap

end CodeMap
