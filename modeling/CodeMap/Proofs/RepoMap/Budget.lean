/-
A map never has more tokens than its budget.

# The search

Nothing is known about the renderings that the search meets: they need not
grow with the number of entries, and they may depend on what was rendered
before. What the search returns is still the empty text or a rendering that it
counted and found within the budget, so whatever holds of those holds of the
result (`fit_satisfies`). The induction is over the steps of the search, and
the best text so far is all that is carried along.

# The preface

The preface is counted apart from the map that it is put in front of. For the
sum to bound the whole, a counter must not find more tokens in a joined text
than in its parts: it has to be `Subadditive`. A counter that rounds up is, so
is one that adds up over the characters.
-/
import CodeMap.RepoMap

namespace CodeMap

-- ================================================================= counters

/-- Joining texts makes no new tokens. -/
structure TokenCounter.Subadditive (count : TokenCounter) : Prop where
  empty : count "" = 0
  append : ∀ a b : String, count (a ++ b) ≤ count a + count b

namespace TokenCounter

/-- Rounding up once loses nothing against rounding up twice. -/
theorem approximate_subadditive : approximate.Subadditive := by
  refine ⟨rfl, fun a b => ?_⟩
  unfold approximate
  rw [String.length_append]
  omega

theorem bytes_subadditive : bytes.Subadditive := by
  refine ⟨rfl, fun a b => ?_⟩
  unfold bytes
  exact Nat.le_of_eq String.utf8ByteSize_append

theorem lineFeeds_subadditive : lineFeeds.Subadditive := by
  refine ⟨rfl, fun a b => ?_⟩
  unfold lineFeeds
  rw [String.toList_append]
  exact Nat.le_of_eq List.countP_append

end TokenCounter

-- =============================================================== the search

namespace Budget

variable {σ : Type} {count : TokenCounter} {budget : Nat} {render : Nat → StateM σ String}
  {P : String → Prop}

/-- A rendering replaces the best one only if it is within the budget. -/
theorem Search.keep_satisfies {s : Search} {text : String} (hbest : P s.best)
    (htext : count text ≤ budget → P text) : P (s.keep budget text (count text)).best := by
  unfold Search.keep
  split
  next hfits => exact htext hfits.1
  next => exact hbest

theorem searchFrom_satisfies
    (hrender : ∀ n st, count ((render n).run st).1 ≤ budget → P ((render n).run st).1)
    (steps : Nat) :
    ∀ (s : Search) (st : σ), P s.best →
      P ((searchFrom count budget render steps s).run st).1 := by
  induction steps with
  | zero =>
      intro s st hbest
      exact hbest
  | succ steps ih =>
      intro s st hbest
      unfold searchFrom
      by_cases hopen : s.lower ≤ s.upper
      · rw [if_pos hopen, StateT.run_bind]
        have hkept := Search.keep_satisfies hbest (hrender s.middle st)
        -- neither move of the bounds touches the best text
        show P (((if _ then _ else _ : StateM σ String)).run ((render s.middle).run st).2).1
        split
        · exact ih _ _ hkept
        · split
          · exact hkept
          · exact ih _ _ hkept
      · rw [if_neg hopen]
        exact hbest

/-- What holds of the empty text and of every rendering within the budget
holds of the text that is found. -/
theorem fit_satisfies (hempty : P "")
    (hrender : ∀ n st, count ((render n).run st).1 ≤ budget → P ((render n).run st).1)
    (len : Nat) (st : σ) : P ((fit count budget len render).run st).1 := by
  unfold fit
  split
  · exact hempty
  · exact searchFrom_satisfies hrender _ _ _ hempty

/-- The text that is found is within the budget. -/
theorem count_fit_le (hempty : count "" = 0) (budget len : Nat) (render : Nat → StateM σ String)
    (st : σ) : count ((fit count budget len render).run st).1 ≤ budget :=
  fit_satisfies (P := fun text => count text ≤ budget) (by omega) (fun _ _ h => h) len st

/-- Without a budget nothing is found. -/
theorem fit_zero (count : TokenCounter) (len : Nat) (render : Nat → StateM σ String) (st : σ) :
    ((fit count 0 len render).run st).1 = "" := by
  unfold fit
  rw [if_pos (.inl rfl)]
  rfl

end Budget

-- ================================================================== the map

namespace RepoMap

/-- What the outline of some material is printed with. -/
def outlineSetting (settings : MapSettings) (m : Material) : Outline.Setting where
  sources := m.files.map fun f => ⟨f.path, f.content⟩
  focus := m.interest.focus
  width := settings.maxLineLength

/-- The tokens that a preface leaves of a budget. -/
def room (count : TokenCounter) (preface : Option String) (budget : Nat) : Nat :=
  budget - (preface.map count).getD 0

/-- A map with its preface; an empty map has none. -/
def withPreface (preface : Option String) (map : String) : String :=
  if map = "" then "" else preface.getD "" ++ map

section Request

variable (maker : RepoMap) (fs : FileSystem) (request : MapRequest)

/-- What is read for a request. -/
def materialFor : Material := gather fs maker.root maker.walk.maxFileSize request

/-- The preface of the map for a request. -/
def prefaceFor : Option String :=
  preface? maker.settings (!(maker.materialFor fs request).interest.focus.isEmpty)

/-- The map for a request without its preface, from outlines that `render`
makes. -/
def fitted {σ : Type} (render : Outline.Setting → List RankedItem → StateM σ String) :
    StateM σ String :=
  let m := maker.materialFor fs request
  Budget.fit maker.counter
    (room maker.counter (maker.prefaceFor fs request) (effectiveBudget maker.settings request))
    (rankedItems m).length
    fun n => render (outlineSetting maker.settings m) ((rankedItems m).take n)

/-- A call in one expression. Its early ends are no cases of their own: a
search without a budget or without entries finds the empty text at once. -/
theorem generate_eq :
    maker.generate fs request
      = (withPreface (maker.prefaceFor fs request)
            ((maker.fitted fs request Outline.render).run {}).1,
          { maker with cache := ((maker.fitted fs request Outline.render).run {}).2 }) := by
  have hearly : effectiveBudget maker.settings request = 0
      ∨ rankedItems (maker.materialFor fs request) = [] →
      (maker.fitted fs request Outline.render).run {} = ("", {}) := by
    intro hnone
    have hstop : room maker.counter (maker.prefaceFor fs request)
        (effectiveBudget maker.settings request) = 0
        ∨ (rankedItems (maker.materialFor fs request)).length = 0 := by
      rcases hnone with hnone | hnone
      · exact .inl (by rw [hnone, room, Nat.zero_sub])
      · exact .inr (by rw [hnone, List.length_nil])
    unfold fitted Budget.fit
    rw [if_pos hstop]
    rfl
  unfold generate
  dsimp only
  split
  next hzero =>
    rw [hearly (.inl hzero)]
    rfl
  next =>
    split
    next hnone =>
      rw [hearly (.inr (List.isEmpty_iff.mp hnone))]
      rfl
    next => rfl

end Request

/-- The budget of a request in full: without files in focus and with a context
window it is raised, and cut to what the window leaves. A budget of zero is
not raised, which makes no difference. -/
theorem effectiveBudget_eq (settings : MapSettings) (request : MapRequest) :
    effectiveBudget settings request
      = match settings.contextWindow, request.focus with
        | some window, [] =>
          min (min (request.budget.getD settings.mapTokens * settings.multiplier) maxBudget)
            (window - windowPadding)
        | _, _ => request.budget.getD settings.mapTokens := by
  unfold effectiveBudget
  cases settings.contextWindow with
  | none => rfl
  | some window =>
      cases hfocus : request.focus with
      | cons p rest => simp
      | nil =>
          by_cases hpos : 0 < request.budget.getD settings.mapTokens
          · simp [hpos]
          · have hzero : request.budget.getD settings.mapTokens = 0 := by omega
            simp [hzero]

/-- A map that fits beside its preface fits with it. -/
theorem count_withPreface_le {count : TokenCounter} (hcount : count.Subadditive)
    {preface : Option String} {map : String} {budget : Nat}
    (hmap : count map ≤ room count preface budget)
    (hnone : room count preface budget = 0 → map = "") :
    count (withPreface preface map) ≤ budget := by
  unfold withPreface
  split
  next =>
    rw [hcount.empty]
    exact Nat.zero_le budget
  next hsome =>
    -- a preface that uses up the budget leaves no map
    have hroom : room count preface budget ≠ 0 := fun hzero => hsome (hnone hzero)
    have hpreface : count (preface.getD "") = (preface.map count).getD 0 := by
      cases preface with
      | none => exact hcount.empty
      | some text => rfl
    have hjoin := hcount.append (preface.getD "") map
    rw [hpreface] at hjoin
    unfold room at hmap hroom
    omega

theorem count_generate_le {maker : RepoMap} (hcount : maker.counter.Subadditive)
    (fs : FileSystem) (request : MapRequest) :
    maker.counter (maker.generate fs request).1 ≤ effectiveBudget maker.settings request := by
  rw [generate_eq]
  refine count_withPreface_le hcount (Budget.count_fit_le hcount.empty _ _ _ _) fun hzero => ?_
  unfold fitted
  rw [hzero]
  exact Budget.fit_zero _ _ _ _

/-- Every map is within the budget of its request, for every counter that
finds no more tokens in a joined text than in its parts, as the three counters
do; without a budget the map is empty. -/
theorem generate_within_budget :
    (TokenCounter.approximate.Subadditive ∧ TokenCounter.bytes.Subadditive
      ∧ TokenCounter.lineFeeds.Subadditive) ∧
    ∀ (maker : RepoMap) (fs : FileSystem) (request : MapRequest), maker.counter.Subadditive →
      maker.counter (maker.generate fs request).1 ≤ effectiveBudget maker.settings request
      ∧ (effectiveBudget maker.settings request = 0 → (maker.generate fs request).1 = "")
      ∧ effectiveBudget maker.settings request
        = match maker.settings.contextWindow, request.focus with
          | some window, [] =>
            min (min (request.budget.getD maker.settings.mapTokens * maker.settings.multiplier)
              maxBudget) (window - windowPadding)
          | _, _ => request.budget.getD maker.settings.mapTokens := by
  refine ⟨⟨TokenCounter.approximate_subadditive, TokenCounter.bytes_subadditive,
    TokenCounter.lineFeeds_subadditive⟩, fun maker fs request hcount =>
    ⟨count_generate_le hcount fs request, fun hzero => ?_,
      effectiveBudget_eq maker.settings request⟩⟩
  unfold generate
  rw [if_pos hzero]

/-- A directory with one file. -/
def notesTree (code : String) : FileSystem where
  top := .directory [("a.py", .file code.toUTF8)]

/-- A maker whose window leaves less than the raised budget. -/
def notesMaker : RepoMap where
  root := ⟨"/"⟩
  settings :=
    { mapTokens := 8, contextWindow := some 4105, preface := some "Some \x7bother\x7dfiles:\n" }

def notesRequest : MapRequest where
  other := [⟨"a.py"⟩]

/-- The map fills its budget to the last token. -/
theorem generate_within_budget_sample :
    effectiveBudget notesMaker.settings notesRequest = 9
      ∧ (notesMaker.generate (notesTree "def f():\n    f()\n") notesRequest).1
        = "Some files:\n\na.py:\n\u2502def f():\n\u22ee...\n"
      ∧ notesMaker.counter (notesMaker.generate (notesTree "def f():\n    f()\n") notesRequest).1
        ≤ 9 := by
  have hbudget : effectiveBudget notesMaker.settings notesRequest = 9 := by decide
  refine ⟨hbudget, by decide +kernel, ?_⟩
  rw [← hbudget]
  exact (generate_within_budget.2 notesMaker _ notesRequest
    TokenCounter.approximate_subadditive).1

end RepoMap

end CodeMap
