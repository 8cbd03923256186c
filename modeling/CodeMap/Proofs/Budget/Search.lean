/-
The search for the rendering that fills a budget best.

# The loop

`fit` counts its steps so as to be defined for every renderer. `Loop` is the
same search without the count, as a relation: one rule for each way through the
body of the loop, from the state of the search at its head to the state in
which it ends, with the calls of the renderer on the way. A derivation is
finite, so to have one is to terminate. The rules also ask of every sum that it
does not exceed a limit and of every difference that it is not below zero: with
the limit of a machine word a derivation is a run in which no bound wraps
around. `exists_loop` finds the derivation that `searchFrom` computes. What
carries it is `Placed`: while lengths are in question, the next one to try is
one of them, although the first one is not in their middle.

# Renderings that get no cheaper

Of an arbitrary renderer only the calls are known, and the result is the best
of them (`Found`). If longer renderings never have fewer tokens, a call settles
all lengths on one side of it: those below a rendering that leaves room are no
better than it is, those above one that fills the budget are beyond the budget
or no better either. `Settled` says so of both sides at once, in terms of the
best rendering so far.
-/
import CodeMap.Budget
import CodeMap.Limits

namespace CodeMap.Budget

variable {σ : Type} {count : TokenCounter} {budget limit len : Nat}
  {render : Nat → StateM σ String}

-- ================================================================= the loop

/-- A call of the renderer: the length that it was asked for, and the text. -/
structure Probe where
  length : Nat
  text : String
  deriving DecidableEq

/-- The calls `calls` lead the search from `s` to its end in `t`, and the
renderer from one state to another, without a number beyond `limit`. -/
inductive Loop (count : TokenCounter) (budget limit : Nat) (render : Nat → StateM σ String) :
    Search → σ → List Probe → Search → σ → Prop where
  | closed {s : Search} {st : σ} (hclosed : s.upper < s.lower) :
      Loop count budget limit render s st [] s st
  | bottom {s : Search} {st st' : σ} {text : String} (hopen : s.lower ≤ s.upper)
      (hcall : (render s.middle).run st = (text, st')) (hfull : budget ≤ count text)
      (hzero : s.middle = 0) :
      Loop count budget limit render s st [⟨s.middle, text⟩]
        (s.keep budget text (count text)) st'
  | longer {s t : Search} {st st' st'' : σ} {text : String} {calls : List Probe}
      (hopen : s.lower ≤ s.upper) (hcall : (render s.middle).run st = (text, st'))
      (hroom : count text < budget) (hsum : s.middle + 1 + s.upper ≤ limit)
      (hrest : Loop count budget limit render (s.keep budget text (count text)).longer st'
        calls t st'') :
      Loop count budget limit render s st (⟨s.middle, text⟩ :: calls) t st''
  | shorter {s t : Search} {st st' st'' : σ} {text : String} {calls : List Probe}
      (hopen : s.lower ≤ s.upper) (hcall : (render s.middle).run st = (text, st'))
      (hfull : budget ≤ count text) (hpos : 1 ≤ s.middle)
      (hsum : s.lower + (s.middle - 1) ≤ limit)
      (hrest : Loop count budget limit render (s.keep budget text (count text)).shorter st'
        calls t st'') :
      Loop count budget limit render s st (⟨s.middle, text⟩ :: calls) t st''

/-- The search before its first call. -/
def start (budget len : Nat) : Search := ⟨0, len, min (budget / 25) len, "", 0⟩

/-- A whole search with its calls, its result and the state of the renderer at
its end; without a budget or without lengths there is nothing to search. -/
inductive Fitting (count : TokenCounter) (budget len limit : Nat)
    (render : Nat → StateM σ String) (st : σ) : List Probe → String → σ → Prop where
  | idle (hnone : budget = 0 ∨ len = 0) : Fitting count budget len limit render st [] "" st
  | searched (hbudget : budget ≠ 0) (hlen : len ≠ 0) {calls : List Probe} {t : Search} {st' : σ}
      (hloop : Loop count budget limit render (start budget len) st calls t st') :
      Fitting count budget len limit render st calls t.best st'

namespace Search

variable (s : Search) (text : String) (tokens : Nat)

@[simp]
theorem keep_lower : (s.keep budget text tokens).lower = s.lower := by
  unfold keep
  split <;> rfl

@[simp]
theorem keep_upper : (s.keep budget text tokens).upper = s.upper := by
  unfold keep
  split <;> rfl

@[simp]
theorem keep_middle : (s.keep budget text tokens).middle = s.middle := by
  unfold keep
  split <;> rfl

/-- Keeping a rendering never lowers the best count. -/
theorem le_keep_bestTokens : s.bestTokens ≤ (s.keep budget text tokens).bestTokens := by
  unfold keep
  split
  next hkept => exact Nat.le_of_lt hkept.2
  next => exact Nat.le_refl s.bestTokens

/-- A rendering within the budget counts no more than the best one afterwards. -/
theorem tokens_le_keep_bestTokens {tokens : Nat} (h : tokens ≤ budget) :
    tokens ≤ (s.keep budget text tokens).bestTokens := by
  unfold keep
  split
  next => exact Nat.le_refl tokens
  next hother => exact Nat.le_of_not_lt fun hlt => hother ⟨h, hlt⟩

/-- While lengths are in question, the next one to try is one of them. -/
structure Placed (s : Search) (len : Nat) : Prop where
  upper_le : s.upper ≤ len
  lower_le : s.lower ≤ s.upper → s.lower ≤ s.middle
  le_upper : s.lower ≤ s.upper → s.middle ≤ s.upper

namespace Placed

variable {s : Search}

theorem start (budget len : Nat) : (start budget len).Placed len where
  upper_le := Nat.le_refl len
  lower_le _ := Nat.zero_le _
  le_upper _ := Nat.min_le_right _ _

theorem keep (h : s.Placed len) (budget : Nat) (text : String) (tokens : Nat) :
    (s.keep budget text tokens).Placed len := by
  refine ⟨?_, ?_, ?_⟩
  · rw [keep_upper]
    exact h.upper_le
  · rw [keep_lower, keep_upper, keep_middle]
    exact h.lower_le
  · rw [keep_lower, keep_upper, keep_middle]
    exact h.le_upper

theorem longer (h : s.Placed len) : s.longer.Placed len where
  upper_le := h.upper_le
  lower_le hopen := by
    have hopen' : s.middle + 1 ≤ s.upper := hopen
    show s.middle + 1 ≤ (s.middle + 1 + s.upper) / 2
    omega
  le_upper hopen := by
    have hopen' : s.middle + 1 ≤ s.upper := hopen
    show (s.middle + 1 + s.upper) / 2 ≤ s.upper
    omega

theorem shorter (h : s.Placed len) (hopen : s.lower ≤ s.upper) : s.shorter.Placed len where
  upper_le := by
    have hmiddle := h.le_upper hopen
    have hupper := h.upper_le
    show s.middle - 1 ≤ len
    omega
  lower_le hstill := by
    have hstill' : s.lower ≤ s.middle - 1 := hstill
    show s.lower ≤ (s.lower + (s.middle - 1)) / 2
    omega
  le_upper hstill := by
    have hstill' : s.lower ≤ s.middle - 1 := hstill
    show (s.lower + (s.middle - 1)) / 2 ≤ s.middle - 1
    omega

end Placed

end Search

section Runs

variable (count : TokenCounter) (budget : Nat) (render : Nat → StateM σ String)

/-- One round of the search. -/
theorem run_searchFrom {s : Search} {st st' : σ} {text : String} (hopen : s.lower ≤ s.upper)
    (hcall : (render s.middle).run st = (text, st')) (steps : Nat) :
    (searchFrom count budget render (steps + 1) s).run st
      = if count text < budget then
          (searchFrom count budget render steps (s.keep budget text (count text)).longer).run st'
        else if s.middle = 0 then ((s.keep budget text (count text)).best, st')
        else
          (searchFrom count budget render steps (s.keep budget text (count text)).shorter).run
            st' := by
  rw [searchFrom, if_pos hopen, StateT.run_bind, hcall]
  show (if _ then _ else _ : StateM σ String).run st' = _
  split
  next => rfl
  next =>
    split
    next => rfl
    next => rfl

/-- With as many steps as there are lengths in question, `searchFrom` runs the
loop to its end. -/
theorem exists_loop (hlimit : 2 * len + 1 ≤ limit) (steps : Nat) :
    ∀ (s : Search) (st : σ), s.Placed len → s.upper + 1 - s.lower ≤ steps →
      ∃ calls t st', Loop count budget limit render s st calls t st'
        ∧ (searchFrom count budget render steps s).run st = (t.best, st') := by
  induction steps with
  | zero =>
      intro s st hplaced hsteps
      have hclosed : s.upper < s.lower := by omega
      exact ⟨[], s, st, .closed hclosed, rfl⟩
  | succ steps ih =>
      intro s st hplaced hsteps
      by_cases hopen : s.lower ≤ s.upper
      · have hlower := hplaced.lower_le hopen
        have hmiddle := hplaced.le_upper hopen
        have hupper := hplaced.upper_le
        rcases hcall : (render s.middle).run st with ⟨text, st'⟩
        have hkept := hplaced.keep budget text (count text)
        rw [run_searchFrom count budget render hopen hcall]
        by_cases hroom : count text < budget
        · rw [if_pos hroom]
          have hfewer : (s.keep budget text (count text)).longer.upper + 1
              - (s.keep budget text (count text)).longer.lower ≤ steps := by
            simp only [Search.longer, Search.keep_upper, Search.keep_middle]
            omega
          obtain ⟨calls, t, st'', hloop, hrun⟩ := ih _ st' hkept.longer hfewer
          exact ⟨_, t, st'', .longer hopen hcall hroom (by omega) hloop, hrun⟩
        · rw [if_neg hroom]
          have hfull : budget ≤ count text := Nat.le_of_not_lt hroom
          by_cases hzero : s.middle = 0
          · rw [if_pos hzero]
            exact ⟨_, _, st', .bottom hopen hcall hfull hzero, rfl⟩
          · rw [if_neg hzero]
            have hpos : 1 ≤ s.middle := Nat.one_le_iff_ne_zero.mpr hzero
            have hfewer : (s.keep budget text (count text)).shorter.upper + 1
                - (s.keep budget text (count text)).shorter.lower ≤ steps := by
              simp only [Search.shorter, Search.keep_lower, Search.keep_middle]
              omega
            obtain ⟨calls, t, st'', hloop, hrun⟩ :=
              ih _ st' (hkept.shorter (by simpa using hopen)) hfewer
            exact ⟨_, t, st'', .shorter hopen hcall hfull hpos (by omega) hloop, hrun⟩
      · refine ⟨[], s, st, .closed (Nat.lt_of_not_le hopen), ?_⟩
        unfold searchFrom
        rw [if_neg hopen]
        rfl

/-- `fit` computes a whole search. -/
theorem exists_fitting (hlimit : 2 * len + 1 ≤ limit) (st : σ) :
    ∃ calls, Fitting count budget len limit render st calls
      ((fit count budget len render).run st).1 ((fit count budget len render).run st).2 := by
  unfold fit
  by_cases hnone : budget = 0 ∨ len = 0
  · rw [if_pos hnone]
    exact ⟨[], .idle hnone⟩
  · rw [if_neg hnone]
    obtain ⟨calls, t, st', hloop, hrun⟩ := exists_loop count budget render hlimit (len + 1)
      (start budget len) st (.start budget len) (Nat.le_refl _)
    rw [show (⟨0, len, min (budget / 25) len, "", 0⟩ : Search) = start budget len from rfl, hrun]
    exact ⟨calls, .searched (fun h => hnone (.inl h)) (fun h => hnone (.inr h)) hloop⟩

end Runs

-- ================================================================ the calls

namespace Loop

variable {s t : Search} {st st' : σ} {calls : List Probe}

/-- Only lengths in question are tried. -/
theorem between (h : Loop count budget limit render s st calls t st') (hplaced : s.Placed len) :
    ∀ p ∈ calls, s.lower ≤ p.length ∧ p.length ≤ s.upper := by
  induction h with
  | closed hclosed =>
      intro p hp
      cases hp
  | bottom hopen hcall hfull hzero =>
      intro p hp
      rw [List.mem_singleton.mp hp]
      exact ⟨hplaced.lower_le hopen, hplaced.le_upper hopen⟩
  | @longer s t st st' st'' text calls hopen hcall hroom hsum hrest ih =>
      have hlower := hplaced.lower_le hopen
      have hmiddle := hplaced.le_upper hopen
      intro p hp
      rcases List.mem_cons.mp hp with rfl | hp
      · exact ⟨hlower, hmiddle⟩
      · obtain ⟨hl, hu⟩ := ih (hplaced.keep budget text (count text)).longer p hp
        simp only [Search.longer, Search.keep_upper, Search.keep_middle] at hl hu
        omega
  | @shorter s t st st' st'' text calls hopen hcall hfull hpos hsum hrest ih =>
      have hlower := hplaced.lower_le hopen
      have hmiddle := hplaced.le_upper hopen
      intro p hp
      rcases List.mem_cons.mp hp with rfl | hp
      · exact ⟨hlower, hmiddle⟩
      · obtain ⟨hl, hu⟩ :=
          ih ((hplaced.keep budget text (count text)).shorter (by simpa using hopen)) p hp
        simp only [Search.shorter, Search.keep_lower, Search.keep_middle] at hl hu
        omega

/-- No length is tried twice: later calls lie on one side of an earlier one. -/
theorem nodup (h : Loop count budget limit render s st calls t st') (hplaced : s.Placed len) :
    (calls.map Probe.length).Nodup := by
  induction h with
  | closed hclosed => exact .nil
  | bottom hopen hcall hfull hzero => exact List.nodup_cons.mpr ⟨List.not_mem_nil, .nil⟩
  | @longer s t st st' st'' text calls hopen hcall hroom hsum hrest ih =>
      have hkept := (hplaced.keep budget text (count text)).longer
      refine List.nodup_cons.mpr ⟨fun hmem => ?_, ih hkept⟩
      obtain ⟨p, hp, (heq : p.length = s.middle)⟩ := List.mem_map.mp hmem
      have hlater := (hrest.between hkept p hp).1
      simp only [Search.longer, Search.keep_middle] at hlater
      omega
  | @shorter s t st st' st'' text calls hopen hcall hfull hpos hsum hrest ih =>
      have hkept := (hplaced.keep budget text (count text)).shorter (by simpa using hopen)
      refine List.nodup_cons.mpr ⟨fun hmem => ?_, ih hkept⟩
      obtain ⟨p, hp, (heq : p.length = s.middle)⟩ := List.mem_map.mp hmem
      have hlater := (hrest.between hkept p hp).2
      simp only [Search.shorter, Search.keep_middle] at hlater
      omega

end Loop

-- =============================================================== the result

/-- A text has tokens, but no more than the budget. -/
def Within (count : TokenCounter) (budget : Nat) (text : String) : Prop :=
  1 ≤ count text ∧ count text ≤ budget

/-- The result of a choice among texts: one with the most tokens within the
budget, or the empty text if none has tokens within the budget. -/
structure Best (count : TokenCounter) (budget : Nat) (met : String → Prop) (result : String) :
    Prop where
  largest : (∃ text, met text ∧ Within count budget text) →
    met result ∧ Within count budget result
      ∧ ∀ text, met text → count text ≤ budget → count text ≤ count result
  empty : (∀ text, met text → ¬ Within count budget text) → result = ""

/-- What the search has kept of the texts that it met. The empty text is what
it starts with, and need not be one of them. -/
structure Found (count : TokenCounter) (budget : Nat) (met : String → Prop) (s : Search) :
    Prop where
  held : s.bestTokens = 0 ∧ s.best = ""
    ∨ met s.best ∧ s.bestTokens = count s.best ∧ Within count budget s.best
  most : ∀ text, met text → count text ≤ budget → count text ≤ s.bestTokens

namespace Found

variable {met : String → Prop} {s : Search}

theorem best (h : Found count budget met s) : Best count budget met s.best where
  largest := by
    rintro ⟨text, hmet, hpos, hfits⟩
    rcases h.held with ⟨hnone, -⟩ | ⟨hbest, htokens, hwithin⟩
    · have hmost := h.most text hmet hfits
      omega
    · exact ⟨hbest, hwithin, fun other hother hle => htokens ▸ h.most other hother hle⟩
  empty hnone := by
    rcases h.held with ⟨-, hempty⟩ | ⟨hbest, -, hwithin⟩
    · exact hempty
    · exact absurd hwithin (hnone s.best hbest)

theorem keep {seen : List String} (h : Found count budget (· ∈ seen) s) (text : String) :
    Found count budget (· ∈ seen ++ [text]) (s.keep budget text (count text)) where
  held := by
    unfold Search.keep
    split
    next hkept =>
      refine .inr ⟨List.mem_append_right seen List.mem_cons_self, rfl, ?_, hkept.1⟩
      show 1 ≤ count text
      omega
    next => exact h.held.imp_right fun hbest => ⟨List.mem_append_left _ hbest.1, hbest.2⟩
  most other hother hle := by
    rcases List.mem_append.mp hother with hother | hother
    · exact Nat.le_trans (h.most other hother hle) (s.le_keep_bestTokens text (count text))
    · rw [List.mem_singleton.mp hother] at hle ⊢
      exact s.tokens_le_keep_bestTokens text hle

end Found

/-- What the loop ends with is the best of all that it met. -/
theorem Loop.found {s t : Search} {st st' : σ} {calls : List Probe}
    (h : Loop count budget limit render s st calls t st') :
    ∀ seen : List String, Found count budget (· ∈ seen) s →
      Found count budget (· ∈ seen ++ calls.map Probe.text) t := by
  induction h with
  | closed hclosed =>
      intro seen hfound
      rw [List.map_nil, List.append_nil]
      exact hfound
  | bottom hopen hcall hfull hzero =>
      intro seen hfound
      exact hfound.keep _
  | @longer s t st st' st'' text calls hopen hcall hroom hsum hrest ih =>
      intro seen hfound
      rw [List.map_cons, List.append_cons]
      -- moving a bound leaves the best rendering alone
      exact ih (seen ++ [text]) ⟨(hfound.keep text).held, (hfound.keep text).most⟩
  | @shorter s t st st' st'' text calls hopen hcall hfull hpos hsum hrest ih =>
      intro seen hfound
      rw [List.map_cons, List.append_cons]
      exact ih (seen ++ [text]) ⟨(hfound.keep text).held, (hfound.keep text).most⟩

theorem Found.start (count : TokenCounter) (budget len : Nat) :
    Found count budget (· ∈ []) (start budget len) where
  held := .inl ⟨rfl, rfl⟩
  most text htext := by cases htext

namespace Fitting

variable {st st' : σ} {calls : List Probe} {result : String}

theorem length_le (h : Fitting count budget len limit render st calls result st') :
    ∀ p ∈ calls, p.length ≤ len := by
  cases h with
  | idle hnone => simp
  | searched hbudget hlen hloop => exact fun p hp => (hloop.between (.start budget len) p hp).2

theorem nodup (h : Fitting count budget len limit render st calls result st') :
    (calls.map Probe.length).Nodup := by
  cases h with
  | idle hnone => exact .nil
  | searched hbudget hlen hloop => exact hloop.nodup (.start budget len)

theorem eq_nil (h : Fitting count budget len limit render st calls result st')
    (hnone : budget = 0 ∨ len = 0) : calls = [] := by
  cases h with
  | idle hnone => rfl
  | searched hbudget hlen hloop => exact absurd hnone (by omega)

theorem best (h : Fitting count budget len limit render st calls result st') :
    Best count budget (· ∈ calls.map Probe.text) result := by
  cases h with
  | idle hnone => exact (Found.start count budget len).best
  | searched hbudget hlen hloop => exact (hloop.found [] (.start count budget len)).best

end Fitting

/-- The search is safe for every renderer, whatever it answers and whatever it
remembers: it ends, with 64-bit bounds that never wrap around, it asks for
lengths up to `len` only and for none of them twice, for none at all without a
budget or without lengths, and it returns the best of the texts it was given. -/
theorem fit_safe_for_any_renderer {σ : Type} (count : TokenCounter) (budget len : Nat)
    (render : Nat → StateM σ String) (st : σ) (hlen : len ≤ maxSigned64) :
    ∃ calls, Fitting count budget len maxUnsigned64 render st calls
        ((fit count budget len render).run st).1 ((fit count budget len render).run st).2
      ∧ (∀ p ∈ calls, p.length ≤ len)
      ∧ (calls.map Probe.length).Nodup
      ∧ (budget = 0 ∨ len = 0 → calls = [])
      ∧ Best count budget (· ∈ calls.map Probe.text)
        ((fit count budget len render).run st).1 := by
  have hlimit : 2 * len + 1 ≤ maxUnsigned64 := by
    unfold maxSigned64 at hlen
    unfold maxUnsigned64
    omega
  obtain ⟨calls, hfitting⟩ := exists_fitting count budget render hlimit st
  exact ⟨calls, hfitting, hfitting.length_le, hfitting.nodup, hfitting.eq_nil, hfitting.best⟩

/-- A renderer with moods: every call changes what the next one gives. -/
def moody (n : Nat) : StateM Nat String := do
  let mood ← get
  set (mood + 3)
  return String.ofList (List.replicate (5 * ((n + mood) % 4)) 'x')

/-- The four calls, for the lengths 0, 3, 1 and 2, give 2, 4, 0 and 0 tokens. -/
theorem fit_safe_for_moody_renderer :
    6 ≤ maxSigned64
      ∧ ((fit .approximate 3 6 moody).run 1).1 = "xxxxx"
      ∧ ((fit .approximate 3 6 moody).run 1).2 = 13
      ∧ ∃ calls, Fitting .approximate 3 6 maxUnsigned64 moody 1 calls "xxxxx" 13
        ∧ (calls.map Probe.length).Nodup := by
  have hlen : 6 ≤ maxSigned64 := by decide
  have hresult : ((fit .approximate 3 6 moody).run 1).1 = "xxxxx" := by decide +kernel
  have hmood : ((fit .approximate 3 6 moody).run 1).2 = 13 := by decide +kernel
  obtain ⟨calls, hfitting, -, hnodup, -⟩ :=
    fit_safe_for_any_renderer .approximate 3 6 moody 1 hlen
  rw [hresult, hmood] at hfitting
  exact ⟨hlen, hresult, hmood, calls, hfitting, hnodup⟩

-- ================================================= renderings that only grow

/-- Within the budget, no length that is out of the question counts more than
the best rendering. -/
def Settled (tokens : Nat → Nat) (budget len : Nat) (s : Search) : Prop :=
  ∀ k ≤ len, k < s.lower ∨ s.upper < k → tokens k ≤ budget → tokens k ≤ s.bestTokens

section Growing

variable {text : Nat → String}

/-- Keeping a rendering settles nothing less. -/
theorem Settled.keep {tokens : Nat → Nat} {s : Search} (h : Settled tokens budget len s)
    (rendered : String) (n : Nat) : Settled tokens budget len (s.keep budget rendered n) := by
  intro k hk hout hle
  rw [Search.keep_lower, Search.keep_upper] at hout
  exact Nat.le_trans (h k hk hout hle) (s.le_keep_bestTokens rendered n)

/-- If the counts never go down, the loop settles every length. -/
theorem Loop.settled {s t : Search} {st st' : σ} {calls : List Probe}
    (h : Loop count budget limit render s st calls t st')
    (hrender : ∀ n st, ((render n).run st).1 = text n)
    (hmono : ∀ j ≤ len, ∀ i ≤ j, count (text i) ≤ count (text j)) (hplaced : s.Placed len)
    (hsettled : Settled (fun k => count (text k)) budget len s) :
    ∀ k ≤ len, count (text k) ≤ budget → count (text k) ≤ t.bestTokens := by
  induction h with
  | @closed s st hclosed =>
      intro k hk hle
      exact hsettled k hk (by omega) hle
  | @bottom s st st' rendered hopen hcall hfull hzero =>
      obtain rfl : text s.middle = rendered := by rw [← hrender s.middle st, hcall]
      intro k hk hle
      -- every rendering fills the budget, as the shortest one does
      have hleast := hmono k hk s.middle (by omega)
      exact Nat.le_trans (by omega)
        (s.tokens_le_keep_bestTokens (text s.middle) (Nat.le_trans hleast hle))
  | @longer s t st st' st'' rendered calls hopen hcall hroom hsum hrest ih =>
      obtain rfl : text s.middle = rendered := by rw [← hrender s.middle st, hcall]
      have hkept := hplaced.keep budget (text s.middle) (count (text s.middle))
      refine ih hkept.longer fun k hk hout hle => ?_
      by_cases hbelow : k ≤ s.middle
      · -- no better than the rendering that left room
        have hlen := Nat.le_trans (hplaced.le_upper hopen) hplaced.upper_le
        exact Nat.le_trans (hmono s.middle hlen k hbelow)
          (s.tokens_le_keep_bestTokens (text s.middle) (Nat.le_of_lt hroom))
      · simp only [Search.longer, Search.keep_upper, Search.keep_middle] at hout
        exact (hsettled.keep (text s.middle) _) k hk
          (by rw [Search.keep_upper]; exact .inr (by omega)) hle
  | @shorter s t st st' st'' rendered calls hopen hcall hfull hpos hsum hrest ih =>
      obtain rfl : text s.middle = rendered := by rw [← hrender s.middle st, hcall]
      have hkept := hplaced.keep budget (text s.middle) (count (text s.middle))
      refine ih (hkept.shorter (by simpa using hopen)) fun k hk hout hle => ?_
      by_cases habove : s.middle ≤ k
      · -- within the budget only if it counts what fills the budget
        have hleast := hmono k hk s.middle habove
        exact Nat.le_trans (by omega)
          (s.tokens_le_keep_bestTokens (text s.middle) (Nat.le_trans hleast hle))
      · simp only [Search.shorter, Search.keep_lower, Search.keep_middle] at hout
        exact (hsettled.keep (text s.middle) _) k hk
          (by rw [Search.keep_lower]; exact .inl (by omega)) hle

/-- The texts of the calls are the renderings of their lengths. -/
theorem Loop.text_eq {s t : Search} {st st' : σ} {calls : List Probe}
    (h : Loop count budget limit render s st calls t st')
    (hrender : ∀ n st, ((render n).run st).1 = text n) :
    ∀ p ∈ calls, p.text = text p.length := by
  induction h with
  | closed hclosed =>
      intro p hp
      cases hp
  | @bottom s st st' rendered hopen hcall hfull hzero =>
      intro p hp
      rw [List.mem_singleton.mp hp, ← hrender s.middle st, hcall]
  | @longer s t st st' st'' rendered calls hopen hcall hroom hsum hrest ih =>
      intro p hp
      rcases List.mem_cons.mp hp with rfl | hp
      · rw [← hrender s.middle st, hcall]
      · exact ih p hp
  | @shorter s t st st' st'' rendered calls hopen hcall hfull hpos hsum hrest ih =>
      intro p hp
      rcases List.mem_cons.mp hp with rfl | hp
      · rw [← hrender s.middle st, hcall]
      · exact ih p hp

end Growing

/-- If no rendering counts less than a shorter one, the search finds the best
of all renderings, not only of those that it tries. -/
theorem fit_best_of_growing {σ : Type} (count : TokenCounter) (budget len : Nat)
    (render : Nat → StateM σ String) (text : Nat → String) (st : σ) (hlen : 1 ≤ len)
    (hrender : ∀ n st, ((render n).run st).1 = text n)
    (hmono : ∀ j ≤ len, ∀ i ≤ j, count (text i) ≤ count (text j)) :
    Best count budget (fun rendered => ∃ k ≤ len, text k = rendered)
      ((fit count budget len render).run st).1 := by
  obtain ⟨calls, hfitting⟩ := exists_fitting count budget render (Nat.le_refl (2 * len + 1)) st
  generalize ((fit count budget len render).run st).1 = result at hfitting ⊢
  generalize ((fit count budget len render).run st).2 = st' at hfitting
  cases hfitting with
  | idle hnone =>
      have hbudget : budget = 0 := by omega
      refine Found.best (s := start budget len) ⟨.inl ⟨rfl, rfl⟩, fun rendered _ hle => ?_⟩
      omega
  | @searched hbudget hlen' calls t st' hloop =>
      have hplaced := Search.Placed.start budget len
      have hfound := hloop.found [] (.start count budget len)
      have hnone : Settled (fun k => count (text k)) budget len (start budget len) :=
        fun k hk hout _ => absurd hout (by show ¬ (k < 0 ∨ len < k); omega)
      have hmet : t.best ∈ calls.map Probe.text → ∃ k ≤ len, text k = t.best := by
        intro hbest
        obtain ⟨p, hp, hp'⟩ := List.mem_map.mp hbest
        exact ⟨p.length, (hloop.between hplaced p hp).2, by
          rw [← hp', hloop.text_eq hrender p hp]⟩
      refine Found.best ⟨hfound.held.imp_right fun hheld => ⟨hmet hheld.1, hheld.2⟩, ?_⟩
      rintro rendered ⟨k, hk, rfl⟩ hle
      exact hloop.settled hrender hmono hplaced hnone k hk hle

/-- The first words of a list, as a text. -/
def firstWords (n : Nat) : String := String.join (["alpha ", "beta ", "gamma ", "delta "].take n)

/-- Two words have three tokens, and a third would make five. -/
theorem fit_best_of_words :
    ((fit .approximate 4 4 (fun n => (pure (firstWords n) : StateM Unit String))).run ()).1
        = "alpha beta "
      ∧ ∀ k ≤ 4, TokenCounter.approximate (firstWords k) ≤ 4 →
        TokenCounter.approximate (firstWords k) ≤ TokenCounter.approximate "alpha beta " := by
  have hresult : ((fit .approximate 4 4
      (fun n => (pure (firstWords n) : StateM Unit String))).run ()).1 = "alpha beta " := by
    decide +kernel
  have hbest := fit_best_of_growing .approximate 4 4
    (fun n => (pure (firstWords n) : StateM Unit String)) firstWords () (by decide)
    (fun _ _ => rfl) (by decide +kernel)
  rw [hresult] at hbest
  have hsome : Within .approximate 4 (firstWords 2) := by
    unfold Within
    decide +kernel
  obtain ⟨-, -, hmost⟩ := hbest.largest ⟨firstWords 2, ⟨2, by decide, rfl⟩, hsome⟩
  exact ⟨hresult, fun k hk hle => hmost _ ⟨k, hk, rfl⟩ hle⟩

end CodeMap.Budget
