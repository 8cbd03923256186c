/-
Which definition a reference is resolved to.

A reference with one candidate means that candidate. With several, the choice
is the best of those that may be meant at all: the definition around the
reference is left out, and so is every definition that scores nothing.
`Preferred` says what better means: a higher score, and among equal scores the
earlier candidate.

# The scan

Candidates are scanned in their order, and a later one replaces what was found
only with a strictly higher score. `Found` says what the scan holds after some
candidates: nothing if none of them may be meant, else the most preferred of
those that may. A candidate that only equals the score found so far comes
later in the order, which is why keeping the earlier one is right
(`Found.step`).

# Rearranged definitions

Positions enter the choice in two ways: they name the definition around the
reference, and they come last in the order of candidates. Where file and row
tell the candidates of a name apart, the position never decides, and a
rearrangement carries the choice along (`chosen_moved`).
-/
import CodeMap.Resolution
import CodeMap.Proofs.Order
import Mathlib.Data.List.Perm.Basic
import Mathlib.Logic.Equiv.Basic

namespace CodeMap.Resolution

open Std

-- =============================================================== candidates

/-- The candidate is the definition at its position, and has the name. -/
structure IsCandidate (defs : List Definition) (name : String) (c : Candidate) : Prop where
  at_position : defs[c.position]? = some c.definition
  named : c.definition.name = name

/-- One position holds one candidate. -/
theorem IsCandidate.eq_of_position {defs : List Definition} {name : String} {c d : Candidate}
    (hc : IsCandidate defs name c) (hd : IsCandidate defs name d)
    (hposition : c.position = d.position) : c = d := by
  have hdefinition : some c.definition = some d.definition := by
    rw [← hc.at_position, ← hd.at_position, hposition]
  cases c
  cases d
  simp_all

/-- The candidates are the definitions of the name with their positions. -/
theorem mem_named {defs : List Definition} {name : String} {n : Nat} {c : Candidate} :
    c ∈ named name n defs ↔
      n ≤ c.position ∧ defs[c.position - n]? = some c.definition ∧ c.definition.name = name := by
  induction defs generalizing n with
  | nil => simp [named]
  | cons d rest ih =>
      -- the first position is `n` itself, every other one is of the rest
      have hsplit : (n ≤ c.position ∧ (d :: rest)[c.position - n]? = some c.definition
            ∧ c.definition.name = name)
          ↔ (c = ⟨n, d⟩ ∧ d.name = name) ∨ c ∈ named name (n + 1) rest := by
        rw [ih]
        rcases c with ⟨position, definition⟩
        rcases Nat.lt_trichotomy position n with hlt | rfl | hgt
        · simp
          omega
        · simp
          grind
        · have hpred : position - n = (position - (n + 1)) + 1 := by omega
          have hne : position ≠ n := by omega
          have hle : n ≤ position := by omega
          simp [hpred, hne, hle, Nat.succ_le_of_lt hgt]
      rw [hsplit, named]
      split
      next hname => simp [hname]
      next hname => simp [hname]

/-- They are found in the order of their positions. -/
theorem pairwise_named (name : String) (n : Nat) (defs : List Definition) :
    (named name n defs).Pairwise fun a b => a.position < b.position := by
  induction defs generalizing n with
  | nil => exact List.Pairwise.nil
  | cons d rest ih =>
      rw [named]
      split
      next =>
        refine List.pairwise_cons.mpr ⟨fun c hc => ?_, ih (n + 1)⟩
        exact (mem_named.mp hc).1
      next => exact ih (n + 1)

theorem mem_named_iff {defs : List Definition} {name : String} {c : Candidate} :
    c ∈ named name 0 defs ↔ IsCandidate defs name c := by
  rw [mem_named]
  exact ⟨fun h => ⟨h.2.1, h.2.2⟩, fun h => ⟨Nat.zero_le _, h.at_position, h.named⟩⟩

@[simp] theorem mem_candidates {defs : List Definition} {name : String} {c : Candidate} :
    c ∈ candidates defs name ↔ IsCandidate defs name c := by
  rw [candidates, List.mem_mergeSort, mem_named_iff]

/-- No candidate comes up twice. -/
theorem nodup_candidates (defs : List Definition) (name : String) :
    (candidates defs name).Nodup := by
  refine (List.mergeSort_perm _ _).nodup_iff.mpr ?_
  refine (pairwise_named name 0 defs).imp fun {a b} hlt hab => ?_
  rw [hab] at hlt
  exact Nat.lt_irrefl _ hlt

theorem Candidate.order_eq : Candidate.order
    = compareLex (Ordering.byKey (·.definition.path) Path.order)
        (compareLex (compareOn (·.definition.span.first)) (compareOn (·.position))) := rfl

instance : TransCmp Candidate.order := Candidate.order_eq ▸ inferInstance

/-- They are scanned by file, row and position. -/
theorem pairwise_candidates (defs : List Definition) (name : String) :
    (candidates defs name).Pairwise fun a b => (a.order b).isLE :=
  pairwise_sort id _

/-- Candidates that compare equal have the same position. -/
theorem Candidate.position_eq_of_order {c d : Candidate} (h : c.order d = .eq) :
    c.position = d.position := by
  rw [Candidate.order, Ordering.then_eq_eq, Ordering.then_eq_eq] at h
  exact LawfulEqOrd.eq_of_compare h.2.2

-- =============================================================== preference

/-- What may be meant when there are several candidates. -/
structure Eligible (defs : List Definition) (r : Reference) (own : Option Nat)
    (c : Candidate) : Prop where
  candidate : IsCandidate defs r.name c
  /-- The definition around the reference is not meant. -/
  other : some c.position ≠ own
  scores : 0 < matchScore r c.definition

/-- The higher score is preferred, and of equal scores the earlier candidate. -/
def Preferred (r : Reference) (c d : Candidate) : Prop :=
  matchScore r d.definition < matchScore r c.definition
    ∨ matchScore r c.definition = matchScore r d.definition ∧ (c.order d).isLE

/-- The best of the eligible candidates. -/
structure Chosen (defs : List Definition) (r : Reference) (own : Option Nat)
    (c : Candidate) : Prop where
  eligible : Eligible defs r own c
  best : ∀ d, Eligible defs r own d → Preferred r c d

instance (r : Reference) (c d : Candidate) : Decidable (Preferred r c d) :=
  inferInstanceAs (Decidable (_ ∨ _))

theorem Preferred.refl (r : Reference) (c : Candidate) : Preferred r c c :=
  .inr ⟨rfl, by rw [@ReflCmp.compare_self _ Candidate.order]; rfl⟩

/-- Preference decides between any two candidates. -/
theorem Preferred.antisymm {r : Reference} {c d : Candidate} (hcd : Preferred r c d)
    (hdc : Preferred r d c) : c.position = d.position := by
  rcases hcd with hlt | ⟨heq, hle⟩
  · rcases hdc with hgt | ⟨heq, -⟩ <;> omega
  · rcases hdc with hgt | ⟨-, hge⟩
    · omega
    · exact Candidate.position_eq_of_order (eq_of_isLE_of_isLE hle hge)

/-- There is one choice at most. -/
theorem Chosen.unique {defs : List Definition} {r : Reference} {own : Option Nat}
    {c d : Candidate} (hc : Chosen defs r own c) (hd : Chosen defs r own d) : c = d :=
  hc.eligible.candidate.eq_of_position hd.eligible.candidate
    ((hc.best d hd.eligible).antisymm (hd.best c hc.eligible))

-- ================================================================= the scan

section Scan

variable {r : Reference} {own : Option Nat}

/-- A candidate that the scan takes into account. -/
def Contends (r : Reference) (own : Option Nat) (c : Candidate) : Prop :=
  some c.position ≠ own ∧ 0 < matchScore r c.definition

/-- What the scan has found after some candidates. -/
def Found (r : Reference) (own : Option Nat) (seen : List Candidate) :
    Option (Nat × Nat) → Prop
  | none => ∀ c ∈ seen, ¬ Contends r own c
  | some (position, score) => ∃ c ∈ seen, Contends r own c
      ∧ (∀ d ∈ seen, Contends r own d → Preferred r c d)
      ∧ c.position = position ∧ matchScore r c.definition = score

/-- What the scan holds after one more candidate. -/
def keep (r : Reference) (own : Option Nat) (found : Option (Nat × Nat)) (c : Candidate) :
    Option (Nat × Nat) :=
  if some c.position ≠ own ∧ (found.map (·.2)).getD 0 < matchScore r c.definition then
    some (c.position, matchScore r c.definition)
  else found

theorem best_cons (found : Option (Nat × Nat)) (c : Candidate) (rest : List Candidate) :
    best r own found (c :: rest) = best r own (keep r own found c) rest := by
  rw [best, keep]
  split <;> rfl

/-- One candidate more, which comes after all that were seen. -/
theorem Found.step {seen : List Candidate} {found : Option (Nat × Nat)} {c : Candidate}
    (h : Found r own seen found) (hlater : ∀ d ∈ seen, (d.order c).isLE) :
    Found r own (seen ++ [c]) (keep r own found c) := by
  unfold keep
  cases found with
  | none =>
      split
      next hwins =>
        refine ⟨c, by simp, hwins, fun d hd hcontends => ?_, rfl, rfl⟩
        rcases List.mem_append.mp hd with hd | hd
        · exact absurd hcontends (h d hd)
        · rw [List.mem_singleton.mp hd]
          exact Preferred.refl r c
      next hloses =>
        intro d hd hcontends
        rcases List.mem_append.mp hd with hd | hd
        · exact h d hd hcontends
        · rw [List.mem_singleton.mp hd] at hcontends
          exact hloses hcontends
  | some pair =>
      obtain ⟨b, hb, hcontends, hbest, hposition, hscore⟩ := h
      split
      next hwins =>
        have hbeats : matchScore r b.definition < matchScore r c.definition := hscore ▸ hwins.2
        refine ⟨c, by simp, ⟨hwins.1, Nat.zero_lt_of_lt hbeats⟩, fun d hd hd' => ?_, rfl, rfl⟩
        rcases List.mem_append.mp hd with hd | hd
        · -- what was at most as good as the old one is worse than the new one
          refine .inl ?_
          rcases hbest d hd hd' with hlt | ⟨heq, -⟩ <;> omega
        · rw [List.mem_singleton.mp hd]
          exact Preferred.refl r c
      next hloses =>
        refine ⟨b, by simp [hb], hcontends, fun d hd hd' => ?_, hposition, hscore⟩
        rcases List.mem_append.mp hd with hd | hd
        · exact hbest d hd hd'
        · rw [List.mem_singleton.mp hd] at hd' ⊢
          have hle : matchScore r c.definition ≤ matchScore r b.definition := by
            rw [hscore]
            exact Nat.not_lt.mp fun hlt => hloses ⟨hd'.1, hlt⟩
          rcases Nat.lt_or_eq_of_le hle with hlt | heq
          · exact .inl hlt
          · exact .inr ⟨heq.symm, hlater b hb⟩

/-- The whole scan of a list in order. -/
theorem Found.run (cs : List Candidate) :
    ∀ {seen : List Candidate} {found : Option (Nat × Nat)}, Found r own seen found →
      (seen ++ cs).Pairwise (fun a b => (a.order b).isLE) →
      ∃ last, Found r own (seen ++ cs) last ∧ best r own found cs = last.map (·.1) := by
  induction cs with
  | nil =>
      intro seen found h _
      exact ⟨found, by rwa [List.append_nil], rfl⟩
  | cons c rest ih =>
      intro seen found h hsorted
      have hsplit : seen ++ c :: rest = (seen ++ [c]) ++ rest := by simp
      have hlater : ∀ d ∈ seen, (d.order c).isLE := fun d hd =>
        (List.pairwise_append.mp hsorted).2.2 d hd c (by simp)
      rw [hsplit] at hsorted ⊢
      rw [best_cons]
      exact ih (h.step hlater) hsorted

end Scan

-- =============================================================== the answer

section Answer

variable {defs : List Definition} {r : Reference} {own : Option Nat}

theorem eligible_iff {c : Candidate} :
    Eligible defs r own c ↔ c ∈ candidates defs r.name ∧ Contends r own c := by
  rw [mem_candidates]
  exact ⟨fun h => ⟨h.candidate, h.other, h.scores⟩, fun h => ⟨h.1, h.2.1, h.2.2⟩⟩

theorem found_candidates (defs : List Definition) (r : Reference) (own : Option Nat) :
    ∃ last, Found r own (candidates defs r.name) last
      ∧ best r own none (candidates defs r.name) = last.map (·.1) := by
  have hstart : Found r own [] none := fun c hc => absurd hc (by simp)
  exact hstart.run (candidates defs r.name) (pairwise_candidates defs r.name)

/-- The scan of all candidates finds the best one. -/
theorem best_candidates_iff {i : Nat} : best r own none (candidates defs r.name) = some i ↔
    ∃ c, Chosen defs r own c ∧ c.position = i := by
  obtain ⟨last, hfound, hbest⟩ := found_candidates defs r own
  rw [hbest]
  cases last with
  | none =>
      constructor
      · intro h
        cases h
      · rintro ⟨c, hc, -⟩
        obtain ⟨hmem, hcontends⟩ := eligible_iff.mp hc.eligible
        exact absurd hcontends (hfound c hmem)
  | some pair =>
      obtain ⟨b, hb, hcontends, hpreferred, hposition, -⟩ := hfound
      have hchosen : Chosen defs r own b := by
        refine ⟨eligible_iff.mpr ⟨hb, hcontends⟩, fun d hd => ?_⟩
        obtain ⟨hmem, hcontends⟩ := eligible_iff.mp hd
        exact hpreferred d hmem hcontends
      rw [Option.map_some, Option.some.injEq, ← hposition]
      constructor
      · intro h
        exact ⟨b, hchosen, h⟩
      · rintro ⟨c, hc, rfl⟩
        rw [hchosen.unique hc]

/-- Only one definition has the name. -/
def Sole (defs : List Definition) (name : String) (c : Candidate) : Prop :=
  IsCandidate defs name c ∧ ∀ d, IsCandidate defs name d → d = c

theorem candidates_eq_singleton_iff {name : String} {c : Candidate} :
    candidates defs name = [c] ↔ Sole defs name c := by
  constructor
  · intro h
    refine ⟨mem_candidates.mp (by simp [h]), fun d hd => ?_⟩
    rw [← mem_candidates, h] at hd
    exact List.mem_singleton.mp hd
  · rintro ⟨hc, hsole⟩
    have hperm : (candidates defs name).Perm [c] := by
      refine (List.perm_ext_iff_of_nodup (nodup_candidates _ _) (List.nodup_singleton c)).mpr ?_
      intro d
      rw [mem_candidates, List.mem_singleton]
      exact ⟨hsole d, fun h => h ▸ hc⟩
    exact List.perm_singleton.mp hperm

theorem resolve_of_sole {c : Candidate} (h : Sole defs r.name c) :
    resolve defs r own = some c.position := by
  rw [resolve, candidates_eq_singleton_iff.mpr h]

theorem resolve_of_not_sole (h : ∀ c, ¬ Sole defs r.name c) :
    resolve defs r own = best r own none (candidates defs r.name) := by
  unfold resolve
  split
  next hnone => rw [hnone]; rfl
  next only hone => exact absurd (candidates_eq_singleton_iff.mp hone) (h only)
  next => rfl

/-- What a reference is resolved to, in both cases. -/
def Meant (defs : List Definition) (r : Reference) (own : Option Nat) (c : Candidate) : Prop :=
  Sole defs r.name c ∨ (∀ d, ¬ Sole defs r.name d) ∧ Chosen defs r own c

theorem resolve_eq_some_iff {i : Nat} :
    resolve defs r own = some i ↔ ∃ c, Meant defs r own c ∧ c.position = i := by
  by_cases hsole : ∃ c, Sole defs r.name c
  · obtain ⟨c, hc⟩ := hsole
    rw [resolve_of_sole hc, Option.some.injEq]
    constructor
    · intro h
      exact ⟨c, .inl hc, h⟩
    · rintro ⟨d, hd | ⟨hnone, -⟩, rfl⟩
      · rw [hc.2 d hd.1]
      · exact absurd hc (hnone c)
  · have hnone : ∀ c, ¬ Sole defs r.name c := not_exists.mp hsole
    rw [resolve_of_not_sole hnone, best_candidates_iff]
    constructor
    · rintro ⟨c, hc, hi⟩
      exact ⟨c, .inr ⟨hnone, hc⟩, hi⟩
    · rintro ⟨c, hc | ⟨-, hc⟩, hi⟩
      · exact absurd hc (hnone c)
      · exact ⟨c, hc, hi⟩

/-- A reference is resolved to a definition of its name. -/
theorem named_of_resolve {i : Nat} (h : resolve defs r own = some i) :
    ∃ d, defs[i]? = some d ∧ d.name = r.name := by
  obtain ⟨c, hc, rfl⟩ := resolve_eq_some_iff.mp h
  have hcandidate : IsCandidate defs r.name c := by
    rcases hc with hsole | ⟨-, hchosen⟩
    · exact hsole.1
    · exact hchosen.eligible.candidate
  exact ⟨c.definition, hcandidate.at_position, hcandidate.named⟩

/-- Among several candidates nothing is meant only if none may be. -/
theorem resolve_eq_none_iff (h : ∀ c, ¬ Sole defs r.name c) :
    resolve defs r own = none ↔ ∀ c, ¬ Eligible defs r own c := by
  rw [resolve_of_not_sole h]
  obtain ⟨last, hfound, hbest⟩ := found_candidates defs r own
  rw [hbest]
  cases last with
  | none =>
      refine ⟨fun _ c hc => ?_, fun _ => rfl⟩
      obtain ⟨hmem, hcontends⟩ := eligible_iff.mp hc
      exact hfound c hmem hcontends
  | some pair =>
      obtain ⟨b, hb, hcontends, -, -, -⟩ := hfound
      constructor
      · intro h
        cases h
      · intro h
        exact absurd (eligible_iff.mpr ⟨hb, hcontends⟩) (h b)

end Answer

-- ============================================================ rearrangement

/-- The other list holds every definition at the place that `σ` carries its
position to. -/
def Rearranged (σ : Equiv.Perm Nat) (defs defs' : List Definition) : Prop :=
  ∀ i, defs'[σ i]? = defs[i]?

/-- File and row tell the definitions of a name apart. -/
def Apart (defs : List Definition) (name : String) : Prop :=
  ∀ c d, IsCandidate defs name c → IsCandidate defs name d →
    c.definition.path.same d.definition.path → c.definition.span.first = d.definition.span.first →
    c = d

/-- The candidate at its place in the other list. -/
def Candidate.moved (σ : Equiv.Perm Nat) (c : Candidate) : Candidate := ⟨σ c.position, c.definition⟩

section Rearrangement

variable {defs defs' : List Definition} {σ : Equiv.Perm Nat} {r : Reference} {own : Option Nat}

theorem moved_surjective (σ : Equiv.Perm Nat) : Function.Surjective (Candidate.moved σ) := by
  intro c
  exact ⟨⟨σ.symm c.position, c.definition⟩, by simp [Candidate.moved]⟩

theorem moved_injective (σ : Equiv.Perm Nat) : Function.Injective (Candidate.moved σ) := by
  rintro ⟨i, d⟩ ⟨j, e⟩ h
  simpa [Candidate.moved] using h

/-- Rearranged definitions have the same candidates at their new places. -/
theorem isCandidate_moved (h : Rearranged σ defs defs') {name : String} {c : Candidate} :
    IsCandidate defs' name (c.moved σ) ↔ IsCandidate defs name c := by
  have hat : defs'[(c.moved σ).position]? = defs[c.position]? := h c.position
  constructor
  · intro hc
    exact ⟨hat ▸ hc.at_position, hc.named⟩
  · intro hc
    exact ⟨hat ▸ hc.at_position, hc.named⟩

/-- One that is alone stays alone. -/
theorem sole_moved (h : Rearranged σ defs defs') {name : String} {c : Candidate} :
    Sole defs' name (c.moved σ) ↔ Sole defs name c := by
  unfold Sole
  rw [(moved_surjective σ).forall]
  simp only [isCandidate_moved h, (moved_injective σ).eq_iff]

/-- The definition around the reference moves along, so the others are the same. -/
theorem eligible_moved (h : Rearranged σ defs defs') {c : Candidate} :
    Eligible defs' r (own.map σ) (c.moved σ) ↔ Eligible defs r own c := by
  have hown : some (c.moved σ).position = own.map σ ↔ some c.position = own := by
    show (some c.position).map σ = own.map σ ↔ _
    rw [(Option.map_injective σ.injective).eq_iff]
  constructor
  · intro he
    exact ⟨(isCandidate_moved h).mp he.candidate, mt hown.mpr he.other, he.scores⟩
  · intro he
    exact ⟨(isCandidate_moved h).mpr he.candidate, mt hown.mp he.other, he.scores⟩

/-- Between candidates in different files or rows the position is not asked. -/
theorem order_moved (hapart : Apart defs r.name) {c d : Candidate}
    (hc : IsCandidate defs r.name c) (hd : IsCandidate defs r.name d) (hne : c ≠ d) :
    (c.moved σ).order (d.moved σ) = c.order d := by
  show (c.definition.path.order d.definition.path).then
      ((compare c.definition.span.first d.definition.span.first).then
        (compare (σ c.position) (σ d.position))) = c.order d
  unfold Candidate.order
  cases hpath : c.definition.path.order d.definition.path with
  | lt => rfl
  | gt => rfl
  | eq =>
      cases hrow : compare c.definition.span.first d.definition.span.first with
      | lt => rfl
      | gt => rfl
      | eq =>
          have hsame : c.definition.path.same d.definition.path :=
            beq_iff_eq.mpr (Path.order_eq_eq_iff.mp hpath)
          exact absurd (hapart c d hc hd hsame (LawfulEqOrd.eq_of_compare hrow)) hne

/-- Preference is not changed by a rearrangement, as scores say nothing of
positions. -/
theorem preferred_moved (hapart : Apart defs r.name) {c d : Candidate}
    (hc : IsCandidate defs r.name c) (hd : IsCandidate defs r.name d) :
    Preferred r (c.moved σ) (d.moved σ) ↔ Preferred r c d := by
  by_cases heq : c = d
  · subst heq
    exact ⟨fun _ => Preferred.refl r c, fun _ => Preferred.refl r _⟩
  · unfold Preferred
    rw [order_moved hapart hc hd heq]
    rfl

/-- So the same candidate is chosen. -/
theorem chosen_moved (h : Rearranged σ defs defs') (hapart : Apart defs r.name) {c : Candidate} :
    Chosen defs' r (own.map σ) (c.moved σ) ↔ Chosen defs r own c := by
  constructor
  · rintro ⟨he, hbest⟩
    have he' : Eligible defs r own c := (eligible_moved h).mp he
    refine ⟨he', fun d hd => ?_⟩
    exact (preferred_moved hapart he'.candidate hd.candidate).mp
      (hbest (d.moved σ) ((eligible_moved h).mpr hd))
  · rintro ⟨he, hbest⟩
    refine ⟨(eligible_moved h).mpr he, (moved_surjective σ).forall.mpr fun d hd => ?_⟩
    have hd' : Eligible defs r own d := (eligible_moved h).mp hd
    exact (preferred_moved hapart he.candidate hd'.candidate).mpr (hbest d hd')

theorem meant_moved (h : Rearranged σ defs defs') (hapart : Apart defs r.name) {c : Candidate} :
    Meant defs' r (own.map σ) (c.moved σ) ↔ Meant defs r own c := by
  unfold Meant
  rw [(moved_surjective σ).forall, chosen_moved h hapart, sole_moved h]
  simp only [sole_moved h]

/-- A rearrangement of definitions that file and row tell apart carries along
what a reference is resolved to. -/
theorem resolve_rearranged (h : Rearranged σ defs defs') (hapart : Apart defs r.name) :
    resolve defs' r (own.map σ) = (resolve defs r own).map σ := by
  refine Option.ext fun i => ?_
  rw [resolve_eq_some_iff, (moved_surjective σ).exists, Option.map_eq_some_iff]
  constructor
  · rintro ⟨c, hc, hi⟩
    exact ⟨c.position, resolve_eq_some_iff.mpr ⟨c, (meant_moved h hapart).mp hc, rfl⟩, hi⟩
  · rintro ⟨j, hj, rfl⟩
    obtain ⟨c, hc, rfl⟩ := resolve_eq_some_iff.mp hj
    exact ⟨c, (meant_moved h hapart).mpr hc, rfl⟩

end Rearrangement

-- ================================================================ the choice

/-- Resolving is choosing the best candidate.

A definition that alone has the name is meant, also if it is the one around
the reference. Otherwise the best of the eligible candidates is meant, and
nothing exactly if there is none. Where file and row tell the definitions of
the name apart, every rearrangement of the definitions, with the one around
the reference carried along, gives the same definition at its new place. -/
theorem resolve_picks_best (defs : List Definition) (r : Reference) (own : Option Nat) :
    (∀ c, IsCandidate defs r.name c → (∀ d, IsCandidate defs r.name d → d = c) →
        resolve defs r own = some c.position)
      ∧ ((¬ ∃! c, IsCandidate defs r.name c) →
        (∀ i, resolve defs r own = some i ↔ ∃ c, Chosen defs r own c ∧ c.position = i)
          ∧ (resolve defs r own = none ↔ ¬ ∃ c, Eligible defs r own c))
      ∧ (Apart defs r.name → ∀ (σ : Equiv.Perm Nat) (defs' : List Definition),
        Rearranged σ defs defs' → resolve defs' r (own.map σ) = (resolve defs r own).map σ) := by
  refine ⟨fun c hc hsole => resolve_of_sole ⟨hc, hsole⟩, fun hseveral => ?_,
    fun hapart σ defs' h => resolve_rearranged h hapart⟩
  have hnone : ∀ c, ¬ Sole defs r.name c := fun c hc => hseveral ⟨c, hc⟩
  refine ⟨fun i => ?_, ?_⟩
  · rw [resolve_of_not_sole hnone]
    exact best_candidates_iff
  · rw [resolve_eq_none_iff hnone, not_exists]

/-- Four functions of one name. The second and the last are in the file of
the reference, the others only in its directory. -/
def namesakes : List Definition :=
  [⟨⟨"lib/b.py"⟩, "run", "function", .of 1 1, (10, 13), []⟩,
    ⟨⟨"lib/main.py"⟩, "run", "function", .of 9 9, (80, 83), []⟩,
    ⟨⟨"lib/a.py"⟩, "run", "function", .of 4 4, (30, 33), []⟩,
    ⟨⟨"lib//main.py"⟩, "run", "function", .of 2 2, (20, 23), []⟩]

/-- The same functions, the second and the last one exchanged. -/
def namesakesExchanged : List Definition :=
  [⟨⟨"lib/b.py"⟩, "run", "function", .of 1 1, (10, 13), []⟩,
    ⟨⟨"lib//main.py"⟩, "run", "function", .of 2 2, (20, 23), []⟩,
    ⟨⟨"lib/a.py"⟩, "run", "function", .of 4 4, (30, 33), []⟩,
    ⟨⟨"lib/main.py"⟩, "run", "function", .of 9 9, (80, 83), []⟩]

/-- A use of the name inside the last of them. -/
def useOfNamesake : Reference := ⟨⟨"lib/main.py"⟩, "run", "call", some (.of 3 3), []⟩

theorem apart_namesakes : Apart namesakes "run" := by
  intro c d hc hd hpath hrow
  have hall : ∀ c ∈ named "run" 0 namesakes, ∀ d ∈ named "run" 0 namesakes,
      c.definition.path.same d.definition.path →
      c.definition.span.first = d.definition.span.first → c.position = d.position := by
    decide +kernel
  have hposition := hall c (mem_named_iff.mpr hc) d (mem_named_iff.mpr hd) hpath hrow
  exact hc.eq_of_position hd hposition

theorem rearranged_namesakes : Rearranged (Equiv.swap 1 3) namesakes namesakesExchanged := by
  intro i
  match i with
  | 0 | 1 | 2 | 3 => decide
  | n + 4 =>
      rw [Equiv.swap_apply_of_ne_of_ne (by omega) (by omega)]
      rfl

/-- The function around the use would match best and is left out. -/
theorem chosen_namesake : Chosen namesakes useOfNamesake (some 3)
    ⟨1, ⟨⟨"lib/main.py"⟩, "run", "function", .of 9 9, (80, 83), []⟩⟩ := by
  refine ⟨⟨⟨rfl, rfl⟩, by decide, by decide +kernel⟩, fun d hd => ?_⟩
  have hall : ∀ d ∈ named "run" 0 namesakes, some d.position ≠ some 3 →
      Preferred useOfNamesake
        ⟨1, ⟨⟨"lib/main.py"⟩, "run", "function", .of 9 9, (80, 83), []⟩⟩ d := by
    decide +kernel
  exact hall d (mem_named_iff.mpr hd.candidate) hd.other

theorem resolve_picks_best_sample :
    Apart namesakes "run" ∧ Rearranged (Equiv.swap 1 3) namesakes namesakesExchanged
      ∧ resolve namesakes useOfNamesake (some 3) = some 1
      ∧ resolve namesakesExchanged useOfNamesake (some 1) = some 3 := by
  obtain ⟨-, hseveral, hmoved⟩ := resolve_picks_best namesakes useOfNamesake (some 3)
  have hnotSole : ¬ ∃! c, IsCandidate namesakes "run" c := by
    rintro ⟨c, -, hsole⟩
    have hzero := hsole ⟨0, _⟩ ⟨rfl, rfl⟩
    have hone := hsole ⟨1, _⟩ ⟨rfl, rfl⟩
    exact absurd (congrArg Candidate.position (hzero.trans hone.symm)) (by decide)
  have hfirst : resolve namesakes useOfNamesake (some 3) = some 1 :=
    ((hseveral hnotSole).1 1).mpr ⟨_, chosen_namesake, rfl⟩
  have hsecond := hmoved apart_namesakes _ _ rearranged_namesakes
  rw [hfirst] at hsecond
  exact ⟨apart_namesakes, rearranged_namesakes, hfirst, hsecond⟩

end CodeMap.Resolution
