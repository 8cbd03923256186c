/-
Regular expressions, matched leftmost-first.

# The ways to match

An expression can match at the start of a text in several ways, and they are
listed in order of preference (`ways`), each by what it leaves of the text: the
first alternative before the second, another round of a greedy repetition before
its end, the end of a lazy one before another round. The match is the first of
them. A round that takes nothing is no round, so a repetition ends.

The bound on rounds in the definition is never reached: a repetition is one round
followed by the same repetition, or nothing (`ways_star`).

# The matches of a text

A text is searched from left to right (`findAll`). Where an alternative matches,
the first one that does takes its match, and the search goes on behind it;
elsewhere a character is skipped.
-/
import Mathlib.Data.List.Basic
import Mathlib.Data.List.Flatten

namespace CodeMap.Text

/-- A regular expression over characters. -/
inductive Regex where
  | char (test : Char → Bool)
  | seq (first second : Regex)
  | alt (first second : Regex)
  | star (greedy : Bool) (body : Regex)

namespace Regex

-- ==================================================================== ways

/-- What a repetition of `step` leaves of a text, with at most `fuel` rounds. -/
def rounds (greedy : Bool) (step : List Char → List (List Char)) :
    Nat → List Char → List (List Char)
  | 0, s => [s]
  | fuel + 1, s =>
    let more := ((step s).filter fun t => t.length < s.length).flatMap (rounds greedy step fuel)
    if greedy then more ++ [s] else s :: more

/-- What the matches of an expression at the start of a text leave of it, the
preferred one first. -/
def ways : Regex → List Char → List (List Char)
  | char _, [] => []
  | char test, c :: s => if test c then [s] else []
  | seq r q, s => (ways r s).flatMap (ways q)
  | alt r q, s => ways r s ++ ways q s
  | star greedy r, s => rounds greedy (ways r) s.length s

/-- The character `c`. -/
def only (c : Char) : Regex := char fun d => d == c

/-- Any character, a line feed as well. -/
def any : Regex := char fun _ => true

-- ============================================================== characters

section

variable {test : Char → Bool} {r : Regex} {s rest : List Char}

/-- A character in front of an expression. -/
theorem ways_seq_char (test : Char → Bool) (r : Regex) (c : Char) (s : List Char) :
    ways (seq (char test) r) (c :: s) = if test c then ways r s else [] := by
  rw [ways, ways]
  split
  · rw [List.flatMap_singleton]
  · rw [List.flatMap_nil]

theorem head?_ways_seq_char :
    (ways (seq (char test) r) s).head? = some rest ↔
      ∃ c t, s = c :: t ∧ test c = true ∧ (ways r t).head? = some rest := by
  cases s with
  | nil =>
      constructor
      · intro h
        cases h
      · intro h
        obtain ⟨c, t, hs, -⟩ := h
        cases hs
  | cons c s =>
      rw [ways_seq_char]
      constructor
      · intro h
        split at h
        · exact ⟨c, s, rfl, ‹_›, h⟩
        · cases h
      · intro h
        obtain ⟨d, t, hs, htest, h⟩ := h
        obtain ⟨rfl, rfl⟩ := List.cons.inj hs
        rw [if_pos htest, h]

theorem head?_ways_seq_only {c : Char} :
    (ways (seq (only c) r) s).head? = some rest ↔
      ∃ t, s = c :: t ∧ (ways r t).head? = some rest := by
  rw [only, head?_ways_seq_char]
  constructor
  · intro h
    obtain ⟨d, t, rfl, htest, h⟩ := h
    exact ⟨t, congrArg (· :: t) (eq_of_beq htest), h⟩
  · intro h
    obtain ⟨t, rfl, h⟩ := h
    exact ⟨c, t, rfl, beq_self_eq_true c, h⟩

end

-- ============================================================= repetitions

section

variable {greedy : Bool} {step : List Char → List (List Char)} {r q : Regex} {s t : List Char}

/-- One round per character is enough. -/
theorem rounds_eq : ∀ {fuel fuel' : Nat} {s : List Char}, s.length ≤ fuel → s.length ≤ fuel' →
    rounds greedy step fuel s = rounds greedy step fuel' s := by
  have hnil : ∀ fuel, rounds greedy step fuel [] = [[]] := by
    intro fuel
    cases fuel with
    | zero => rfl
    | succ fuel =>
        cases greedy with
        | true => simp [rounds]
        | false => simp [rounds]
  intro fuel
  induction fuel with
  | zero =>
      intro fuel' s hs hs'
      obtain rfl := List.length_eq_zero_iff.mp (Nat.le_zero.mp hs)
      rw [hnil, hnil]
  | succ fuel ih =>
      intro fuel' s hs hs'
      cases fuel' with
      | zero =>
          obtain rfl := List.length_eq_zero_iff.mp (Nat.le_zero.mp hs')
          rw [hnil, hnil]
      | succ fuel' =>
          have hmore : ((step s).filter fun t => t.length < s.length).flatMap
              (rounds greedy step fuel)
              = ((step s).filter fun t => t.length < s.length).flatMap
                (rounds greedy step fuel') := by
            refine List.flatMap_congr fun t ht => ?_
            have hlt := of_decide_eq_true (List.mem_filter.mp ht).2
            exact ih (by omega) (by omega)
          simp only [rounds, hmore]

/-- A repetition is one round followed by the same repetition, or nothing. -/
theorem ways_star (greedy : Bool) (r : Regex) (s : List Char) :
    ways (star greedy r) s
      = if greedy then
          ((ways r s).filter fun t => t.length < s.length).flatMap (ways (star greedy r)) ++ [s]
        else
          s :: ((ways r s).filter fun t => t.length < s.length).flatMap (ways (star greedy r)) := by
  have hmore : ((ways r s).filter fun t => t.length < s.length).flatMap
      (rounds greedy (ways r) s.length)
      = ((ways r s).filter fun t => t.length < s.length).flatMap (ways (star greedy r)) := by
    refine List.flatMap_congr fun t ht => ?_
    have hlt := of_decide_eq_true (List.mem_filter.mp ht).2
    exact rounds_eq (by omega) (Nat.le_refl _)
  rw [← hmore]
  exact rounds_eq (Nat.le_refl _) (Nat.le_succ _)

/-- A repetition whose body matches in one way goes on with it. -/
theorem ways_star_of_step (h : ways r s = [t]) (hlt : t.length < s.length) :
    ways (star greedy r) s
      = if greedy then ways (star greedy r) t ++ [s] else s :: ways (star greedy r) t := by
  rw [ways_star, h, List.filter_singleton, decide_eq_true hlt]
  simp only [cond_true, List.flatMap_singleton]

/-- A repetition whose body does not match ends. -/
theorem ways_star_of_stuck (h : ways r s = []) : ways (star greedy r) s = [s] := by
  rw [ways_star, h, List.filter_nil, List.flatMap_nil]
  cases greedy with
  | true => rfl
  | false => rfl

/-- As long as what follows a greedy repetition does not match, it goes on. -/
theorem ways_seq_star_of_step (h : ways r s = [t]) (hlt : t.length < s.length)
    (hq : ways q s = []) : ways (seq (star true r) q) s = ways (seq (star true r) q) t := by
  rw [ways, ways_star_of_step h hlt, if_pos rfl, List.flatMap_append, List.flatMap_singleton, hq,
    List.append_nil]
  rfl

/-- What follows a lazy repetition is tried before another round. -/
theorem ways_seq_star_lazy (h : ways r s = [t]) (hlt : t.length < s.length) :
    ways (seq (star false r) q) s = ways q s ++ ways (seq (star false r) q) t := by
  rw [ways, ways_star_of_step h hlt, if_neg Bool.false_ne_true, List.flatMap_cons]
  rfl

theorem ways_seq_star_of_stuck (h : ways r s = []) :
    ways (seq (star greedy r) q) s = ways q s := by
  rw [ways, ways_star_of_stuck h, List.flatMap_singleton]

/-- A greedy run of characters of a class takes all there are. -/
theorem head?_ways_run (test : Char → Bool) (s : List Char) :
    (ways (star true (char test)) s).head? = some (s.dropWhile test) := by
  induction s with
  | nil => rfl
  | cons c s ih =>
      cases htest : test c with
      | true =>
          have hstep : ways (char test) (c :: s) = [s] := by rw [ways, if_pos htest]
          rw [ways_star_of_step hstep (Nat.lt_succ_self _), if_pos rfl, List.head?_append, ih,
            List.dropWhile_cons_of_pos htest, Option.some_or]
      | false =>
          have hstuck : ways (char test) (c :: s) = [] := by
            rw [ways, if_neg (ne_true_of_eq_false htest)]
          rw [ways_star_of_stuck hstuck, List.dropWhile_cons_of_neg (ne_true_of_eq_false htest),
            List.head?_cons]

end

-- ================================================================= matches

variable {κ : Type}

/-- The first alternative that matches at the start of a text, with what its match
leaves of it. -/
def firstMatch? (alternatives : List (κ × Regex)) (s : List Char) : Option (κ × List Char) :=
  alternatives.findSome? fun a => (ways a.2 s).head?.map fun rest => (a.1, rest)

/-- The matches of a text from left to right, each with the alternative that took
it. Matches that take nothing are passed over. -/
def findAll (alternatives : List (κ × Regex)) : List Char → List (κ × List Char)
  | [] => []
  | c :: s =>
    match firstMatch? alternatives (c :: s) with
    | some (k, rest) =>
      if rest.length ≤ s.length then
        (k, (c :: s).take ((c :: s).length - rest.length)) :: findAll alternatives rest
      else findAll alternatives s
    | none => findAll alternatives s
termination_by s => s.length

section

variable {alternatives : List (κ × Regex)}

/-- Where nothing matches, a character is skipped. -/
theorem findAll_of_none {c : Char} {s : List Char}
    (h : firstMatch? alternatives (c :: s) = none) :
    findAll alternatives (c :: s) = findAll alternatives s := by
  rw [findAll, h]

/-- A match is taken, and the search goes on behind it. -/
theorem findAll_of_match {k : κ} {seg rest : List Char} (hseg : seg ≠ [])
    (h : firstMatch? alternatives (seg ++ rest) = some (k, rest)) :
    findAll alternatives (seg ++ rest) = (k, seg) :: findAll alternatives rest := by
  obtain ⟨c, body, rfl⟩ := List.exists_cons_of_ne_nil hseg
  have hlength : (c :: (body ++ rest)).length - rest.length = (c :: body).length := by
    rw [List.length_cons, List.length_append, List.length_cons]
    omega
  have hle : rest.length ≤ (body ++ rest).length := by
    rw [List.length_append]
    omega
  rw [List.cons_append] at h ⊢
  rw [findAll, h]
  simp only [if_pos hle, hlength]
  rw [← List.cons_append, List.take_left]

end

end Regex

end CodeMap.Text
