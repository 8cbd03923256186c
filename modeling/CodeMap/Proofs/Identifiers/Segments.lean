/-
A text is cut into segments in one way only.

# The rules

What a segment of each kind looks like, and what may stand behind it, is said by
`Applies`: a line comment reaches to the end of its line, a block comment to the
first closer, a literal to the first closing quote that is not escaped, and a word
as far as there are word characters. A single character is always a segment. The
first applicable rule takes the segment (`Takes`), and a text splits into what the
rules take, one segment after the other (`Splits`).

# The measure

`measure` looks at a text from its start and says which rule it is. What it
measures is a segment by this rule (`exists_applies`), and there is no choice, for
every rule but the last leaves one way to apply it (`measure_of_applies`). So what
the rules take is what is measured (`takes_iff`), and the segments of a text are
its only split (`splits_segments`, `Splits.eq_segments`).
-/
import CodeMap.Identifiers
import Mathlib.Data.List.Basic
import Mathlib.Data.List.Infix
import Mathlib.Data.List.TakeWhile

namespace CodeMap.Identifiers

-- =================================================================== rules

/-- What may stand between the quotes of a literal: escapes, and characters that
are neither the quote nor a backslash. -/
inductive LiteralBody (quote : Char) (spansLines : Bool) : List Char → Prop where
  | nil : LiteralBody quote spansLines []
  | escape {c : Char} {body : List Char} (h : LiteralBody quote spansLines body) :
      LiteralBody quote spansLines ('\\' :: c :: body)
  | plain {c : Char} {body : List Char} (hescape : c ≠ '\\') (hquote : c ≠ quote)
      (hline : c = '\n' → spansLines = true) (h : LiteralBody quote spansLines body) :
      LiteralBody quote spansLines (c :: body)

/-- What stands between `/*` and the first `*/` behind it. -/
def Unclosed (body : List Char) : Prop :=
  ∀ u v, body ++ ['*', '/'] = u ++ '*' :: '/' :: v → v = []

/-- A segment of a kind, and what is left of the text behind it. -/
inductive Applies : SegmentKind → List Char → List Char → Prop where
  | slashes {body rest : List Char} (hbody : ∀ c ∈ body, c ≠ '\n')
      (hrest : ∀ c ∈ rest.head?, c = '\n') : Applies .lineComment ('/' :: '/' :: body) rest
  | hash {body rest : List Char} (hbody : ∀ c ∈ body, c ≠ '\n')
      (hrest : ∀ c ∈ rest.head?, c = '\n') : Applies .lineComment ('#' :: body) rest
  | block {body rest : List Char} (hbody : Unclosed body) :
      Applies .blockComment ('/' :: '*' :: (body ++ ['*', '/'])) rest
  | doubleQuoted {body rest : List Char} (hbody : LiteralBody '"' true body) :
      Applies .doubleQuoted ('"' :: (body ++ ['"'])) rest
  | singleQuoted {body rest : List Char} (hbody : LiteralBody '\'' false body) :
      Applies .singleQuoted ('\'' :: (body ++ ['\''])) rest
  | word {c : Char} {body rest : List Char} (hc : startsWord c = true)
      (hbody : ∀ d ∈ body, continuesWord d = true)
      (hrest : ∀ d ∈ rest.head?, continuesWord d = false) : Applies .word (c :: body) rest
  | other {c : Char} {rest : List Char} : Applies .other [c] rest

/-- The order in which the rules are tried. -/
def SegmentKind.rank : SegmentKind → Nat
  | .lineComment => 0
  | .blockComment => 1
  | .doubleQuoted => 2
  | .singleQuoted => 3
  | .word => 4
  | .other => 5

/-- The segment at the start of a text: its rule applies and no earlier one does. -/
structure Takes (kind : SegmentKind) (seg rest : List Char) : Prop where
  applies : Applies kind seg rest
  first : ∀ {kind' : SegmentKind} {seg' rest' : List Char}, seg' ++ rest' = seg ++ rest →
    Applies kind' seg' rest' → kind.rank ≤ kind'.rank

/-- A text as the segments that the rules take from left to right. -/
inductive Splits : List Char → List Segment → Prop where
  | nil : Splits [] []
  | cons {kind : SegmentKind} {seg rest : List Char} {segs : List Segment}
      (htakes : Takes kind seg rest) (hrest : Splits rest segs) :
      Splits (seg ++ rest) (⟨kind, seg⟩ :: segs)

-- ============================================================= lines, words

section

variable {test : Char → Bool} {body rest s : List Char}

/-- A run of characters of a class that cannot go on. -/
theorem takeWhile_run (hbody : ∀ c ∈ body, test c = true)
    (hrest : ∀ c ∈ rest.head?, test c = false) : (body ++ rest).takeWhile test = body := by
  rw [List.takeWhile_append_of_pos hbody]
  cases rest with
  | nil => rw [List.takeWhile_nil, List.append_nil]
  | cons c rest =>
      rw [List.takeWhile_cons_of_neg (ne_true_of_eq_false (hrest c rfl)), List.append_nil]

/-- Every text begins with such a run. -/
theorem exists_run (test : Char → Bool) (s : List Char) :
    ∃ rest, s = s.takeWhile test ++ rest ∧ (∀ c ∈ s.takeWhile test, test c = true)
      ∧ ∀ c ∈ rest.head?, test c = false := by
  refine ⟨s.dropWhile test, List.takeWhile_append_dropWhile.symm,
    fun c hc => List.mem_takeWhile_imp hc, fun c hc => ?_⟩
  have hstop := List.head?_dropWhile_not test s
  rw [hc] at hstop
  exact hstop

end

-- ========================================================== block comments

theorem unclosed_nil : Unclosed [] := by
  intro u v h
  have hlength := congrArg List.length h
  simp only [List.nil_append, List.length_append, List.length_cons] at hlength
  exact List.length_eq_zero_iff.mp (by simp at hlength; omega)

/-- A closer is the first one if it does not begin at once, and is the first one
behind that. -/
theorem unclosed_cons_iff {c : Char} {body : List Char} :
    Unclosed (c :: body) ↔ Unclosed body ∧ ¬ (c = '*' ∧ body.head? = some '/') := by
  constructor
  · refine fun h => ⟨fun u v hsplit => h (c :: u) v (congrArg (c :: ·) hsplit), ?_⟩
    intro h
    obtain ⟨rfl, hhead⟩ := h
    obtain ⟨body, rfl⟩ := List.head?_eq_some_iff.mp hhead
    exact absurd (h [] (body ++ ['*', '/']) rfl) (by simp)
  · rintro ⟨h, hopen⟩ u v hsplit
    cases u with
    | nil =>
        obtain ⟨rfl, htail⟩ := List.cons.inj hsplit
        cases body with
        | nil => exact absurd (List.cons.inj htail).1 (by decide)
        | cons d body =>
            obtain ⟨rfl, -⟩ := List.cons.inj htail
            exact absurd ⟨rfl, rfl⟩ hopen
    | cons d u => exact h u v (List.cons.inj hsplit).2

/-- A closer that is not the first one is passed over. -/
theorem blockLength?_of_unclosed {body : List Char} (h : Unclosed body) (rest : List Char) :
    blockLength? (body ++ '*' :: '/' :: rest) = some (body.length + 2) := by
  induction body with
  | nil => rfl
  | cons c body ih =>
      obtain ⟨hbody, hopen⟩ := unclosed_cons_iff.mp h
      rw [List.cons_append, blockLength?, ih hbody]
      · rfl
      · intro after hc hafter
        cases body with
        | nil => exact absurd (List.cons.inj hafter).1 (by decide)
        | cons d body => exact hopen ⟨hc, congrArg some (List.cons.inj hafter).1⟩

/-- The length of a block comment reaches through the first closer. -/
theorem blockLength?_eq_some_iff {s : List Char} {n : Nat} :
    blockLength? s = some n ↔
      ∃ body rest, s = body ++ '*' :: '/' :: rest ∧ Unclosed body ∧ n = body.length + 2 := by
  constructor
  · intro h
    fun_induction blockLength? s generalizing n with
    | case1 => cases h
    | case2 rest => exact ⟨[], rest, rfl, unclosed_nil, (Option.some.inj h).symm⟩
    | case3 c rest hopen ih =>
        obtain ⟨m, hm, rfl⟩ := Option.map_eq_some_iff.mp h
        obtain ⟨body, rest', rfl, hbody, rfl⟩ := ih hm
        refine ⟨c :: body, rest', rfl, unclosed_cons_iff.mpr ⟨hbody, ?_⟩, rfl⟩
        intro h
        obtain ⟨hc, hhead⟩ := h
        obtain ⟨body, rfl⟩ := List.head?_eq_some_iff.mp hhead
        exact hopen _ hc rfl
  · intro h
    obtain ⟨body, rest, rfl, hbody, rfl⟩ := h
    exact blockLength?_of_unclosed hbody rest

-- ================================================================ literals

/-- What is neither the end of a text behind a backslash nor an escape does not
begin with a backslash. -/
theorem ne_backslash {c : Char} {s : List Char} (hlast : c = '\\' → s = [] → False)
    (hescape : ∀ d rest, c = '\\' → s = d :: rest → False) : c ≠ '\\' := by
  intro hc
  cases s with
  | nil => exact hlast hc rfl
  | cons d rest => exact hescape d rest hc rfl

section

variable {quote : Char} {spansLines : Bool}

theorem literalLength?_cons {c : Char} (hc : c ≠ '\\') (s : List Char) :
    literalLength? quote spansLines (c :: s)
      = if c = quote then some 1
        else if c = '\n' && !spansLines then none
        else (literalLength? quote spansLines s).map (· + 1) :=
  literalLength?.eq_4 quote spansLines c s (fun h _ => hc h) (fun _ _ h _ => hc h)

/-- A body is passed over up to the closing quote. -/
theorem literalLength?_of_body (hquote : quote ≠ '\\') {body : List Char}
    (h : LiteralBody quote spansLines body) (rest : List Char) :
    literalLength? quote spansLines (body ++ quote :: rest) = some (body.length + 1) := by
  induction h with
  | nil => rw [List.nil_append, literalLength?_cons hquote, if_pos rfl, List.length_nil]
  | escape h ih =>
      rw [List.cons_append, List.cons_append, literalLength?, ih]
      rfl
  | plain hescape hne hline h ih =>
      rw [List.cons_append, literalLength?_cons hescape, if_neg hne, if_neg, ih]
      · rfl
      · intro hfeed
        obtain ⟨hfeed, hlines⟩ := Bool.and_eq_true_iff.mp hfeed
        rw [hline (of_decide_eq_true hfeed)] at hlines
        cases hlines

/-- The length of a literal reaches through the first quote that is not escaped. -/
theorem literalLength?_eq_some_iff (hquote : quote ≠ '\\') {s : List Char} {n : Nat} :
    literalLength? quote spansLines s = some n ↔
      ∃ body rest, s = body ++ quote :: rest ∧ LiteralBody quote spansLines body
        ∧ n = body.length + 1 := by
  constructor
  · intro h
    fun_induction literalLength? quote spansLines s generalizing n with
    | case1 => cases h
    | case2 => cases h
    | case3 c rest ih =>
        obtain ⟨m, hm, rfl⟩ := Option.map_eq_some_iff.mp h
        obtain ⟨body, rest', rfl, hbody, rfl⟩ := ih hm
        exact ⟨'\\' :: c :: body, rest', rfl, .escape hbody, rfl⟩
    | case4 rest => exact ⟨[], rest, rfl, .nil, (Option.some.inj h).symm⟩
    | case5 => cases h
    | case6 c rest hlast hescape hne hline ih =>
        obtain ⟨m, hm, rfl⟩ := Option.map_eq_some_iff.mp h
        obtain ⟨body, rest', rfl, hbody, rfl⟩ := ih hm
        refine ⟨c :: body, rest', rfl,
          .plain (ne_backslash hlast hescape) hne (fun hfeed => ?_) hbody, rfl⟩
        rw [hfeed] at hline
        simpa using hline
  · intro h
    obtain ⟨body, rest, rfl, hbody, rfl⟩ := h
    exact literalLength?_of_body hquote hbody rest

end

-- =============================================================== measures

theorem measure_slashes (s : List Char) :
    measure '/' ('/' :: s)
      = (.lineComment, 1 + (('/' :: s).takeWhile fun c => c ≠ '\n').length) := rfl

theorem measure_block (s : List Char) :
    measure '/' ('*' :: s) = match blockLength? s with
      | some n => (.blockComment, n + 2)
      | none => (.other, 1) := rfl

theorem measure_slash {s : List Char} (hslash : s.head? ≠ some '/') (hstar : s.head? ≠ some '*') :
    measure '/' s = (.other, 1) := by
  unfold measure
  rw [if_neg (by simp [hslash])]
  split
  · exact absurd rfl hstar
  next hhash => exact absurd hhash (by decide)
  next hdouble => exact absurd hdouble (by decide)
  next hsingle => exact absurd hsingle (by decide)
  · rfl

theorem measure_hash (s : List Char) :
    measure '#' s = (.lineComment, 1 + (s.takeWhile fun c => c ≠ '\n').length) := rfl

theorem measure_doubleQuote (s : List Char) :
    measure '"' s = match literalLength? '"' true s with
      | some n => (.doubleQuoted, n + 1)
      | none => (.other, 1) := rfl

theorem measure_singleQuote (s : List Char) :
    measure '\'' s = match literalLength? '\'' false s with
      | some n => (.singleQuoted, n + 1)
      | none => (.other, 1) := rfl

theorem measure_plain {c : Char} (hslash : c ≠ '/') (hhash : c ≠ '#') (hdouble : c ≠ '"')
    (hsingle : c ≠ '\'') (s : List Char) :
    measure c s
      = if startsWord c then (.word, 1 + (s.takeWhile continuesWord).length)
        else (.other, 1) := by
  unfold measure
  rw [if_neg (by simp [hslash])]
  split
  · exact absurd rfl hslash
  · exact absurd rfl hhash
  · exact absurd rfl hdouble
  · exact absurd rfl hsingle
  · rfl

/-- A rule other than the last one applies in one way, and it is the one that is
measured. -/
theorem measure_of_applies {kind : SegmentKind} {seg rest : List Char} {c : Char} {s : List Char}
    (h : Applies kind seg rest) (hkind : kind ≠ .other) (hsplit : seg ++ rest = c :: s) :
    measure c s = (kind, seg.length) := by
  cases h with
  | @slashes body _ hbody hrest =>
      obtain ⟨rfl, rfl⟩ := List.cons.inj hsplit
      show measure '/' ('/' :: (body ++ rest)) = _
      rw [measure_slashes, List.takeWhile_cons_of_pos (by decide),
        takeWhile_run (fun c hc => decide_eq_true (hbody c hc)) (fun c hc => by simp [hrest c hc]),
        Nat.add_comm]
      rfl
  | @hash body _ hbody hrest =>
      obtain ⟨rfl, rfl⟩ := List.cons.inj hsplit
      show measure '#' (body ++ rest) = _
      rw [measure_hash,
        takeWhile_run (fun c hc => decide_eq_true (hbody c hc)) (fun c hc => by simp [hrest c hc]),
        Nat.add_comm]
      rfl
  | @block body _ hbody =>
      obtain ⟨rfl, rfl⟩ := List.cons.inj hsplit
      have hlength : blockLength? (body ++ ['*', '/'] ++ rest) = some (body.length + 2) := by
        rw [List.append_assoc]
        exact blockLength?_of_unclosed hbody rest
      show measure '/' ('*' :: (body ++ ['*', '/'] ++ rest)) = _
      rw [measure_block, hlength]
      simp
  | @doubleQuoted body _ hbody =>
      obtain ⟨rfl, rfl⟩ := List.cons.inj hsplit
      have hlength : literalLength? '"' true (body ++ ['"'] ++ rest) = some (body.length + 1) := by
        rw [List.append_assoc]
        exact literalLength?_of_body (by decide) hbody rest
      show measure '"' (body ++ ['"'] ++ rest) = _
      rw [measure_doubleQuote, hlength]
      simp
  | @singleQuoted body _ hbody =>
      obtain ⟨rfl, rfl⟩ := List.cons.inj hsplit
      have hlength : literalLength? '\'' false (body ++ ['\''] ++ rest)
          = some (body.length + 1) := by
        rw [List.append_assoc]
        exact literalLength?_of_body (by decide) hbody rest
      show measure '\'' (body ++ ['\''] ++ rest) = _
      rw [measure_singleQuote, hlength]
      simp
  | @word a body _ ha hbody hrest =>
      obtain ⟨rfl, rfl⟩ := List.cons.inj hsplit
      have hplain : ∀ d, startsWord d = false → a ≠ d := fun d hd had => by
        rw [← had, ha] at hd
        cases hd
      show measure a (body ++ rest) = _
      rw [measure_plain (hplain _ (by decide)) (hplain _ (by decide)) (hplain _ (by decide))
        (hplain _ (by decide)), if_pos ha, takeWhile_run hbody hrest, Nat.add_comm]
      rfl
  | other => exact absurd rfl hkind

/-- Every text begins with what is left of its first line. -/
theorem exists_line (s : List Char) :
    ∃ body rest, s = body ++ rest ∧ (∀ c ∈ body, c ≠ '\n') ∧ ∀ c ∈ rest.head?, c = '\n' := by
  obtain ⟨rest, hsplit, hbody, hrest⟩ := exists_run (fun c => c ≠ '\n') s
  exact ⟨_, rest, hsplit, fun c hc => of_decide_eq_true (hbody c hc),
    fun c hc => Decidable.not_not.mp (of_decide_eq_false (hrest c hc))⟩

/-- What is measured is a segment by the rule that is named. -/
theorem exists_applies (c : Char) (s : List Char) :
    ∃ kind seg rest, c :: s = seg ++ rest ∧ Applies kind seg rest
      ∧ measure c s = (kind, seg.length) := by
  have hfound : ∀ {kind seg} rest, Applies kind seg rest → kind ≠ .other →
      seg ++ rest = c :: s → ∃ kind seg rest, c :: s = seg ++ rest
        ∧ Applies kind seg rest ∧ measure c s = (kind, seg.length) :=
    fun rest h hkind hsplit => ⟨_, _, rest, hsplit.symm, h, measure_of_applies h hkind hsplit⟩
  have hother : measure c s = (.other, 1) → ∃ kind seg rest, c :: s = seg ++ rest
      ∧ Applies kind seg rest ∧ measure c s = (kind, seg.length) :=
    fun h => ⟨.other, [c], s, rfl, .other, h⟩
  by_cases hslash : c = '/'
  · subst hslash
    by_cases hslashes : s.head? = some '/'
    · obtain ⟨s, rfl⟩ := List.head?_eq_some_iff.mp hslashes
      obtain ⟨body, rest, rfl, hbody, hrest⟩ := exists_line s
      exact hfound rest (.slashes hbody hrest) (by decide) rfl
    by_cases hstar : s.head? = some '*'
    · obtain ⟨s, rfl⟩ := List.head?_eq_some_iff.mp hstar
      cases hlength : blockLength? s with
      | none => exact hother (by rw [measure_block, hlength])
      | some n =>
          obtain ⟨body, rest, rfl, hbody, -⟩ := blockLength?_eq_some_iff.mp hlength
          exact hfound rest (.block hbody) (by decide) (by simp)
    exact hother (measure_slash hslashes hstar)
  by_cases hhash : c = '#'
  · subst hhash
    obtain ⟨body, rest, rfl, hbody, hrest⟩ := exists_line s
    exact hfound rest (.hash hbody hrest) (by decide) rfl
  by_cases hdouble : c = '"'
  · subst hdouble
    cases hlength : literalLength? '"' true s with
    | none => exact hother (by rw [measure_doubleQuote, hlength])
    | some n =>
        obtain ⟨body, rest, rfl, hbody, -⟩ := (literalLength?_eq_some_iff (by decide)).mp hlength
        exact hfound rest (.doubleQuoted hbody) (by decide) (by simp)
  by_cases hsingle : c = '\''
  · subst hsingle
    cases hlength : literalLength? '\'' false s with
    | none => exact hother (by rw [measure_singleQuote, hlength])
    | some n =>
        obtain ⟨body, rest, rfl, hbody, -⟩ := (literalLength?_eq_some_iff (by decide)).mp hlength
        exact hfound rest (.singleQuoted hbody) (by decide) (by simp)
  cases hc : startsWord c with
  | true =>
      obtain ⟨rest, hsplit, hbody, hrest⟩ := exists_run continuesWord s
      exact hfound rest (.word hc hbody hrest) (by decide) (congrArg (c :: ·) hsplit.symm)
  | false =>
      refine hother ?_
      rw [measure_plain hslash hhash hdouble hsingle, if_neg (ne_true_of_eq_false hc)]

-- ================================================================== splits

theorem SegmentKind.rank_le_other (kind : SegmentKind) : kind.rank ≤ SegmentKind.other.rank := by
  cases kind <;> decide

/-- What the rules take is what is measured. -/
theorem takes_iff {kind : SegmentKind} {seg rest : List Char} {c : Char} {s : List Char}
    (hsplit : seg ++ rest = c :: s) :
    Takes kind seg rest ↔ measure c s = (kind, seg.length) := by
  obtain ⟨kind', seg', rest', hsplit', happlies, hmeasure⟩ := exists_applies c s
  constructor
  · intro h
    by_cases hkind : kind = .other
    · -- the rule that is measured comes no earlier, so it is the last one as well
      have hrank := h.first (hsplit'.symm.trans hsplit.symm) happlies
      have hlast := h.applies
      subst hkind
      cases happlies with
      | other =>
          cases hlast with
          | other => exact hmeasure
      | _ => exact absurd hrank (by decide)
    · exact measure_of_applies h.applies hkind hsplit
  · intro h
    obtain ⟨rfl, hlength⟩ := Prod.mk.inj (hmeasure.symm.trans h)
    obtain ⟨rfl, rfl⟩ := List.append_inj (hsplit'.symm.trans hsplit.symm) hlength
    refine ⟨happlies, fun {kind _ _} hsame hkind => ?_⟩
    by_cases hother : kind = .other
    · rw [hother]
      exact kind'.rank_le_other
    · have hmeasure' := measure_of_applies hkind hother (hsame.trans hsplit)
      exact Nat.le_of_eq (congrArg SegmentKind.rank (Prod.mk.inj (h.symm.trans hmeasure')).1)

/-- Every text that is not empty has a segment at its start. -/
theorem exists_takes (c : Char) (s : List Char) :
    ∃ kind seg rest, c :: s = seg ++ rest ∧ Takes kind seg rest := by
  obtain ⟨kind, seg, rest, hsplit, -, hmeasure⟩ := exists_applies c s
  exact ⟨kind, seg, rest, hsplit, (takes_iff hsplit.symm).mpr hmeasure⟩

/-- A segment has a first character. -/
theorem Applies.exists_cons {kind : SegmentKind} {seg rest : List Char}
    (h : Applies kind seg rest) : ∃ c body, seg = c :: body := by
  cases h with
  | _ => exact ⟨_, _, rfl⟩

/-- Cutting takes one segment and goes on behind it. -/
theorem cut_append {kind : SegmentKind} {seg rest : List Char} (h : Takes kind seg rest)
    (fuel : Nat) : cut (fuel + 1) (seg ++ rest) = ⟨kind, seg⟩ :: cut fuel rest := by
  obtain ⟨c, body, rfl⟩ := h.applies.exists_cons
  have hmeasure : measure c (body ++ rest) = (kind, (c :: body).length) := (takes_iff rfl).mp h
  rw [List.cons_append, cut]
  simp only [hmeasure]
  rw [← List.cons_append, List.take_left, List.drop_left]

theorem cut_nil (fuel : Nat) : cut fuel [] = [] := by
  cases fuel with
  | zero => rfl
  | succ fuel => rfl

/-- One cut per character is enough. -/
theorem cut_eq {fuel fuel' : Nat} {s : List Char} (h : s.length ≤ fuel) (h' : s.length ≤ fuel') :
    cut fuel s = cut fuel' s := by
  induction fuel generalizing fuel' s with
  | zero =>
      obtain rfl := List.length_eq_zero_iff.mp (Nat.le_zero.mp h)
      rw [cut_nil, cut_nil]
  | succ fuel ih =>
      cases s with
      | nil => rw [cut_nil, cut_nil]
      | cons c s =>
          obtain ⟨kind, seg, rest, hsplit, htakes⟩ := exists_takes c s
          obtain ⟨d, body, rfl⟩ := htakes.applies.exists_cons
          rw [hsplit] at h h' ⊢
          rw [List.length_append, List.length_cons] at h h'
          cases fuel' with
          | zero => omega
          | succ fuel' =>
              have hrest : cut fuel rest = cut fuel' rest := ih (by omega) (by omega)
              rw [cut_append htakes, cut_append htakes, hrest]

theorem segments_append {kind : SegmentKind} {seg rest : List Char} (h : Takes kind seg rest) :
    segments (seg ++ rest) = ⟨kind, seg⟩ :: segments rest := by
  obtain ⟨c, body, rfl⟩ := h.applies.exists_cons
  have hlength : (c :: body ++ rest).length = body.length + rest.length + 1 := by
    rw [List.length_append, List.length_cons]
    omega
  unfold segments
  rw [hlength, cut_append h, cut_eq (Nat.le_add_left _ _) (Nat.le_refl _)]

/-- A text splits into its segments. -/
theorem splits_segments (text : List Char) : Splits text (segments text) := by
  induction hlength : text.length using Nat.strong_induction_on generalizing text with
  | _ n ih =>
      cases text with
      | nil => exact .nil
      | cons c s =>
          obtain ⟨kind, seg, rest, hsplit, htakes⟩ := exists_takes c s
          obtain ⟨d, body, rfl⟩ := htakes.applies.exists_cons
          rw [hsplit, List.length_append, List.length_cons] at hlength
          rw [hsplit, segments_append htakes]
          exact .cons htakes (ih rest.length (by omega) rest rfl)

/-- A text splits in no other way. -/
theorem Splits.eq_segments {text : List Char} {segs : List Segment} (h : Splits text segs) :
    segs = segments text := by
  induction h with
  | nil => rfl
  | cons htakes hrest ih => rw [segments_append htakes, ih]

/-- The segments make up the text. -/
theorem Splits.flatMap_text {text : List Char} {segs : List Segment} (h : Splits text segs) :
    segs.flatMap Segment.text = text := by
  induction h with
  | nil => rfl
  | cons htakes hrest ih => rw [List.flatMap_cons, ih]

end CodeMap.Identifiers
