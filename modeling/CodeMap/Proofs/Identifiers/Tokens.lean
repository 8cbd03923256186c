/-
The segments of a text are the matches of one regular expression.

# The expression

Comments, literals and words are what the token expression matches (`tokens`):
its alternatives in their order are those of

    //[^\n]* | /\*.*?\*/ | #[^\n]* | "(\\.|[^"\\])*" | '(\\.|[^'\\\n])*' | [A-Za-z_][A-Za-z0-9_]*

where a dot stands for a line feed as well. Each alternative is read back as the
rule for its segments (`exists_match_iff`): the greedy runs take all there is, the
lazy one stops at the first closer, and the repetition in a literal has never more
than one way to go on. So the first alternative that matches at the start of a
segment takes the segment, and none matches at a single character
(`firstMatch?_takes`).

# The matches

Searching a text for the expression thus goes from one segment to the next, and
passes over the single characters (`Splits.findAll_eq`).
-/
import CodeMap.Proofs.Identifiers.Segments
import CodeMap.Proofs.Text.Regex

namespace CodeMap.Identifiers

open Text Text.Regex

-- ============================================================== expression

/-- What is left of a line. -/
def restOfLine : Regex := .star true (.char fun c => c ≠ '\n')

/-- What follows the opener of a block comment. -/
def blockTail : Regex := .seq (.star false any) (.seq (only '*') (only '/'))

/-- A piece of a literal: an escape, or a character that stands for itself. -/
def literalRound (plain : Char → Bool) : Regex := .alt (.seq (only '\\') any) (.char plain)

/-- What follows the opening quote of a literal. -/
def literalTail (quote : Char) (plain : Char → Bool) : Regex :=
  .seq (.star true (literalRound plain)) (only quote)

/-- The alternatives of the token expression, each with the segments it takes. -/
def tokens : List (SegmentKind × Regex) :=
  [(.lineComment, .seq (only '/') (.seq (only '/') restOfLine)),
    (.blockComment, .seq (only '/') (.seq (only '*') blockTail)),
    (.lineComment, .seq (only '#') restOfLine),
    (.doubleQuoted, .seq (only '"') (literalTail '"' fun c => c ≠ '"' ∧ c ≠ '\\')),
    (.singleQuoted,
      .seq (only '\'') (literalTail '\'' fun c => c ≠ '\'' ∧ c ≠ '\\' ∧ c ≠ '\n')),
    (.word, .seq (.char startsWord) (.star true (.char continuesWord)))]

-- ==================================================================== runs

theorem head?_ways_run_iff {test : Char → Bool} {s rest : List Char} :
    (ways (.star true (.char test)) s).head? = some rest ↔
      ∃ body, s = body ++ rest ∧ (∀ c ∈ body, test c = true)
        ∧ ∀ c ∈ rest.head?, test c = false := by
  rw [head?_ways_run, Option.some.injEq]
  constructor
  · rintro rfl
    obtain ⟨rest, hsplit, hbody, hrest⟩ := exists_run test s
    have hdrop : s.dropWhile test = rest := by
      refine (List.append_right_inj (s.takeWhile test)).mp ?_
      rw [← hsplit, List.takeWhile_append_dropWhile]
    exact ⟨s.takeWhile test, (List.takeWhile_append_dropWhile).symm, hbody, by rwa [hdrop]⟩
  · intro h
    obtain ⟨body, rfl, hbody, hrest⟩ := h
    refine (List.append_right_inj body).mp ?_
    have hsplit := List.takeWhile_append_dropWhile (p := test) (l := body ++ rest)
    rw [takeWhile_run hbody hrest] at hsplit
    exact hsplit

theorem head?_ways_restOfLine {s rest : List Char} :
    (ways restOfLine s).head? = some rest ↔
      ∃ body, s = body ++ rest ∧ (∀ c ∈ body, c ≠ '\n') ∧ ∀ c ∈ rest.head?, c = '\n' := by
  unfold restOfLine
  rw [head?_ways_run_iff]
  simp only [decide_eq_true_eq, decide_eq_false_iff_not, Decidable.not_not]

-- ========================================================== block comments

/-- The closer of a block comment, where it is not. -/
theorem ways_closer_eq_nil {c : Char} {s : List Char}
    (h : ∀ rest, c = '*' → s = '/' :: rest → False) :
    ways (.seq (only '*') (only '/')) (c :: s) = [] := by
  refine List.head?_eq_none_iff.mp (Option.eq_none_iff_forall_ne_some.mpr fun rest hrest => ?_)
  obtain ⟨t, hs, ht⟩ := head?_ways_seq_only.mp hrest
  obtain ⟨hc, rfl⟩ := List.cons.inj hs
  cases s with
  | nil => cases ht
  | cons d s =>
      rw [only, ways] at ht
      split at ht
      · exact h s hc (congrArg (· :: s) (eq_of_beq ‹_›))
      · cases ht

theorem head?_ways_blockTail (s : List Char) :
    (ways blockTail s).head? = (blockLength? s).map s.drop := by
  unfold blockTail
  have hstep : ∀ c s, ways any (c :: s) = [s] := fun c s => rfl
  fun_induction blockLength? s with
  | case1 => rfl
  | case2 rest =>
      rw [ways_seq_star_lazy (hstep _ _) (Nat.lt_succ_self _)]
      rfl
  | case3 c rest hopen ih =>
      rw [ways_seq_star_lazy (hstep _ _) (Nat.lt_succ_self _), ways_closer_eq_nil hopen,
        List.nil_append, ih, Option.map_map]
      rfl

-- ================================================================ literals

theorem ways_literalRound_escape {plain : Char → Bool} (h : plain '\\' = false) (c : Char)
    (s : List Char) : ways (literalRound plain) ('\\' :: c :: s) = [s] := by
  rw [literalRound, ways, only, ways_seq_char, if_pos (by decide), ways,
    if_neg (ne_true_of_eq_false h), List.append_nil]
  rfl

theorem ways_literalRound_last {plain : Char → Bool} (h : plain '\\' = false) :
    ways (literalRound plain) ['\\'] = [] := by
  rw [literalRound, ways, ways, if_neg (ne_true_of_eq_false h)]
  rfl

theorem ways_literalRound_plain {plain : Char → Bool} {c : Char} (h : c ≠ '\\')
    (s : List Char) :
    ways (literalRound plain) (c :: s) = if plain c then [s] else [] := by
  rw [literalRound, ways, only, ways_seq_char, if_neg (by simpa using h), List.nil_append, ways]

theorem ways_only {quote c : Char} (s : List Char) :
    ways (only quote) (c :: s) = if c = quote then [s] else [] := by
  rw [only, ways]
  simp only [beq_iff_eq]

/-- The repetition in a literal goes on until there is a quote that is not escaped. -/
theorem head?_ways_literalTail {quote : Char} (hquote : quote ≠ '\\') {spansLines : Bool}
    {plain : Char → Bool}
    (hplain : ∀ c, plain c = true ↔ c ≠ quote ∧ c ≠ '\\' ∧ (c = '\n' → spansLines = true))
    (s : List Char) :
    (ways (literalTail quote plain) s).head?
      = (literalLength? quote spansLines s).map s.drop := by
  have hbackslash : plain '\\' = false :=
    Bool.eq_false_iff.mpr fun h => ((hplain _).mp h).2.1 rfl
  unfold literalTail
  fun_induction literalLength? quote spansLines s with
  | case1 => rfl
  | case2 =>
      rw [ways_seq_star_of_stuck (ways_literalRound_last hbackslash), ways_only,
        if_neg hquote.symm]
      rfl
  | case3 c rest ih =>
      have hlt : rest.length < ('\\' :: c :: rest).length := by
        rw [List.length_cons, List.length_cons]
        omega
      rw [ways_seq_star_of_step (ways_literalRound_escape hbackslash c rest) hlt
        ((ways_only _).trans (if_neg hquote.symm)), ih, Option.map_map]
      rfl
  | case4 rest =>
      have hstuck : ways (literalRound plain) (quote :: rest) = [] := by
        rw [ways_literalRound_plain hquote, if_neg fun h => ((hplain _).mp h).1 rfl]
      rw [ways_seq_star_of_stuck hstuck, ways_only, if_pos rfl]
      rfl
  | case5 c rest hlast hescape hne hline =>
      obtain ⟨hfeed, hlines⟩ := Bool.and_eq_true_iff.mp hline
      have hc : c = '\n' := of_decide_eq_true hfeed
      have hstuck : ways (literalRound plain) (c :: rest) = [] := by
        rw [ways_literalRound_plain (by rw [hc]; decide), if_neg]
        intro h
        rw [((hplain c).mp h).2.2 hc] at hlines
        cases hlines
      rw [ways_seq_star_of_stuck hstuck, ways_only, if_neg hne]
      rfl
  | case6 c rest hlast hescape hne hline ih =>
      have hc := ne_backslash hlast hescape
      have hstep : ways (literalRound plain) (c :: rest) = [rest] := by
        rw [ways_literalRound_plain hc, if_pos ((hplain c).mpr ⟨hne, hc, fun hfeed => ?_⟩)]
        rw [hfeed] at hline
        simpa using hline
      rw [ways_seq_star_of_step hstep (Nat.lt_succ_self _) ((ways_only _).trans (if_neg hne)), ih,
        Option.map_map]
      rfl

-- ================================================================= matches

theorem head?_ways_blockTail_iff {s rest : List Char} :
    (ways blockTail s).head? = some rest ↔
      ∃ body, s = body ++ ['*', '/'] ++ rest ∧ Unclosed body := by
  rw [head?_ways_blockTail, Option.map_eq_some_iff]
  constructor
  · intro h
    obtain ⟨n, hlength, rfl⟩ := h
    obtain ⟨body, rest, rfl, hbody, rfl⟩ := blockLength?_eq_some_iff.mp hlength
    refine ⟨body, ?_, hbody⟩
    rw [← List.drop_drop, List.drop_left, List.append_assoc]
    rfl
  · intro h
    obtain ⟨body, rfl, hbody⟩ := h
    refine ⟨body.length + 2, blockLength?_eq_some_iff.mpr ⟨body, rest, ?_, hbody, rfl⟩, ?_⟩
    · rw [List.append_assoc]
      rfl
    · exact List.drop_left' List.length_append

theorem head?_ways_literalTail_iff {quote : Char} (hquote : quote ≠ '\\') {spansLines : Bool}
    {plain : Char → Bool}
    (hplain : ∀ c, plain c = true ↔ c ≠ quote ∧ c ≠ '\\' ∧ (c = '\n' → spansLines = true))
    {s rest : List Char} :
    (ways (literalTail quote plain) s).head? = some rest ↔
      ∃ body, s = body ++ [quote] ++ rest ∧ LiteralBody quote spansLines body := by
  rw [head?_ways_literalTail hquote hplain, Option.map_eq_some_iff]
  constructor
  · intro h
    obtain ⟨n, hlength, rfl⟩ := h
    obtain ⟨body, rest, rfl, hbody, rfl⟩ := (literalLength?_eq_some_iff hquote).mp hlength
    refine ⟨body, ?_, hbody⟩
    rw [← List.drop_drop, List.drop_left, List.append_assoc]
    rfl
  · intro h
    obtain ⟨body, rfl, hbody⟩ := h
    refine ⟨body.length + 1, (literalLength?_eq_some_iff hquote).mpr
      ⟨body, rest, ?_, hbody, rfl⟩, ?_⟩
    · rw [List.append_assoc]
      rfl
    · exact List.drop_left' List.length_append

theorem plain_doubleQuoted (c : Char) :
    decide (c ≠ '"' ∧ c ≠ '\\') = true ↔ c ≠ '"' ∧ c ≠ '\\' ∧ (c = '\n' → true = true) := by
  simp

theorem plain_singleQuoted (c : Char) :
    decide (c ≠ '\'' ∧ c ≠ '\\' ∧ c ≠ '\n') = true
      ↔ c ≠ '\'' ∧ c ≠ '\\' ∧ (c = '\n' → false = true) := by
  simp

/-- What an alternative matches is a segment by the rule that it stands for. -/
theorem applies_of_match {kind : SegmentKind} {r : Regex} {s rest : List Char}
    (hr : (kind, r) ∈ tokens) (hmatch : (ways r s).head? = some rest) :
    kind ≠ .other ∧ ∃ seg, s = seg ++ rest ∧ Applies kind seg rest := by
  simp only [tokens, List.mem_cons, Prod.mk.injEq, List.not_mem_nil, or_false] at hr
  rcases hr with ⟨rfl, rfl⟩ | ⟨rfl, rfl⟩ | ⟨rfl, rfl⟩ | ⟨rfl, rfl⟩ | ⟨rfl, rfl⟩ | ⟨rfl, rfl⟩
  · obtain ⟨t, rfl, hslash⟩ := head?_ways_seq_only.mp hmatch
    obtain ⟨t, rfl, hline⟩ := head?_ways_seq_only.mp hslash
    obtain ⟨body, rfl, hbody, hrest⟩ := head?_ways_restOfLine.mp hline
    exact ⟨by decide, _, rfl, .slashes hbody hrest⟩
  · obtain ⟨t, rfl, hstar⟩ := head?_ways_seq_only.mp hmatch
    obtain ⟨t, rfl, htail⟩ := head?_ways_seq_only.mp hstar
    obtain ⟨body, rfl, hbody⟩ := head?_ways_blockTail_iff.mp htail
    exact ⟨by decide, _, rfl, .block hbody⟩
  · obtain ⟨t, rfl, hline⟩ := head?_ways_seq_only.mp hmatch
    obtain ⟨body, rfl, hbody, hrest⟩ := head?_ways_restOfLine.mp hline
    exact ⟨by decide, _, rfl, .hash hbody hrest⟩
  · obtain ⟨t, rfl, htail⟩ := head?_ways_seq_only.mp hmatch
    obtain ⟨body, rfl, hbody⟩ :=
      (head?_ways_literalTail_iff (by decide) plain_doubleQuoted).mp htail
    exact ⟨by decide, _, rfl, .doubleQuoted hbody⟩
  · obtain ⟨t, rfl, htail⟩ := head?_ways_seq_only.mp hmatch
    obtain ⟨body, rfl, hbody⟩ :=
      (head?_ways_literalTail_iff (by decide) plain_singleQuoted).mp htail
    exact ⟨by decide, _, rfl, .singleQuoted hbody⟩
  · obtain ⟨c, t, rfl, hc, hrun⟩ := head?_ways_seq_char.mp hmatch
    obtain ⟨body, rfl, hbody, hrest⟩ := head?_ways_run_iff.mp hrun
    exact ⟨by decide, _, rfl, .word hc hbody hrest⟩

/-- A segment is matched by an alternative that stands for its rule. -/
theorem exists_match {kind : SegmentKind} {seg rest : List Char} (h : Applies kind seg rest)
    (hkind : kind ≠ .other) :
    ∃ r, (kind, r) ∈ tokens ∧ (ways r (seg ++ rest)).head? = some rest := by
  cases h with
  | slashes hbody hrest =>
      refine ⟨_, .head _, head?_ways_seq_only.mpr ⟨_, rfl, head?_ways_seq_only.mpr ⟨_, rfl, ?_⟩⟩⟩
      exact head?_ways_restOfLine.mpr ⟨_, rfl, hbody, hrest⟩
  | block hbody =>
      refine ⟨_, .tail _ (.head _),
        head?_ways_seq_only.mpr ⟨_, rfl, head?_ways_seq_only.mpr ⟨_, rfl, ?_⟩⟩⟩
      exact head?_ways_blockTail_iff.mpr ⟨_, rfl, hbody⟩
  | hash hbody hrest =>
      refine ⟨_, .tail _ (.tail _ (.head _)), head?_ways_seq_only.mpr ⟨_, rfl, ?_⟩⟩
      exact head?_ways_restOfLine.mpr ⟨_, rfl, hbody, hrest⟩
  | doubleQuoted hbody =>
      refine ⟨_, .tail _ (.tail _ (.tail _ (.head _))), head?_ways_seq_only.mpr ⟨_, rfl, ?_⟩⟩
      exact (head?_ways_literalTail_iff (by decide) plain_doubleQuoted).mpr ⟨_, rfl, hbody⟩
  | singleQuoted hbody =>
      refine ⟨_, .tail _ (.tail _ (.tail _ (.tail _ (.head _)))),
        head?_ways_seq_only.mpr ⟨_, rfl, ?_⟩⟩
      exact (head?_ways_literalTail_iff (by decide) plain_singleQuoted).mpr ⟨_, rfl, hbody⟩
  | word hc hbody hrest =>
      refine ⟨_, .tail _ (.tail _ (.tail _ (.tail _ (.tail _ (.head _))))),
        head?_ways_seq_char.mpr ⟨_, _, rfl, hc, ?_⟩⟩
      exact head?_ways_run_iff.mpr ⟨_, rfl, hbody, hrest⟩
  | other => exact absurd rfl hkind

/-- The first alternative that matches takes the segment. None matches where only
the last rule applies. -/
theorem firstMatch?_takes {kind : SegmentKind} {seg rest : List Char} (h : Takes kind seg rest) :
    firstMatch? tokens (seg ++ rest) = if kind = .other then none else some (kind, rest) := by
  unfold firstMatch?
  cases hfirst : tokens.findSome? fun a =>
      (ways a.2 (seg ++ rest)).head?.map fun rest => (a.1, rest) with
  | none =>
      refine (if_pos ?_).symm
      by_contra hkind
      obtain ⟨r, hr, hmatch⟩ := exists_match h.applies hkind
      have hnone := List.findSome?_eq_none_iff.mp hfirst _ hr
      rw [hmatch] at hnone
      cases hnone
  | some found =>
      obtain ⟨⟨kind', r⟩, hr, hfound⟩ := List.exists_of_findSome?_eq_some hfirst
      obtain ⟨rest', hmatch, rfl⟩ := Option.map_eq_some_iff.mp hfound
      obtain ⟨hkind', seg', hsplit, happlies⟩ := applies_of_match hr hmatch
      -- the measure leaves one segment, so the match is the one that is taken
      obtain ⟨c, body, rfl⟩ := h.applies.exists_cons
      have hmeasure := (takes_iff rfl).mp h
      rw [measure_of_applies happlies hkind' hsplit.symm] at hmeasure
      obtain ⟨rfl, hlength⟩ := Prod.mk.inj hmeasure
      obtain ⟨rfl, rfl⟩ := List.append_inj hsplit.symm hlength
      exact (if_neg hkind').symm

/-- The matches of a text are its segments other than single characters. -/
theorem Splits.findAll_eq {text : List Char} {segs : List Segment} (h : Splits text segs) :
    findAll tokens text
      = (segs.filter fun s => s.kind ≠ .other).map fun s => (s.kind, s.text) := by
  induction h with
  | nil => rw [findAll, List.filter_nil, List.map_nil]
  | @cons kind seg rest segs htakes hrest ih =>
      have hfirst := firstMatch?_takes htakes
      by_cases hkind : kind = .other
      · subst hkind
        rw [List.filter_cons_of_neg (by simp), ← ih]
        rw [if_pos rfl] at hfirst
        cases htakes.applies with
        | other => exact findAll_of_none hfirst
      · rw [List.filter_cons_of_pos (by simpa using hkind), List.map_cons, ← ih]
        rw [if_neg hkind] at hfirst
        obtain ⟨c, body, rfl⟩ := htakes.applies.exists_cons
        exact findAll_of_match (by simp) hfirst

-- ============================================================= identifiers

/-- The identifiers of a text are the words among its segments that are not
keywords. -/
theorem ofText_eq (text : String) :
    ofText text
      = (((segments text.toList).filter fun s => s.kind = .word).map
          fun s => String.ofList s.text).filter fun name => name ∉ keywords := by
  unfold ofText
  induction segments text.toList with
  | nil => rfl
  | cons s segs ih =>
      rw [List.filterMap_cons, ih]
      by_cases hword : s.kind = .word
      · rw [List.filter_cons_of_pos (by simpa using hword), List.map_cons]
        by_cases hkeyword : String.ofList s.text ∈ keywords
        · rw [List.filter_cons_of_neg (by simpa using hkeyword)]
          simp [Segment.identifier?, hkeyword]
        · rw [List.filter_cons_of_pos (by simpa using hkeyword)]
          simp [Segment.identifier?, hword, hkeyword]
      · rw [List.filter_cons_of_neg (by simpa using hword)]
        simp [Segment.identifier?, hword]

/-- A text splits into its segments, and in no other way.

The segments are what the rules take from left to right: at each position the
first applicable one of a line comment, a block comment, a literal in double
quotes, a literal in single quotes, a word, and a single character, each as long
as its rule says. They make up the text. All but the single characters are the
matches of the token expression in the text, in order.

The identifiers of the text are the words among the segments that are not
keywords, in order and with repetitions, and so they are the words among the
matches. What stands in a comment or a literal belongs to this one segment and is
never among them. -/
theorem text_splits_one_way (text : String) :
    Splits text.toList (segments text.toList)
      ∧ (∀ segs, Splits text.toList segs → segs = segments text.toList)
      ∧ (segments text.toList).flatMap Segment.text = text.toList
      ∧ findAll tokens text.toList
        = ((segments text.toList).filter fun s => s.kind ≠ .other).map
          (fun s => (s.kind, s.text))
      ∧ ofText text
        = (((segments text.toList).filter fun s => s.kind = .word).map
          fun s => String.ofList s.text).filter (fun name => name ∉ keywords)
      ∧ ofText text
        = (((findAll tokens text.toList).filter fun m => m.1 = .word).map
          fun m => String.ofList m.2).filter (fun name => name ∉ keywords) := by
  have hsplits := splits_segments text.toList
  refine ⟨hsplits, fun segs h => h.eq_segments, hsplits.flatMap_text, hsplits.findAll_eq,
    ofText_eq text, ?_⟩
  have hwords : ((segments text.toList).filter fun s => s.kind ≠ .other).filter
      (fun s => s.kind = .word) = (segments text.toList).filter fun s => s.kind = .word := by
    rw [List.filter_filter]
    refine List.filter_congr fun s _ => ?_
    cases s.kind <;> rfl
  rw [ofText_eq, hsplits.findAll_eq]
  congr 1
  rw [List.filter_map, List.map_map, ← hwords]
  rfl

/-- A comment hides a quote, and an opening quote without its closer hides nothing. -/
example : ofText "x /* \"y */ + 'z" = ["x", "z"] := by decide +kernel

end CodeMap.Identifiers
