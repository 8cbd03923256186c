/-
What stands around an identifier that is reported.

# Behind it

A word is maximal, so no word character follows an identifier.

# Before it

The segment before an identifier is no word and no line comment, for a word would
go on and a line comment would reach further; block comments and literals end in a
slash or a quote. What is left is a single character that begins no word: a digit,
if it is a word character at all. The same holds before the digit. So the
identifier is what is left of a run of word characters behind the digits at its
beginning (`Splits.digits_before`). There is no rule for numbers, and what a number
has behind its first digits is reported as if it were a name.
-/
import CodeMap.Proofs.Identifiers.Segments

namespace CodeMap.Identifiers

-- ============================================================== vocabulary

/-- An identifier that is reported, with the text before and behind it. -/
def Reported (text : String) (before : List Char) (name : String) (after : List Char) : Prop :=
  ∃ segs s segs', segments text.toList = segs ++ s :: segs' ∧ s.identifier? = some name
    ∧ segs.flatMap Segment.text = before ∧ segs'.flatMap Segment.text = after

/-- A place between two texts where no word character touches it. -/
def WholeWord (before after : List Char) : Prop :=
  (∀ c ∈ before.getLast?, continuesWord c = false) ∧ ∀ c ∈ after.head?, continuesWord c = false

theorem Segment.identifier?_eq_some_iff {s : Segment} {name : String} :
    s.identifier? = some name ↔
      s.kind = .word ∧ name ∉ keywords ∧ name = String.ofList s.text := by
  unfold Segment.identifier?
  constructor
  · intro h
    split at h
    next hword =>
      obtain rfl := Option.some.inj h
      simpa using hword
    next => cases h
  · intro h
    obtain ⟨hkind, hname, rfl⟩ := h
    rw [if_pos (by simp [hkind, hname])]

/-- The identifiers of a text are the reported ones. -/
theorem mem_ofText_iff {text name : String} :
    name ∈ ofText text ↔ ∃ before after, Reported text before name after := by
  unfold ofText
  rw [List.mem_filterMap]
  constructor
  · intro h
    obtain ⟨s, hs, hname⟩ := h
    obtain ⟨segs, segs', hsplit⟩ := List.append_of_mem hs
    exact ⟨_, _, segs, s, segs', hsplit, hname, rfl, rfl⟩
  · intro h
    obtain ⟨before, after, segs, s, segs', hsplit, hname, -, -⟩ := h
    refine ⟨s, ?_, hname⟩
    rw [hsplit]
    exact List.mem_append_right _ List.mem_cons_self

-- ================================================================ segments

theorem Splits.of_append {text : List Char} {segs segs' : List Segment}
    (h : Splits text (segs ++ segs')) :
    ∃ rest, text = segs.flatMap Segment.text ++ rest ∧ Splits rest segs' := by
  induction segs generalizing text with
  | nil => exact ⟨text, rfl, h⟩
  | cons s segs ih =>
      cases h with
      | @cons kind seg rest _ htakes hrest =>
          obtain ⟨rest', rfl, hrest'⟩ := ih hrest
          refine ⟨rest', ?_, hrest'⟩
          rw [List.flatMap_cons, List.append_assoc]

/-- A character that begins a word is no segment of its own. -/
theorem Takes.not_startsWord {c : Char} {rest : List Char} (h : Takes .other [c] rest) :
    startsWord c = false := by
  refine Bool.eq_false_iff.mpr fun hc => ?_
  obtain ⟨rest', hsplit, hbody, hrest⟩ := exists_run continuesWord rest
  have hrank := h.first (congrArg (c :: ·) hsplit.symm) (.word hc hbody hrest)
  exact absurd hrank (by decide)

/-- A segment before a word character is a digit, or ends in no word character. -/
theorem Takes.before_word {kind : SegmentKind} {seg rest : List Char} (h : Takes kind seg rest)
    {c : Char} (hc : c ∈ rest.head?) (hword : continuesWord c = true) :
    (∃ d, seg = [d] ∧ '0' ≤ d ∧ d ≤ '9') ∨ ∀ d ∈ seg.getLast?, continuesWord d = false := by
  have hfeed : c ≠ '\n' := fun hfeed => by
    rw [hfeed] at hword
    exact absurd hword (by decide)
  have hends : ∀ front d, seg = front ++ [d] → continuesWord d = false →
      ∀ e ∈ seg.getLast?, continuesWord e = false := by
    rintro front d rfl hd e he
    rw [List.getLast?_concat] at he
    rw [← Option.some.inj he]
    exact hd
  cases h.applies with
  | slashes hbody hrest => exact absurd (hrest c hc) hfeed
  | hash hbody hrest => exact absurd (hrest c hc) hfeed
  | @block body => exact .inr (hends ('/' :: '*' :: (body ++ ['*'])) '/' (by simp) (by decide))
  | @doubleQuoted body => exact .inr (hends ('"' :: body) '"' rfl (by decide))
  | @singleQuoted body => exact .inr (hends ('\'' :: body) '\'' rfl (by decide))
  | word hstart hbody hrest =>
      rw [hrest c hc] at hword
      cases hword
  | @other d =>
      cases hd : continuesWord d with
      | false => exact .inr (hends [] d rfl hd)
      | true =>
          rw [continuesWord, h.not_startsWord, Bool.false_or, Bool.and_eq_true] at hd
          exact .inl ⟨d, rfl, of_decide_eq_true hd.1, of_decide_eq_true hd.2⟩

theorem continuesWord_of_digit {d : Char} (h : '0' ≤ d ∧ d ≤ '9') : continuesWord d = true := by
  rw [continuesWord, decide_eq_true h.1, decide_eq_true h.2, Bool.and_self, Bool.or_true]

/-- What stands before a segment that begins with a word character: a text that does
not end in one, and digits. -/
theorem Splits.digits_before {text : List Char} {segs segs' : List Segment}
    (h : Splits text (segs ++ segs')) {c : Char}
    (hc : c ∈ (segs'.flatMap Segment.text).head?) (hword : continuesWord c = true) :
    ∃ front digits, segs.flatMap Segment.text = front ++ digits
      ∧ (∀ d ∈ front.getLast?, continuesWord d = false) ∧ ∀ d ∈ digits, '0' ≤ d ∧ d ≤ '9' := by
  induction segs using List.reverseRecOn generalizing segs' c with
  | nil => exact ⟨[], [], rfl, by simp, by simp⟩
  | append_singleton segs s ih =>
      rw [List.append_assoc, List.singleton_append] at h
      rw [List.flatMap_append, List.flatMap_singleton]
      obtain ⟨rest, -, hrest⟩ := h.of_append
      cases hrest with
      | @cons kind seg rest _ htakes hrest =>
          rw [hrest.flatMap_text] at hc
          rcases htakes.before_word hc hword with ⟨d, rfl, hd⟩ | hlast
          · obtain ⟨front, digits, hsegs, hfront, hdigits⟩ := ih h rfl (continuesWord_of_digit hd)
            refine ⟨front, digits ++ [d], ?_, hfront, ?_⟩
            · rw [hsegs, List.append_assoc]
            · exact List.forall_mem_append.mpr ⟨hdigits, List.forall_mem_singleton.mpr hd⟩
          · refine ⟨segs.flatMap Segment.text ++ seg, [], (List.append_nil _).symm, ?_, by simp⟩
            intro d hd
            obtain ⟨a, body, rfl⟩ := htakes.applies.exists_cons
            rw [List.getLast?_append_of_ne_nil _ (List.cons_ne_nil a body)] at hd
            exact hlast d hd

-- ============================================================= identifiers

/-- A reported identifier is a run of word characters less the digits at its
beginning.

No word character follows it. Before it there may be digits, and what stands before
those does not end in a word character. So it is a whole word if and only if there
are no digits. -/
theorem identifier_lacks_only_digits {text : String} {before after : List Char} {name : String}
    (h : Reported text before name after) :
    name ∈ ofText text
      ∧ text.toList = before ++ name.toList ++ after
      ∧ (∀ c ∈ name.toList, continuesWord c = true)
      ∧ (∀ c ∈ after.head?, continuesWord c = false)
      ∧ ∃ front digits, before = front ++ digits
        ∧ (∀ c ∈ front.getLast?, continuesWord c = false)
        ∧ (∀ c ∈ digits, '0' ≤ c ∧ c ≤ '9')
        ∧ (WholeWord before after ↔ digits = []) := by
  have hmem := mem_ofText_iff.mpr ⟨before, after, h⟩
  obtain ⟨segs, s, segs', hsegments, hname, rfl, rfl⟩ := h
  obtain ⟨hkind, -, rfl⟩ := Segment.identifier?_eq_some_iff.mp hname
  have hsplits := splits_segments text.toList
  rw [hsegments] at hsplits
  obtain ⟨rest, htext, hrest⟩ := hsplits.of_append
  rw [hrest.flatMap_text.symm] at htext
  cases hrest with
  | @cons kind seg rest _ htakes hrest =>
      obtain rfl : kind = .word := hkind
      rw [← hrest.flatMap_text] at htakes
      cases htakes.applies with
      | @word c body _ hstart hbody hafter =>
          have hc : continuesWord c = true := by rw [continuesWord, hstart, Bool.true_or]
          obtain ⟨front, digits, hbefore, hfront, hdigits⟩ := hsplits.digits_before rfl hc
          refine ⟨hmem, ?_, ?_, hafter, front, digits, hbefore, hfront, hdigits, ?_⟩
          · rw [String.toList_ofList, List.append_assoc]
            exact htext
          · rw [String.toList_ofList]
            exact List.forall_mem_cons.mpr ⟨hc, hbody⟩
          · unfold WholeWord
            rw [hbefore]
            constructor
            · intro h
              obtain ⟨hleft, -⟩ := h
              rcases List.eq_nil_or_concat digits with rfl | ⟨digits, d, rfl⟩
              · rfl
              · have hd := hleft d (by simp)
                rw [continuesWord_of_digit (hdigits d (by simp))] at hd
                cases hd
            · rintro rfl
              rw [List.append_nil]
              exact ⟨hfront, hafter⟩

/-- A hexadecimal number, read as a digit and a word. -/
theorem reported_hexadecimal :
    Reported "n = 0x1F;" "n = 0".toList "x1F" ";".toList :=
  ⟨(segments "n = 0x1F;".toList).take 5, ⟨.word, "x1F".toList⟩, [⟨.other, [';']⟩],
    by decide +kernel, by decide +kernel, by decide +kernel, rfl⟩

/-- The name that is read from the number follows the digit `0`. -/
theorem hexadecimal_lacks_its_digit :
    Reported "n = 0x1F;" "n = 0".toList "x1F" ";".toList
      ∧ ∃ front digits, "n = 0".toList = front ++ digits ∧ digits ≠ [] ∧
        ∀ c ∈ digits, '0' ≤ c ∧ c ≤ '9' := by
  obtain ⟨-, -, -, -, front, digits, hbefore, hfront, hdigits, -⟩ :=
    identifier_lacks_only_digits reported_hexadecimal
  refine ⟨reported_hexadecimal, front, digits, hbefore, fun hnil => ?_, hdigits⟩
  rw [hnil, List.append_nil] at hbefore
  have hzero := hfront '0' (by rw [← hbefore]; decide +kernel)
  exact absurd hzero (by decide)

/-- Not every identifier that is reported is a whole word: a number leaves its end. -/
theorem number_end_is_reported :
    ofText "n = 0x1F;" = ["n", "x1F"]
      ∧ ¬ ∀ text before name after, Reported text before name after → WholeWord before after := by
  refine ⟨by decide +kernel, fun hwhole => ?_⟩
  have hzero := (hwhole _ _ _ _ reported_hexadecimal).1 '0' (by decide +kernel)
  exact absurd hzero (by decide)

end CodeMap.Identifiers
