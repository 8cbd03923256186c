/-
The lines of a text that is put together from pieces.

If every piece ends its last line, the lines of the whole are the lines of the
pieces one after the other (`lines_append`), and pieces that are one line each
can be told apart (`wholeLines_join`). For a piece that does not, only the line
that is still open depends on what follows (`splitAfterLineFeed_open`).
-/
import CodeMap.Text.Lines

namespace CodeMap.Text

/-- The text ends where a line ends. -/
def Ended (s : String) : Prop := s = "" ∨ ∃ a, s = a ++ "\n"

namespace Ended

variable {a b : String}

theorem empty : Ended "" := .inl rfl

theorem line (a : String) : Ended (a ++ "\n") := .inr ⟨a, rfl⟩

theorem append (ha : Ended a) (hb : Ended b) : Ended (a ++ b) := by
  rcases hb with rfl | ⟨b, rfl⟩
  · rw [String.append_empty]
    exact ha
  · rw [← String.append_assoc]
    exact .line (a ++ b)

end Ended

-- ================================================================ splitting

theorem splitAfterLineFeed_cons {c : Char} (h : c ≠ '\n') (rest : List Char) :
    splitAfterLineFeed (c :: rest)
      = match splitAfterLineFeed rest with
        | [] => [[c]]
        | line :: lines => (c :: line) :: lines :=
  splitAfterLineFeed.eq_3 c rest h

/-- A line feed is the end of a line, whatever follows. -/
theorem splitAfterLineFeed_append (a b : List Char) :
    splitAfterLineFeed (a ++ '\n' :: b)
      = splitAfterLineFeed (a ++ ['\n']) ++ splitAfterLineFeed b := by
  induction a with
  | nil => rfl
  | cons c a ih =>
      rw [List.cons_append, List.cons_append]
      by_cases hc : c = '\n'
      · subst hc
        rw [splitAfterLineFeed, splitAfterLineFeed, ih, List.cons_append]
      · rw [splitAfterLineFeed_cons hc, splitAfterLineFeed_cons hc, ih]
        cases hfirst : splitAfterLineFeed (a ++ ['\n']) with
        | nil =>
            -- a text with a line feed has a line
            cases a with
            | nil => cases hfirst
            | cons c' a =>
                by_cases hc' : c' = '\n'
                · subst hc'
                  cases hfirst
                · rw [List.cons_append, splitAfterLineFeed_cons hc'] at hfirst
                  split at hfirst <;> cases hfirst
        | cons line lines => rfl

/-- What holds no line feed is one line once it has one at its end. -/
theorem splitAfterLineFeed_line {line : List Char} (h : '\n' ∉ line) :
    splitAfterLineFeed (line ++ ['\n']) = [line ++ ['\n']] := by
  induction line with
  | nil => rfl
  | cons c line ih =>
      obtain ⟨hc, hline⟩ := List.ne_and_not_mem_of_not_mem_cons h
      rw [List.cons_append, splitAfterLineFeed_cons hc.symm, ih hline]

/-- All lines of a text but its last one are the same whatever follows in the
last line. -/
theorem splitAfterLineFeed_open (a : List Char) :
    ∃ front line, ∀ t, '\n' ∉ t →
      splitAfterLineFeed (a ++ t ++ ['\n']) = front ++ [line ++ t ++ ['\n']] := by
  induction a with
  | nil => exact ⟨[], [], fun t ht => splitAfterLineFeed_line ht⟩
  | cons c a ih =>
      obtain ⟨front, line, h⟩ := ih
      by_cases hc : c = '\n'
      · subst hc
        refine ⟨['\n'] :: front, line, fun t ht => ?_⟩
        rw [List.cons_append, List.cons_append, splitAfterLineFeed, h t ht, List.cons_append]
      · cases front with
        | nil =>
            refine ⟨[], c :: line, fun t ht => ?_⟩
            rw [List.cons_append, List.cons_append, splitAfterLineFeed_cons hc, h t ht]
            rfl
        | cons first front =>
            refine ⟨(c :: first) :: front, line, fun t ht => ?_⟩
            rw [List.cons_append, List.cons_append, splitAfterLineFeed_cons hc, h t ht]
            rfl

/-- A piece of a text holds no line feed but the one that ends it. -/
theorem exists_body_of_mem_split {cs line : List Char} (h : line ∈ splitAfterLineFeed cs) :
    ∃ body, '\n' ∉ body ∧ (line = body ∨ line = body ++ ['\n']) := by
  induction cs generalizing line with
  | nil => cases h
  | cons c cs ih =>
      by_cases hc : c = '\n'
      · subst hc
        rcases List.mem_cons.mp h with rfl | h
        · exact ⟨[], List.not_mem_nil, .inr rfl⟩
        · exact ih h
      · rw [splitAfterLineFeed_cons hc] at h
        cases hrest : splitAfterLineFeed cs with
        | nil =>
            rw [hrest] at h
            exact ⟨[c], by simpa using Ne.symm hc, .inl (List.mem_singleton.mp h)⟩
        | cons first lines =>
            rw [hrest] at h ih
            rcases List.mem_cons.mp h with rfl | h
            · obtain ⟨body, hbody, hfirst⟩ := ih List.mem_cons_self
              refine ⟨c :: body, List.not_mem_cons_of_ne_of_not_mem (Ne.symm hc) hbody, ?_⟩
              rcases hfirst with rfl | rfl
              · exact .inl rfl
              · exact .inr rfl
            · exact ih (List.mem_cons_of_mem first h)

/-- A line keeps all its characters but those of its ending. -/
theorem prefix_withoutEnding (line : List Char) : withoutEnding (line ++ ['\n']) <+: line := by
  have hback : (line ++ ['\n']).reverse = '\n' :: line.reverse := List.reverse_append
  unfold withoutEnding
  rw [hback]
  split
  next body h =>
    refine ⟨['\r'], ?_⟩
    rw [← List.reverse_cons, ← List.reverse_inj, List.reverse_reverse]
    exact (List.tail_eq_of_cons_eq h).symm
  next body _ h =>
    refine ⟨[], ?_⟩
    rw [List.append_nil, ← List.tail_eq_of_cons_eq h, List.reverse_reverse]
  next hother => exact absurd rfl (hother line.reverse)

/-- Only a carriage return belongs to a line feed that follows it. -/
theorem withoutEnding_of_ne {c : Char} (h : c ≠ '\r') (line : List Char) :
    withoutEnding (line ++ [c, '\n']) = line ++ [c] := by
  have hback : (line ++ [c, '\n']).reverse = '\n' :: c :: line.reverse := List.reverse_append
  unfold withoutEnding
  rw [hback]
  split
  next body heq => cases heq; exact absurd rfl h
  next body hother heq =>
    cases heq
    rw [List.reverse_cons, List.reverse_reverse]
  next hother => exact absurd rfl (hother _)

/-- Without a line feed at its end a line is all text. -/
theorem withoutEnding_of_open {line : List Char} (h : '\n' ∉ line) : withoutEnding line = line := by
  have hback : '\n' ∉ line.reverse := by rwa [List.mem_reverse]
  unfold withoutEnding
  split
  next heq => exact absurd (heq ▸ List.mem_cons_self) hback
  next heq => exact absurd (heq ▸ List.mem_cons_self) hback
  next => rfl

-- ==================================================================== lines

/-- A line holds no line feed. -/
theorem lineFeed_not_mem_of_mem_lines {s line : String} (h : line ∈ lines s) :
    '\n' ∉ line.toList := by
  obtain ⟨piece, hpiece, rfl⟩ := List.mem_map.mp h
  obtain ⟨body, hbody, rfl | rfl⟩ := exists_body_of_mem_split hpiece
  · rwa [String.toList_ofList, withoutEnding_of_open hbody]
  · rw [String.toList_ofList]
    exact fun hmem => hbody ((prefix_withoutEnding body).subset hmem)

/-- Lines of pieces that end with a line. -/
theorem lines_append {a : String} (h : Ended a) (b : String) :
    lines (a ++ b) = lines a ++ lines b := by
  rcases h with rfl | ⟨a, rfl⟩
  · rw [String.empty_append]
    rfl
  · unfold lines
    have hline : (a ++ "\n" ++ b).toList = a.toList ++ '\n' :: b.toList := by
      simp [String.toList_append]
    rw [hline, splitAfterLineFeed_append, List.map_append, String.toList_append]
    rfl

-- ============================================================== whole lines

/-- The lines of a text, each with its ending. -/
def wholeLines (s : String) : List String := (splitAfterLineFeed s.toList).map String.ofList

/-- The text is one line with its ending. -/
def IsLine (s : String) : Prop := ∃ a : String, '\n' ∉ a.toList ∧ s = a ++ "\n"

/-- Lines that are put together can be told apart. -/
theorem wholeLines_join {texts : List String} (h : ∀ t ∈ texts, IsLine t) :
    wholeLines (String.join texts) = texts := by
  induction texts with
  | nil => rfl
  | cons t rest ih =>
      obtain ⟨a, ha, rfl⟩ := h t List.mem_cons_self
      have hline : (String.join ((a ++ "\n") :: rest)).toList
          = a.toList ++ '\n' :: (String.join rest).toList := by
        simp [String.join_cons, String.toList_append]
      have hrest := ih fun t' ht' => h t' (List.mem_cons_of_mem _ ht')
      unfold wholeLines at hrest ⊢
      have hfirst : String.ofList (a.toList ++ ['\n']) = a ++ "\n" := by
        simp [String.ofList_append]
      rw [hline, splitAfterLineFeed_append, splitAfterLineFeed_line ha, List.map_append, hrest,
        List.map_singleton, hfirst, List.singleton_append]

end CodeMap.Text
