/-
Slices of a text by bytes.

A slice exists wherever both ends are boundaries of characters, in this order
(`exists_slice`), and it is the text between them (`slice?_eq_some_iff`). Bytes
are counted as the standard library counts them.
-/
import CodeMap.Text.Lines
import Mathlib.Data.List.Infix
import Mathlib.Data.String.Basic

namespace CodeMap.Text

open String (utf8Len utf8Len_cons utf8Len_append utf8Len_eq_zero)

-- ============================================================== characters

/-- Dropping bytes leaves what stands behind that many bytes. -/
theorem dropBytes_eq_some_iff {n : Nat} {cs rest : List Char} :
    dropBytes n cs = some rest ↔ ∃ front, cs = front ++ rest ∧ utf8Len front = n := by
  induction cs generalizing n with
  | nil =>
      cases n with
      | zero => simp [dropBytes, eq_comm]
      | succ n => simp [dropBytes]
  | cons c cs ih =>
      have hpos := c.utf8Size_pos
      cases n with
      | zero =>
          rw [dropBytes, Option.some.injEq]
          constructor
          · rintro rfl
            exact ⟨[], rfl, rfl⟩
          · intro h
            obtain ⟨front, hsplit, hlen⟩ := h
            rw [utf8Len_eq_zero.mp hlen] at hsplit
            exact hsplit
      | succ n =>
          rw [dropBytes]
          constructor
          · intro h
            split at h
            · obtain ⟨front, rfl, hlen⟩ := ih.mp h
              refine ⟨c :: front, rfl, ?_⟩
              rw [utf8Len_cons]
              omega
            · cases h
          · intro h
            obtain ⟨front, hsplit, hlen⟩ := h
            cases front with
            | nil => cases hlen
            | cons d front =>
                obtain ⟨rfl, htail⟩ := List.cons.inj hsplit
                rw [utf8Len_cons] at hlen
                rw [if_pos (by omega)]
                exact ih.mpr ⟨front, htail, by omega⟩

/-- Taking bytes leaves what stands before the rest. -/
theorem takeBytes_eq_some_iff {n : Nat} {cs front : List Char} :
    takeBytes n cs = some front ↔ ∃ rest, cs = front ++ rest ∧ utf8Len front = n := by
  induction cs generalizing n front with
  | nil =>
      cases n with
      | zero =>
          rw [takeBytes, Option.some.injEq]
          constructor
          · rintro rfl
            exact ⟨[], rfl, rfl⟩
          · intro h
            obtain ⟨rest, hsplit, -⟩ := h
            exact (List.nil_eq_append_iff.mp hsplit).1.symm
      | succ n =>
          constructor
          · intro h
            cases h
          · intro h
            obtain ⟨rest, hsplit, hlen⟩ := h
            rw [(List.nil_eq_append_iff.mp hsplit).1] at hlen
            cases hlen
  | cons c cs ih =>
      have hpos := c.utf8Size_pos
      cases n with
      | zero =>
          rw [takeBytes, Option.some.injEq]
          constructor
          · rintro rfl
            exact ⟨c :: cs, rfl, rfl⟩
          · intro h
            obtain ⟨rest, -, hlen⟩ := h
            exact (utf8Len_eq_zero.mp hlen).symm
      | succ n =>
          rw [takeBytes]
          constructor
          · intro h
            split at h
            · obtain ⟨front', hfront, rfl⟩ := Option.map_eq_some_iff.mp h
              obtain ⟨rest, rfl, hlen⟩ := ih.mp hfront
              refine ⟨rest, rfl, ?_⟩
              rw [utf8Len_cons]
              omega
            · cases h
          · intro h
            obtain ⟨rest, hsplit, hlen⟩ := h
            cases front with
            | nil => cases hlen
            | cons d front =>
                obtain ⟨rfl, htail⟩ := List.cons.inj hsplit
                rw [utf8Len_cons] at hlen
                rw [if_pos (by omega)]
                exact Option.map_eq_some_iff.mpr ⟨front, ih.mpr ⟨rest, htail, by omega⟩, rfl⟩

-- ==================================================================== texts

/-- A byte offset between two characters, or at either end of a text. -/
def OnBoundary (s : String) (byte : Nat) : Prop := (⟨byte⟩ : String.Pos.Raw).IsValid s

theorem utf8Len_toList (s : String) : utf8Len s.toList = s.utf8ByteSize := by
  rw [← String.utf8ByteSize_ofList, String.ofList_toList]

theorem onBoundary_iff {s : String} {byte : Nat} :
    OnBoundary s byte ↔ ∃ front rest, s.toList = front ++ rest ∧ utf8Len front = byte := by
  unfold OnBoundary
  rw [String.Pos.Raw.isValid_iff_exists_append]
  constructor
  · intro h
    obtain ⟨before, after, rfl, hbyte⟩ := h
    refine ⟨before.toList, after.toList, String.toList_append, ?_⟩
    rw [utf8Len_toList]
    exact (congrArg String.Pos.Raw.byteIdx hbyte).symm
  · intro h
    obtain ⟨front, rest, hsplit, rfl⟩ := h
    refine ⟨String.ofList front, String.ofList rest, ?_, ?_⟩
    · rw [← String.ofList_append, ← hsplit, String.ofList_toList]
    · rw [String.Pos.Raw.ext_iff]
      exact (String.utf8ByteSize_ofList front).symm

/-- A slice is the text between two byte offsets. -/
theorem slice?_eq_some_iff {s t : String} {start stop : Nat} :
    slice? s start stop = some t ↔ ∃ before after, s = before ++ t ++ after
      ∧ before.utf8ByteSize = start ∧ start + t.utf8ByteSize = stop := by
  unfold slice?
  constructor
  · intro h
    split at h
    next hle =>
      obtain ⟨cs, hdrop, h⟩ := Option.bind_eq_some_iff.mp h
      obtain ⟨middle, htake, rfl⟩ := Option.map_eq_some_iff.mp h
      obtain ⟨front, hs, rfl⟩ := dropBytes_eq_some_iff.mp hdrop
      obtain ⟨rest, rfl, hlen⟩ := takeBytes_eq_some_iff.mp htake
      refine ⟨String.ofList front, String.ofList rest, ?_, String.utf8ByteSize_ofList front, ?_⟩
      · rw [← String.ofList_append, ← String.ofList_append, List.append_assoc, ← hs,
          String.ofList_toList]
      · rw [String.utf8ByteSize_ofList, hlen]
        omega
    next => cases h
  · intro h
    obtain ⟨before, after, rfl, rfl, rfl⟩ := h
    rw [if_pos (Nat.le_add_right _ _)]
    refine Option.bind_eq_some_iff.mpr ⟨t.toList ++ after.toList, ?_, ?_⟩
    · refine dropBytes_eq_some_iff.mpr ⟨before.toList, ?_, utf8Len_toList before⟩
      rw [String.toList_append, String.toList_append, List.append_assoc]
    · refine Option.map_eq_some_iff.mpr ⟨t.toList, ?_, String.ofList_toList⟩
      refine takeBytes_eq_some_iff.mpr ⟨after.toList, rfl, ?_⟩
      rw [utf8Len_toList]
      omega

/-- Between two boundaries there is a slice. -/
theorem exists_slice {s : String} {start stop : Nat} (hle : start ≤ stop)
    (hstart : OnBoundary s start) (hstop : OnBoundary s stop) :
    ∃ t, slice? s start stop = some t := by
  obtain ⟨front, rest, hs, rfl⟩ := onBoundary_iff.mp hstart
  obtain ⟨front', rest', hs', rfl⟩ := onBoundary_iff.mp hstop
  -- of two beginnings of a text the one with fewer bytes comes first
  have hprefix : front <+: front' := by
    refine (List.prefix_or_prefix_of_prefix ⟨rest, hs.symm⟩ ⟨rest', hs'.symm⟩).elim id ?_
    intro h
    obtain ⟨more, rfl⟩ := h
    rw [utf8Len_append] at hle
    rw [utf8Len_eq_zero.mp (by omega : utf8Len more = 0), List.append_nil]
  obtain ⟨middle, rfl⟩ := hprefix
  refine ⟨String.ofList middle, slice?_eq_some_iff.mpr
    ⟨String.ofList front, String.ofList rest', ?_, String.utf8ByteSize_ofList front, ?_⟩⟩
  · rw [← String.ofList_append, ← String.ofList_append, ← hs', String.ofList_toList]
  · rw [String.utf8ByteSize_ofList, utf8Len_append]

end CodeMap.Text
