/-
Texts compared by their bytes.

The library compares texts character by character, a database compares the
bytes of their UTF-8 form. The two orders are one (`compare_bytes`).

All of it rests on single characters (`compare_encoded_of_lt`): the bytes of
two different characters differ somewhere, and at the first such place the
earlier character has the smaller byte, so that what follows is not looked at.
A character of more bytes starts with a larger one. In a character of several
bytes every byte after the first holds six binary digits, so among characters
of equally many bytes the bytes are read like the digits of a number.
-/
import Mathlib.Data.List.Basic
import Mathlib.Order.Basic

namespace CodeMap.Text

open Std
open String (utf8EncodeChar)

/-- The UTF-8 form of a text. -/
def bytes (text : String) : List UInt8 := text.toUTF8.data.toList

/-- A text in bytes is its characters in bytes, one after the other. -/
theorem bytes_eq_flatMap (text : String) : bytes text = text.toList.flatMap utf8EncodeChar := by
  rw [bytes, String.toUTF8_eq_toByteArray, ← String.utf8Encode_toList]
  simp [List.utf8Encode]

-- =============================================================== characters

/-- The first byte decides, and the rest if the first bytes are equal. -/
theorem compare_cons_eq_lt_iff {a b : UInt8} {as bs : List UInt8} :
    compare (a :: as) (b :: bs) = .lt ↔
      a.toNat < b.toNat ∨ a.toNat = b.toNat ∧ compare as bs = .lt := by
  rw [List.compare_cons_cons, Ordering.then_eq_lt, Std.compare_eq_lt, Std.compare_eq_iff_eq,
    UInt8.lt_iff_toNat_lt, UInt8.toNat_inj]

/-- Equal bytes in front do not matter. -/
theorem compare_append_left (front as bs : List UInt8) :
    compare (front ++ as) (front ++ bs) = compare as bs := by
  induction front with
  | nil => rfl
  | cons a front ih =>
      rw [List.cons_append, List.cons_append, List.compare_cons_cons, ReflOrd.compare_self, ih]
      rfl

theorem code_lt (c : Char) : c.val.toNat < 0x110000 := by
  have h : c.val.toNat.isValidChar := c.valid
  unfold Nat.isValidChar at h
  omega

/-- Of two characters, the earlier one has the earlier bytes, whatever follows
them. -/
theorem compare_encoded_of_lt {c d : Char} (h : c < d) (as bs : List UInt8) :
    compare (utf8EncodeChar c ++ as) (utf8EncodeChar d ++ bs) = .lt := by
  have hlt : c.val.toNat < d.val.toNat := h
  have hd := code_lt d
  unfold utf8EncodeChar
  dsimp only
  generalize c.val.toNat = m at *
  generalize d.val.toNat = n at *
  have hdigits : ∀ k, k / 4096 = k / 64 / 64 ∧ k / 262144 = k / 64 / 64 / 64 := by
    intro k
    omega
  rw [(hdigits m).1, (hdigits m).2, (hdigits n).1, (hdigits n).2]
  -- the first digit that differs decides
  have hdecide : ∀ k l : Nat, k < l → k / 64 < l / 64 ∨ k / 64 = l / 64 ∧ k % 64 < l % 64 := by
    intro k l
    omega
  have hlast := hdecide m n hlt
  have hmiddle := hdecide (m / 64) (n / 64)
  have hfirst := hdecide (m / 64 / 64) (n / 64 / 64)
  -- one case for each two numbers of bytes
  repeat' split
  all_goals
    simp only [List.cons_append, compare_cons_eq_lt_iff, UInt8.toNat_ofNat']
    omega

-- ==================================================================== texts

/-- The first character that differs decides, by the bytes that it begins with. -/
theorem compare_flatMap_of_lt {as bs : List Char} (h : as < bs) :
    compare (as.flatMap utf8EncodeChar) (bs.flatMap utf8EncodeChar) = .lt := by
  induction as generalizing bs with
  | nil =>
      cases bs with
      | nil => cases h
      | cons b bs =>
          rw [List.flatMap_cons]
          cases hb : utf8EncodeChar b with
          | nil => exact absurd hb String.utf8EncodeChar_ne_nil
          | cons x xs => rfl
  | cons a as ih =>
      cases bs with
      | nil => cases h
      | cons b bs =>
          rw [List.flatMap_cons, List.flatMap_cons]
          rcases List.cons_lt_cons_iff.mp h with hlt | ⟨rfl, hlt⟩
          · exact compare_encoded_of_lt hlt _ _
          · rw [compare_append_left]
            exact ih hlt

theorem compare_bytes_of_lt {a b : String} (h : a < b) : compare (bytes a) (bytes b) = .lt := by
  rw [bytes_eq_flatMap, bytes_eq_flatMap]
  exact compare_flatMap_of_lt h

/-- Comparing texts is comparing their bytes. -/
theorem compare_bytes (a b : String) : compare (bytes a) (bytes b) = compare a b := by
  cases h : compare a b with
  | lt => exact compare_bytes_of_lt (compareOfLessAndEq_eq_lt.mp h)
  | eq => rw [LawfulEqOrd.eq_of_compare h, ReflOrd.compare_self]
  | gt =>
      rw [OrientedOrd.eq_swap, Ordering.swap_eq_gt] at h ⊢
      exact compare_bytes_of_lt (compareOfLessAndEq_eq_lt.mp h)

end CodeMap.Text
