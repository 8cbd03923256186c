/-
Ranges of source rows. Rows are counted from zero inside the library and
from one wherever a range is printed.

A range always holds at least one row: `LineSpan.of` lifts an end that lies
before its start up to the start, and the order of the two ends is a field of
the type, so no operation has to look at a range that runs backwards.
-/
namespace CodeMap

/-- The rows `first`, ..., `last` of a file, both included. -/
structure LineSpan where
  first : Nat
  last : Nat
  ordered : first ≤ last
  deriving DecidableEq, Repr

namespace LineSpan

/-- The rows from `a` to `b`; an end before the start is lifted to the start. -/
def of (a b : Nat) : LineSpan := ⟨a, max a b, Nat.le_max_left a b⟩

/-- How many rows the range holds. -/
def length (s : LineSpan) : Nat := s.last - s.first + 1

/-- Whether a row lies in the range. -/
def contains (s : LineSpan) (row : Nat) : Bool := s.first ≤ row && row ≤ s.last

/-- Whether every row of `t` lies in `s`. -/
def encloses (s t : LineSpan) : Bool := s.first ≤ t.first && t.last ≤ s.last

/-- The range in print: both ends counted from one. -/
def display (s : LineSpan) : String :=
  toString (s.first + 1) ++ "-" ++ toString (s.last + 1)

instance : Inhabited LineSpan := ⟨of 0 0⟩

@[simp] theorem first_of (a b : Nat) : (of a b).first = a := rfl

@[simp] theorem last_of (a b : Nat) : (of a b).last = max a b := rfl

theorem length_pos (s : LineSpan) : 0 < s.length := Nat.succ_pos _

theorem contains_iff {s : LineSpan} {row : Nat} :
    s.contains row = true ↔ s.first ≤ row ∧ row ≤ s.last := by
  simp [contains]

theorem encloses_iff {s t : LineSpan} :
    s.encloses t = true ↔ s.first ≤ t.first ∧ t.last ≤ s.last := by
  simp [encloses]

end LineSpan

end CodeMap
