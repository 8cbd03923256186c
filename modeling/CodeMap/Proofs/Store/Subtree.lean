/-
The rows at or below a path.

A database finds the files below `top` by a range of bytes: from `top/` on, and
before `top0`. The range is the subtree because no character lies between `/`
and `0`. A text in the range cannot leave `top` behind at any of its characters,
and what comes next is no earlier than `/` and before `0` (`mem_range_iff`).
That texts are compared character by character here and byte by byte there makes
no difference (`compare_bytes`).

The question is answered about the path without the slashes at its end
(`stripsTo_trimSlashes`), so a directory may be given with them or without.
-/
import CodeMap.Proofs.Order
import CodeMap.Proofs.Text.ByteOrder
import Mathlib.Data.List.DropRight

namespace CodeMap

open Std Text

-- ==================================================================== range

/-- What is not before `/` and is before `0` is `/`. -/
theorem eq_slash_iff {c : Char} : ¬ c < '/' ∧ c < '0' ↔ c = '/' := by
  constructor
  · rintro ⟨hslash, hzero⟩
    have hlow : '/'.toNat ≤ c.toNat := Nat.le_of_not_lt hslash
    have hhigh : c.toNat < '0'.toNat := hzero
    have hcode : c.toNat = '/'.toNat := Nat.le_antisymm (Nat.le_of_lt_succ hhigh) hlow
    exact Char.toNat_inj.mp hcode
  · rintro rfl
    decide

/-- From `top/` on and before `top0` is what continues `top/`. -/
theorem mem_range_iff (top file : List Char) :
    ¬ file < top ++ ['/'] ∧ file < top ++ ['0'] ↔ top ++ ['/'] <+: file := by
  induction top generalizing file with
  | nil =>
      cases file with
      | nil => simp
      | cons c file =>
          have hnil : ¬ file < [] := List.not_lt_nil file
          simp only [List.nil_append, List.cons_lt_cons_iff, hnil, and_false, or_false,
            eq_slash_iff, List.cons_prefix_cons, List.nil_prefix, and_true, eq_comm]
  | cons t top ih =>
      cases file with
      | nil => simp
      | cons c file =>
          rw [List.cons_append, List.cons_append, List.cons_lt_cons_iff, List.cons_lt_cons_iff,
            List.cons_prefix_cons, ← ih file]
          by_cases hct : c = t
          · subst hct
            simp
          · -- the first character already decides on which side the text is
            simp only [hct, Ne.symm hct, false_and, or_false, iff_false]
            exact fun h => h.1 h.2

namespace Store

/-- The range of a search is one of bytes. -/
theorem atOrBelow_iff_bytes (top file : String) :
    atOrBelow top file = true ↔ file = top ∨ compare (bytes file) (bytes (top ++ "/")) ≠ .lt
      ∧ compare (bytes file) (bytes (top ++ "0")) = .lt := by
  have hlt : ∀ a b : String, compare (bytes a) (bytes b) = .lt ↔ a < b := fun a b => by
    rw [compare_bytes]
    exact compareOfLessAndEq_eq_lt
  have hle : top ++ "/" ≤ file ↔ ¬ file < top ++ "/" := Iff.rfl
  rw [ne_eq, hlt, hlt, ← hle]
  simp only [atOrBelow, Bool.or_eq_true, Bool.and_eq_true, beq_iff_eq, decide_eq_true_eq]

theorem atOrBelow_iff (top file : String) :
    atOrBelow top file = true ↔ file = top ∨ (top ++ "/").toList <+: file.toList := by
  have hslash : (top ++ "/").toList = top.toList ++ ['/'] := String.toList_append
  have hzero : (top ++ "0").toList = top.toList ++ ['0'] := String.toList_append
  have hrange : top ++ "/" ≤ file ∧ file < top ++ "0" ↔
      ¬ file.toList < (top ++ "/").toList ∧ file.toList < (top ++ "0").toList := Iff.rfl
  rw [hslash, hzero, mem_range_iff, ← hslash] at hrange
  simp only [atOrBelow, Bool.or_eq_true, Bool.and_eq_true, beq_iff_eq, decide_eq_true_eq, hrange]

-- ================================================================== subtree

/-- A path is a text with some slashes after it, and the text does not end with
one. -/
structure StripsTo (path top : String) : Prop where
  slashes : ∃ n, path.toList = top.toList ++ List.replicate n '/'
  last : top.toList.getLast? ≠ some '/'

theorem stripsTo_trimSlashes (path : String) : StripsTo path (trimSlashes path) := by
  have htop : (trimSlashes path).toList = path.toList.rdropWhile (· = '/') :=
    String.toList_ofList
  refine ⟨⟨(path.toList.rtakeWhile (· = '/')).length, ?_⟩, ?_⟩
  · have hslashes : path.toList.rtakeWhile (· = '/')
        = List.replicate (path.toList.rtakeWhile (· = '/')).length '/' := by
      refine List.eq_replicate_iff.mpr ⟨rfl, fun c hc => ?_⟩
      simpa using List.mem_takeWhile_imp (List.mem_reverse.mp hc)
    rw [htop, ← hslashes, List.rdropWhile_append_rtakeWhile]
  · intro hlast
    rw [htop] at hlast
    obtain ⟨hne, hslash⟩ := List.mem_getLast?_eq_getLast hlast
    have hother := List.rdropWhile_last_not (· = '/') path.toList hne
    rw [← hslash] at hother
    exact hother (decide_eq_true rfl)

/-- Whether a file belongs to what is at or below a path without slashes at its
end: every file is at or below the root, which is written as nothing or as a
dot, and a directory is followed by a slash in the paths of its files. -/
def Within (top file : String) : Prop :=
  top = "" ∨ top = "." ∨ file = top ∨ (top ++ "/").toList <+: file.toList

instance (top file : String) : Decidable (Within top file) :=
  inferInstanceAs (Decidable (top = "" ∨ top = "." ∨ file = top ∨ _ <+: _))

theorem nodesUnderPath_eq (s : Store) (repo path : String) :
    s.nodesUnderPath repo path
      = sortRows ((s.nodesOf repo).filter fun n => Within (trimSlashes path) n.filePath) := by
  unfold nodesUnderPath
  dsimp only
  split
  next hroot =>
    have hall : ∀ n ∈ s.nodesOf repo, decide (Within (trimSlashes path) n.filePath) = true :=
      fun n _ => decide_eq_true (or_assoc.mp (.inl hroot))
    rw [List.filter_eq_self.mpr hall]
  next hroot =>
    refine congrArg sortRows (List.filter_congr fun n _ => ?_)
    rw [Bool.eq_iff_iff, atOrBelow_iff, decide_eq_true_iff, Within, ← or_assoc,
      or_iff_right hroot]

end Store

-- ==================================================================== order

/-- The order of rows as a database has it, by the bytes of their texts. A row
without a line comes before those with one. -/
def NodeRow.byteOrder (a b : NodeRow) : Ordering :=
  (compare (bytes a.filePath) (bytes b.filePath)).then
    ((orderLine a.startLine b.startLine).then
      (compare (bytes a.qualifiedName) (bytes b.qualifiedName)))

theorem NodeRow.order_eq_byteOrder : NodeRow.order = NodeRow.byteOrder := by
  funext a b
  rw [byteOrder, compare_bytes, compare_bytes, order]

/-- A search by path finds the subtree of the path. For the path without the
slashes at its end, the range of bytes that is searched answers with every node
of the repository in a file at or below that path and with no other, each as
often as it is stored, ordered by file, first line and qualified name. -/
theorem Store.range_is_subtree (s : Store) (repo path : String) :
    StripsTo path (trimSlashes path)
    ∧ (∀ file, atOrBelow (trimSlashes path) file = true ↔
        file = trimSlashes path
        ∨ compare (bytes file) (bytes (trimSlashes path ++ "/")) ≠ .lt
          ∧ compare (bytes file) (bytes (trimSlashes path ++ "0")) = .lt)
    ∧ (s.nodesUnderPath repo path).Perm
        ((s.nodesOf repo).filter fun n => Within (trimSlashes path) n.filePath)
    ∧ (s.nodesUnderPath repo path).Pairwise fun a b => (a.byteOrder b).isLE := by
  refine ⟨stripsTo_trimSlashes path, atOrBelow_iff_bytes _, ?_, ?_⟩
  · rw [nodesUnderPath_eq]
    exact List.mergeSort_perm _ _
  · rw [nodesUnderPath_eq, ← NodeRow.order_eq_byteOrder]
    exact pairwise_sortRows _

-- what sorts next to the range stays out
example : ["src", "src.py", "src/a.py", "src/sub/b.py", "src0", "src2/c.py"].filter
      (Store.atOrBelow (Store.trimSlashes "src//"))
    = ["src", "src/a.py", "src/sub/b.py"] := by
  decide

end CodeMap
