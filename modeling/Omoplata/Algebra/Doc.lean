-- SUMMARY: The line-oriented document model and the slices the algebra takes of it.
import Mathlib.Data.List.Basic

/-!
# Documents

A `Doc` is an ordered sequence of lines. Text is split on `\n`, so a trailing
newline gives a final empty line and splitting loses nothing.
-/

namespace Omoplata

/-- A text, as the characters it holds. -/
abbrev Str := List Char

instance : LawfulBEq Str := List.instLawfulBEq

/-- One line of a text, without its newline. -/
abbrev Line := Str

/-- A document: an ordered sequence of lines. -/
structure Doc where
  lines : List Line
  deriving DecidableEq, Repr

namespace Doc

/-- Split on `\n`. -/
def fromStr (s : Str) : Doc := ⟨s.splitOn '\n'⟩

/-- Join with `\n`. -/
def toStr (d : Doc) : Str := List.intercalate ['\n'] d.lines

def isEmpty (d : Doc) : Bool := d.lines.isEmpty

/-- Splitting and joining gives the text back. -/
theorem toStr_fromStr (s : Str) : (fromStr s).toStr = s :=
  List.intercalate_splitOn '\n'

end Doc

section Slices

universe u
variable {α : Type u}

/-- The span `xs[i..j]`, read where the bounds are known to be good. -/
def slice (xs : List α) (i j : Nat) : List α := (xs.take j).drop i

/-- The span `xs[i..j]`, or nothing where the code would panic. -/
def slice? (xs : List α) (i j : Nat) : Option (List α) :=
  if i ≤ j ∧ j ≤ xs.length then some (slice xs i j) else none

theorem slice_eq_take_drop (xs : List α) (i j : Nat) :
    slice xs i j = (xs.drop i).take (j - i) := by
  rw [slice, List.drop_take]

theorem slice_zero (xs : List α) (j : Nat) : slice xs 0 j = xs.take j := rfl

theorem slice_length (xs : List α) (i : Nat) : slice xs i xs.length = xs.drop i := by
  simp [slice]

theorem slice?_eq_some {xs : List α} {i j : Nat} (hij : i ≤ j) (hj : j ≤ xs.length) :
    slice? xs i j = some (slice xs i j) := if_pos ⟨hij, hj⟩

/-- A slice inside the first of two joined lists. -/
theorem slice_append_left {xs ys : List α} {i j : Nat} (hj : j ≤ xs.length) :
    slice (xs ++ ys) i j = slice xs i j := by
  rw [slice, List.take_append_of_le_length hj, slice]

/-- A slice inside the second of two joined lists. -/
theorem slice_append_right (xs ys : List α) (i j : Nat) :
    slice (xs ++ ys) (i + xs.length) (j + xs.length) = slice ys i j := by
  rw [slice, Nat.add_comm j, List.take_length_add_append, Nat.add_comm i,
    List.drop_length_add_append, slice]

end Slices

/-- A document splits at each of its lines. -/
theorem exists_split_of_getElem? {xs : List Line} {k : Nat} {y : Line}
    (h : xs[k]? = some y) : ∃ pre post, xs = pre ++ y :: post ∧ pre.length = k := by
  obtain ⟨hk, rfl⟩ := List.getElem?_eq_some_iff.mp h
  refine ⟨xs.take k, xs.drop (k + 1), ?_, ?_⟩
  · rw [← List.drop_eq_getElem_cons hk, List.take_append_drop]
  · rw [List.length_take]
    omega

end Omoplata
