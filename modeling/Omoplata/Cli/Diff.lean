-- SUMMARY: The hunk headers of the diff command.
import Omoplata.Algebra.Patch

/-!
# Printing a diff

The command prints the hunks of a diff, each behind a header with its place in both documents.
The place in the target is not part of a hunk; it is counted along, from hunk to hunk, by what
lies between them and what they insert.
-/

open ListEdit

namespace Omoplata

/-! ## The command -/

/-- The numbers of a header; lines are counted from 1. -/
structure HunkHeader where
  baseLine : Nat
  removed : Nat
  newLine : Nat
  inserted : Nat
  deriving DecidableEq, Repr

def HunkHeader.text (header : HunkHeader) : Line :=
  "@@ -".toList ++ Nat.toDigits 10 header.baseLine ++ ",".toList ++ Nat.toDigits 10 header.removed ++
    " +".toList ++ Nat.toDigits 10 header.newLine ++ ",".toList ++ Nat.toDigits 10 header.inserted ++
    " @@".toList

/-- The lines printed for a hunk. -/
def printHunk (header : HunkHeader) (hunk : Hunk) : List Line :=
  header.text :: (hunk.remove.map ('-' :: ·) ++ hunk.insert.map ('+' :: ·))

/-- The loop over the hunks, or nothing where the subtraction underflows. -/
def printHunks : List Hunk → Nat → Nat → Option (List Line)
  | [], _, _ => some []
  | hunk :: hunks, newLine, baseLine => do
      -- past the unchanged lines in front of the hunk
      let skipped ← if baseLine ≤ hunk.baseStart + 1 then some (hunk.baseStart + 1 - baseLine) else none
      let newLine := newLine + skipped
      let baseLine := hunk.baseStart + 1
      let header : HunkHeader := ⟨hunk.baseStart + 1, hunk.remove.length, newLine, hunk.insert.length⟩
      let rest ← printHunks hunks (newLine + hunk.insert.length) (baseLine + hunk.remove.length)
      some (printHunk header hunk ++ rest)

/-- What is printed for two documents. -/
def cmdDiff (base target : Doc) : Option (List Line) := printHunks (diff base target).hunks 1 1

/-! ## The headers -/

/-- A header that says where the lines of its hunk stand in the two documents. -/
structure HunkHeader.Locates (base target : Doc) (header : HunkHeader) (hunk : Hunk) : Prop where
  baseLine_pos : 1 ≤ header.baseLine
  base : slice? base.lines (header.baseLine - 1) (header.baseLine - 1 + header.removed) = some hunk.remove
  newLine_pos : 1 ≤ header.newLine
  target : slice? target.lines (header.newLine - 1) (header.newLine - 1 + header.inserted) = some hunk.insert

/-- The header of a hunk whose insertion stands at `place`. -/
def headerAt (p : Nat × Hunk) : HunkHeader :=
  ⟨p.2.baseStart + 1, p.2.remove.length, p.1 + 1, p.2.insert.length⟩

/-- The counters stand one behind the positions up to which both documents have been read. -/
theorem printHunks_eq {b : List Line} {hunks : List Hunk} {pos : Nat} (hfit : Fits b pos hunks) (out : Nat) :
    printHunks hunks (out + 1) (pos + 1) =
      some ((places pos out hunks).flatMap fun p => printHunk (headerAt p) p.2) := by
  induction hunks generalizing pos out with
  | nil => rfl
  | cons hunk hunks ih =>
      obtain ⟨hle, _, _, hrest⟩ := hfit
      have hskipped : hunk.baseStart + 1 - (pos + 1) = hunk.baseStart - pos := Nat.add_sub_add_right _ 1 _
      have hnew : out + 1 + (hunk.baseStart - pos) = out + (hunk.baseStart - pos) + 1 := Nat.add_right_comm _ 1 _
      have hnext := ih hrest (out + (hunk.baseStart - pos) + hunk.insert.length)
      have hcounters : printHunks hunks (out + (hunk.baseStart - pos) + 1 + hunk.insert.length)
          (hunk.baseStart + 1 + hunk.remove.length) =
            printHunks hunks (out + (hunk.baseStart - pos) + hunk.insert.length + 1) (hunk.stop + 1) := by
        rw [Nat.add_right_comm _ 1 hunk.insert.length, Nat.add_right_comm _ 1 hunk.remove.length]
        rfl
      unfold printHunks
      rw [if_pos (Nat.succ_le_succ hle), hskipped, Option.bind_eq_bind, Option.bind_some]
      dsimp only
      rw [hnew, hcounters, hnext]
      rfl

theorem slice?_of_take {xs ys : List Line} {i n : Nat} (hlength : i + n ≤ xs.length)
    (htake : (xs.drop i).take n = ys) : slice? xs i (i + n) = some ys := by
  rw [slice?_eq_some (Nat.le_add_right i n) hlength, slice_eq_take_drop, Nat.add_sub_cancel_left, htake]

theorem HunkHeader.text_eq (header : HunkHeader) :
    header.text = ("@@ -" ++ toString header.baseLine ++ "," ++ toString header.removed ++ " +" ++
      toString header.newLine ++ "," ++ toString header.inserted ++ " @@").toList := by
  unfold HunkHeader.text
  rw [String.toList_append, String.toList_append, String.toList_append, String.toList_append, String.toList_append,
    String.toList_append, String.toList_append, String.toList_append]
  simp only [Nat.toString_eq_repr, Nat.toList_repr]

/-- The subtraction never underflows, and every hunk of the diff is printed in turn: the header line, the
    removed lines and the inserted ones. The numbers of the header are the place of the removed lines in the
    base and of the inserted lines in the target. -/
theorem cmdDiff_headers (base target : Doc) : ∃ printed : List (HunkHeader × Hunk),
    cmdDiff base target = some (printed.flatMap fun p =>
      ("@@ -" ++ toString p.1.baseLine ++ "," ++ toString p.1.removed ++ " +" ++
        toString p.1.newLine ++ "," ++ toString p.1.inserted ++ " @@").toList ::
          (p.2.remove.map ('-' :: ·) ++ p.2.insert.map ('+' :: ·))) ∧
    printed.map Prod.snd = (diff base target).hunks ∧
    ∀ p ∈ printed, p.1.Locates base target p.2 := by
  have hfit := fits_diff base target
  have hsplice : splice base.lines 0 (diff base target).hunks = target.lines.drop 0 := splice_diff base target
  have hplaces := inserted_at_place hfit hsplice (Nat.zero_le target.lines.length)
  refine ⟨(places 0 0 (diff base target).hunks).map fun p => (headerAt p, p.2), ?_, ?_, ?_⟩
  · unfold cmdDiff
    rw [printHunks_eq hfit 0, List.flatMap_map]
    simp only [printHunk, HunkHeader.text_eq]
  · rw [List.map_map]
    exact map_snd_places 0 0 (diff base target).hunks
  · intro p hp
    obtain ⟨q, hq, rfl⟩ := List.mem_map.mp hp
    have hmem : q.2 ∈ (diff base target).hunks := by
      rw [← map_snd_places 0 0 (diff base target).hunks]
      exact List.mem_map_of_mem hq
    obtain ⟨hbound, htake⟩ := hplaces q hq
    exact ⟨Nat.succ_le_succ (Nat.zero_le q.2.baseStart),
      slice?_of_take (hfit.stop_le q.2 hmem) (hfit.context q.2 hmem),
      Nat.succ_le_succ (Nat.zero_le q.1), slice?_of_take hbound htake⟩

end Omoplata
