-- SUMMARY: Merges out of which a line comes that their sides together have more often than the base.
import Omoplata.Drivers.Additions
import Omoplata.Drivers.Select

/-!
# Lines that a merge retains

The line merge puts out every line that its two sides together have more often than their base,
in a conflict if not elsewhere. So a line stays that one side adds, or that one side has and
the other does not take away. The structural merge does the same where one side is the base and
the other keeps its layout, and where nothing is lost around its items.
-/

namespace Omoplata

/-- The line merge retains what its sides have in excess. -/
theorem lineMerge_retains {input : MergeInput} {x : Line}
    (h : (lines input.base).count x < (lines input.left).count x + (lines input.right).count x) :
    x ∈ lines (lineMerge input).merged := by
  have hmem := @mem_merge3_of_count_lt (Doc.fromStr input.base) (Doc.fromStr input.left) (Doc.fromStr input.right) x h
  have hlines : lines (lineMerge input).merged =
      (merge3 (Doc.fromStr input.base) (Doc.fromStr input.left) (Doc.fromStr input.right)).merged.lines :=
    List.splitOn_intercalate '\n' (fun line hline => newline_notMem_merge3 hline) (List.ne_nil_of_mem hmem)
  rw [hlines]
  exact hmem

/-- A text that keeps the layout of a base, where the structural path is open for both. -/
def LaidAlike (G : Grammar) (b x : Str) : Prop :=
  ∀ base side, textSegmentation G b = some base → textSegmentation G x = some side → KeepsLayout base side

/-- A side that keeps the layout of the base is taken as it is, if the other side is the base. -/
theorem LaidAlike.rustMerge {G : Grammar} {b x : Str} (h : LaidAlike G b x) (path : Str) :
    ∀ input ∈ [(⟨b, x, b, path⟩ : MergeInput), ⟨b, b, x, path⟩], (rustMerge G input).merged = x := by
  intro input hinput
  have hclosed : textSegmentation G b = none ∨ textSegmentation G x = none → (Omoplata.rustMerge G input).merged = x := by
    intro hnone
    refine (@rustMerge_takes_line G b x path hnone input ?_).2
    simp only [List.mem_cons, List.not_mem_nil, or_false] at hinput ⊢
    rcases hinput with rfl | rfl <;> simp
  cases hb : textSegmentation G b with
  | none => exact hclosed (.inl hb)
  | some base =>
      cases hx : textSegmentation G x with
      | none => exact hclosed (.inr hx)
      | some side =>
          have hside := textSegmentation_segments hx
          rw [(rustMerge_reassembles hb hx path input hinput).2]
          exact ((h base side hb hx).reassemble hside.gaps fun _ _ _ _ _ => rfl).trans hside.joined

/-- A structural merge that retains a line: the line driver stands in for it, one side is the
    base and the other keeps its layout, or nothing is lost around the items and a side has the
    line in excess. -/
inductive RustRetains (G : Grammar) (input : MergeInput) (x : Line) : Prop
  | line (hclosed : structuralSides G input = none)
  | left (hright : input.right = input.base) (hlayout : LaidAlike G input.base input.left)
  | right (hleft : input.left = input.base) (hlayout : LaidAlike G input.base input.right)
  | both (base left right : Segmentation) (hbase : textSegmentation G input.base = some base)
      (hleft : textSegmentation G input.left = some left) (hright : textSegmentation G input.right = some right)
      (hclean : (rustMerge G input).conflicts = [])
      (hapart : base.LinesApart ∧ left.LinesApart ∧ right.LinesApart) (hsteady : Undisturbed G base left right)
      (hexcess : (lines input.base).count x < (lines input.left).count x ∨
        (lines input.base).count x < (lines input.right).count x)

theorem RustRetains.mem {G : Grammar} {input : MergeInput} {x : Line} (h : RustRetains G input x)
    (hcount : (lines input.base).count x < (lines input.left).count x + (lines input.right).count x) :
    x ∈ lines (rustMerge G input).merged := by
  cases h with
  | line hclosed =>
      unfold rustMerge
      rw [hclosed]
      exact lineMerge_retains hcount
  -- one side is the base, so the merge is the other side, and its lines are all there
  | left hright hlayout =>
      obtain ⟨base, left, right, path⟩ := input
      dsimp only at hright hlayout hcount
      subst hright
      rw [hlayout.rustMerge path _ (by simp)]
      exact List.count_pos_iff.mp (by omega)
  | right hleft hlayout =>
      obtain ⟨base, left, right, path⟩ := input
      dsimp only at hleft hlayout hcount
      subst hleft
      rw [hlayout.rustMerge path _ (by simp)]
      exact List.count_pos_iff.mp (by omega)
  | both base left right hbase hleft hright hclean hapart hsteady hexcess =>
      rcases hexcess with hx | hx
      · exact rustMerge_retains_excess hbase hleft hright hclean hapart hsteady (.inl rfl) hx
      · exact rustMerge_retains_excess hbase hleft hright hclean hapart hsteady (.inr rfl) hx

/-- A merge by the driver of a path that retains a line. Nothing is known of the outside tool. -/
def Retains (tools : Tools) (path : Str) (input : MergeInput) (x : Line) : Prop :=
  lineMerged tools path = true ∨ hasExtension path "rs".toList = true ∧ RustRetains tools.grammar input x

theorem Retains.mem {tools : Tools} {path : Str} {input : MergeInput} {x : Line} (h : Retains tools path input x)
    {out : DriverOutput} (hout : selectDriver tools path input = .ok out)
    (hcount : (lines input.base).count x < (lines input.left).count x + (lines input.right).count x) :
    x ∈ lines out.merged := by
  cases h with
  | inl hline =>
      rw [selectDriver_of_lineMerged hline] at hout
      cases hout
      exact lineMerge_retains hcount
  | inr hrust =>
      unfold selectDriver at hout
      rw [if_pos hrust.1] at hout
      cases hout
      exact hrust.2.mem hcount

end Omoplata
