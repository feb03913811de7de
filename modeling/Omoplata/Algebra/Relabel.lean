-- SUMMARY: When a rebase differs from the merge behind it in its markers alone.
import Omoplata.Algebra.Rebase

/-!
# Relabelling markers

A rebase writes the conflicts of a merge under markers of its own, by a pass over the
merged text. The pass sees lines alone, and takes a line of the documents that reads like
a marker for one.
-/

namespace Omoplata

/-- Whether a line reads like a marker that a merge writes at the ends of a conflict. -/
def isMergeMarker (line : Line) : Bool := line == conflictStart || line == conflictEnd

namespace CutStep

/-- The lines of the documents that a step copies. -/
def content (step : CutStep) : List Line :=
  step.run ++
    if step.left = step.base then step.right
    else if step.right = step.base ∨ step.left = step.right then step.left
    else step.left ++ step.right

/-- What a step writes, with the markers of a rebase. -/
def rebased (step : CutStep) : List Line :=
  step.run ++
    if step.left = step.base then step.right
    else if step.right = step.base ∨ step.left = step.right then step.left
    else [rebaseMine] ++ step.left ++ [rebaseSep] ++ step.right ++ [rebaseOnto]

end CutStep

namespace Rebase

/-- A marker of a merge as a marker of a rebase, and any other line as it is. -/
def relabelLine (line : Line) : Line :=
  if line = conflictStart then rebaseMine else if line = conflictEnd then rebaseOnto else line

theorem relabelLine_eq_self_iff {line : Line} : relabelLine line = line ↔ isMergeMarker line = false := by
  unfold relabelLine isMergeMarker
  split
  · rename_i hstart
    subst hstart
    decide
  · split
    · rename_i hend
      subst hend
      decide
    · simp_all

theorem map_relabelLine_eq_self_iff {lines : List Line} :
    lines.map relabelLine = lines ↔ ∀ line ∈ lines, isMergeMarker line = false := by
  induction lines with
  | nil => simp
  | cons line lines ih => rw [List.map_cons, List.cons.injEq, relabelLine_eq_self_iff, ih, List.forall_mem_cons]

/-- A step is relabelled at its markers alone exactly where it copies no line that reads like one. -/
theorem map_relabelLine_output_iff (step : CutStep) :
    step.output.map relabelLine = step.rebased ↔ ∀ line ∈ step.content, isMergeMarker line = false := by
  have hrun : ∀ xs ys : List Line, xs.length = ys.length →
      ((step.run ++ xs).map relabelLine = step.run ++ ys ↔
        (∀ line ∈ step.run, isMergeMarker line = false) ∧ xs.map relabelLine = ys) := by
    intro xs ys hlen
    rw [List.map_append, ← map_relabelLine_eq_self_iff]
    constructor
    · intro h
      exact List.append_inj h (List.length_map _)
    · rintro ⟨hself, hrest⟩
      rw [hself, hrest]
  unfold CutStep.output CutStep.rebased CutStep.content
  rw [List.forall_mem_append]
  split
  · rw [hrun _ _ rfl, map_relabelLine_eq_self_iff]
  · split
    · rw [hrun _ _ rfl, map_relabelLine_eq_self_iff]
    · rw [hrun _ _ (by simp [rebaseSep])]
      apply and_congr_right'
      rw [List.forall_mem_append, ← map_relabelLine_eq_self_iff, ← map_relabelLine_eq_self_iff]
      have hmarkers : relabelLine conflictStart = rebaseMine ∧ relabelLine conflictSep = rebaseSep ∧
          relabelLine conflictEnd = rebaseOnto := by
        decide
      obtain ⟨hstart, hsep, hend⟩ := hmarkers
      simp only [List.map_append, List.map_cons, List.map_nil, hstart, hsep, hend, List.append_assoc,
        List.cons_append, List.nil_append, List.cons.injEq, true_and]
      constructor
      · intro h
        obtain ⟨hleft, hrest⟩ := List.append_inj h (List.length_map _)
        exact ⟨hleft, List.append_cancel_right (List.cons.inj hrest).2⟩
      · rintro ⟨hleft, hright⟩
        rw [hleft, hright]

theorem length_rebased (step : CutStep) : step.rebased.length = step.output.length := by
  unfold CutStep.output CutStep.rebased
  split
  · rfl
  · split
    · rfl
    · simp

/-- A step without a conflict has no markers. -/
theorem rebased_of_settled {step : CutStep} (h : step.conflicts = []) : step.rebased = step.output := by
  unfold CutStep.conflicts at h
  unfold CutStep.output CutStep.rebased
  split at h
  · rename_i hsettled
    split
    · rfl
    · rename_i hleft
      rw [if_pos (hsettled.resolve_left hleft), if_pos (hsettled.resolve_left hleft)]
  · cases h

/-- Pieces of the same lengths join up to the same list exactly where they are the same. -/
theorem flatMap_eq_flatMap_iff {α β : Type} {f g : α → List β} {l : List α} (h : ∀ a, (f a).length = (g a).length) :
    l.flatMap f = l.flatMap g ↔ ∀ a ∈ l, f a = g a := by
  induction l with
  | nil => simp
  | cons a l ih =>
      rw [List.flatMap_cons, List.flatMap_cons, List.forall_mem_cons, ← ih]
      constructor
      · exact fun heq => List.append_inj heq (h a)
      · rintro ⟨ha, hl⟩
        rw [ha, hl]

end Rebase

/-- A rebase differs from the merge in the markers of its conflicts alone exactly where no line that the merge
    copies reads like a marker of a merge: a clean rebase is then the merge. A rebase of no change, or onto the
    base, gives the other document exactly where none of its lines does. -/
theorem rebase_relabels_iff (base mine onto : Doc) :
    let copies := ∀ step ∈ mergeCut base mine onto, ∀ line ∈ step.content, isMergeMarker line = false
    (merge3 base mine onto).merged.lines = (mergeCut base mine onto).flatMap CutStep.output ∧
    ((rebase base mine onto).result.lines = (mergeCut base mine onto).flatMap CutStep.rebased ↔ copies) ∧
    ((rebase base mine onto).clean = true →
      ((rebase base mine onto).result = (merge3 base mine onto).merged ↔ copies)) ∧
    ((rebase base base onto).result = onto ↔ ∀ line ∈ onto.lines, isMergeMarker line = false) ∧
    ((rebase base mine base).result = mine ↔ ∀ line ∈ mine.lines, isMergeMarker line = false) := by
  intro copies
  have hside : ∀ doc : Doc, Rebase.relabelToRebaseMarkers doc = doc ↔ ∀ line ∈ doc.lines, isMergeMarker line = false := by
    intro doc
    rw [← Rebase.map_relabelLine_eq_self_iff]
    exact Doc.mk.injEq .. ▸ Iff.rfl
  have hmerged : (merge3 base mine onto).merged.lines = (mergeCut base mine onto).flatMap CutStep.output := by
    rw [merge3_eq]
  have hresult : (rebase base mine onto).result.lines =
      (mergeCut base mine onto).flatMap fun step => step.output.map Rebase.relabelLine := by
    rw [← List.map_flatMap, ← hmerged]
    rfl
  have hmain : (rebase base mine onto).result.lines = (mergeCut base mine onto).flatMap CutStep.rebased ↔ copies := by
    rw [hresult, Rebase.flatMap_eq_flatMap_iff]
    · exact forall₂_congr fun step _ => Rebase.map_relabelLine_output_iff step
    · intro step
      rw [List.length_map, Rebase.length_rebased]
  refine ⟨hmerged, hmain, fun hclean => ?_, ?_, ?_⟩
  · have hsettled : ∀ step ∈ mergeCut base mine onto, step.conflicts = [] := by
      have hnone : (merge3 base mine onto).conflicts = [] := List.isEmpty_iff.mp hclean
      rw [merge3_eq] at hnone
      exact List.flatMap_eq_nil_iff.mp hnone
    have hsame : (mergeCut base mine onto).flatMap CutStep.rebased = (mergeCut base mine onto).flatMap CutStep.output :=
      List.flatMap_congr fun step hstep => Rebase.rebased_of_settled (hsettled step hstep)
    rw [← hmain, hsame, ← hmerged]
    exact ⟨congrArg Doc.lines, congrArg Doc.mk⟩
  · unfold rebase
    rw [merge3_base_left]
    exact hside onto
  · unfold rebase
    rw [merge3_base_right]
    exact hside mine

/-- A line that a merge copies is taken for its marker. -/
theorem rebase_relabels_fails :
    let mine : Doc := ⟨[conflictStart]⟩
    (rebase ⟨[]⟩ mine ⟨[]⟩).clean = true ∧ (rebase ⟨[]⟩ mine ⟨[]⟩).result = ⟨[rebaseMine]⟩ ∧
      (merge3 ⟨[]⟩ mine ⟨[]⟩).merged = mine ∧ (rebase ⟨[]⟩ mine ⟨[]⟩).result ≠ (merge3 ⟨[]⟩ mine ⟨[]⟩).merged := by
  decide

end Omoplata
