-- SUMMARY: Lines that a side has more often than the base come out of a merge: one by one where it is clean, together otherwise.
import Omoplata.Algebra.Merge
import Omoplata.Lib.Weave

/-!
# Lines a merge keeps

A clean merge and one of its sides are cut in step with the base: `IsCut.woven`. A line
that a side has more often than the base is then a line of the merge. The same holds when
the text has something in front of its first line, or behind its last one. A merge with
conflicts keeps what its sides together have more often than the base.
-/

namespace Omoplata

/-! ## The cut of a clean merge -/

namespace CutStep

/-- What a step writes behind its run. -/
def settled (step : CutStep) : List Line :=
  if step.left = step.base then step.right
  else if step.right = step.base ∨ step.left = step.right then step.left
  else [conflictStart] ++ step.left ++ [conflictSep] ++ step.right ++ [conflictEnd]

theorem output_eq (step : CutStep) : step.output = step.run ++ step.settled := rfl

/-- Without a conflict a region is as a side where that side moved. -/
theorem settled_ok {step : CutStep} (h : step.conflicts = []) :
    (step.left = step.base ∨ step.settled = step.left) ∧ (step.right = step.base ∨ step.settled = step.right) := by
  have hregion : step.left = step.base ∨ step.right = step.base ∨ step.left = step.right := by
    unfold conflicts at h
    split at h
    · assumption
    · simp at h
  unfold settled
  by_cases hl : step.left = step.base
  · exact ⟨.inl hl, .inr (if_pos hl)⟩
  · have hsettled := hregion.resolve_left hl
    rw [if_neg hl, if_pos hsettled]
    exact ⟨.inr rfl, hsettled⟩

/-- A line that a step without a conflict writes is one of a side. -/
theorem mem_settled {step : CutStep} (h : step.conflicts = []) {x : Line} (hx : x ∈ step.settled) :
    x ∈ step.left ∨ x ∈ step.right := by
  obtain ⟨hl, hr⟩ := settled_ok h
  rcases hl with hl | hl
  · rw [settled, if_pos hl] at hx
    exact .inr hx
  · exact .inl (hl ▸ hx)

end CutStep

/-- The steps of a cut without a conflict, behind the first run. -/
theorem IsCut.woven {b l r : List Line} {step : CutStep} {steps : List CutStep}
    (h : IsCut b l r (step :: steps)) (hclean : ∀ s ∈ step :: steps, s.conflicts = []) :
    ∃ b' l' r' m', b = step.run ++ b' ∧ l = step.run ++ l' ∧ r = step.run ++ r' ∧
      (step :: steps).flatMap CutStep.output = step.run ++ m' ∧ Woven b' l' m' ∧ Woven b' r' m' := by
  generalize hsteps : step :: steps = all at h
  induction h generalizing step steps with
  | trailing run l r =>
      obtain ⟨rfl, rfl⟩ := List.cons.inj hsteps
      obtain ⟨hl, hr⟩ := CutStep.settled_ok (hclean _ List.mem_cons_self)
      refine ⟨[], l, r, _, (List.append_nil _).symm, rfl, rfl, ?_, .region hl, .region hr⟩
      simp [CutStep.output_eq]
  | unanchored run o l r =>
      obtain ⟨rfl, rfl⟩ := List.cons.inj hsteps
      obtain ⟨hl, hr⟩ := CutStep.settled_ok (hclean _ List.mem_cons_self)
      refine ⟨o, l, r, _, rfl, rfl, rfl, ?_, .region hl, .region hr⟩
      simp [CutStep.output_eq, CutStep.settled]
  | anchored run o lf rt x b l r tail next steps' hml hmr hnext hcut ih =>
      obtain ⟨rfl, rfl⟩ := List.cons.inj hsteps
      obtain ⟨hstep, hrest⟩ := List.forall_mem_cons.mp hclean
      obtain ⟨hl, hr⟩ := CutStep.settled_ok hstep
      obtain ⟨b', l', r', m', hb, hl', hr', hm, hleft, hright⟩ := ih hrest rfl
      have hrun : next.run ≠ [] := hnext ▸ List.cons_ne_nil x tail
      refine ⟨_, _, _, CutStep.settled ⟨run, o, lf, rt⟩ ++ (next.run ++ m'), rfl, rfl, rfl, ?_, ?_, ?_⟩
      · rw [List.flatMap_cons, hm, CutStep.output_eq, List.append_assoc]
      · rw [hb, hl']
        exact .run hl next.run hrun hleft
      · rw [hb, hr']
        exact .run hr next.run hrun hright

/-- The documents of a clean merge are cut in step. -/
theorem merge3_woven {base left right : Doc} (hclean : (merge3 base left right).isClean = true) :
    Woven base.lines left.lines (merge3 base left right).merged.lines ∧
      Woven base.lines right.lines (merge3 base left right).merged.lines := by
  have hcut := isCut_mergeCut base left right
  have hsome : ∀ {b l r : List Line}, ¬ IsCut b l r [] := fun h => by cases h
  have hconflicts : ∀ s ∈ mergeCut base left right, s.conflicts = [] := by
    rw [Merge.isClean, merge3_eq, List.isEmpty_iff] at hclean
    exact List.flatMap_eq_nil_iff.mp hclean
  rw [merge3_eq]
  dsimp only
  generalize mergeCut base left right = steps at hcut hconflicts ⊢
  cases steps with
  | nil => exact absurd hcut hsome
  | cons step steps =>
      obtain ⟨b, l, r, m, hb, hl, hr, hm, hleft, hright⟩ := hcut.woven hconflicts
      rw [hb, hl, hr, hm]
      by_cases hrun : step.run = []
      · rw [hrun]
        exact ⟨hleft, hright⟩
      · have hfront : ([] : List Line) = [] ∨ ([] : List Line) = [] := .inl rfl
        exact ⟨.run hfront step.run hrun hleft, .run hfront step.run hrun hright⟩

/-! ## Both ends -/

/-- In a region some of the three documents have lines and some have none. -/
def CutStep.Mixed (step : CutStep) : Prop :=
  (step.base = [] ∨ step.left = [] ∨ step.right = []) ∧
    ¬ (step.base = [] ∧ step.left = [] ∧ step.right = [])

/-- Three documents have one line in common and no more, with lines in front of it in some of
    them only, and behind it in some only. -/
def Pinched (steps : List CutStep) : Prop :=
  ∃ first last x rest, steps = first :: last :: rest ∧ first.run = [] ∧ first.Mixed ∧ last.run = [x] ∧
    last.Mixed ∧ ∀ step ∈ rest, step.run = []

/-- What a region without a conflict writes is there where both sides have lines. -/
theorem CutStep.settled_ne_nil {step : CutStep} (h : step.left ≠ []) (h' : step.right ≠ []) :
    step.settled ≠ [] := by
  unfold settled
  split
  · exact h'
  · split
    · exact h
    · simp

theorem CutStep.settled_eq_nil {step : CutStep} (h : step.base = [] ∧ step.left = [] ∧ step.right = []) :
    step.settled = [] := by
  unfold settled
  rw [if_pos (h.2.1.trans h.1.symm), h.2.2]

/-- A region that is not mixed is empty everywhere or nowhere. -/
theorem CutStep.not_mixed {step : CutStep} (h : ¬ step.Mixed) :
    step.base = [] ∧ step.left = [] ∧ step.right = [] ∨
      step.base ≠ [] ∧ step.left ≠ [] ∧ step.right ≠ [] := by
  unfold Mixed at h
  tauto

/-- Behind the run of a step there is its region and no further run, or else something in all
    the documents. -/
theorem IsCut.behind_run {b l r b' l' r' m' : List Line} {step : CutStep} {steps : List CutStep}
    (h : IsCut b l r (step :: steps)) (hb : b = step.run ++ b') (hl : l = step.run ++ l')
    (hr : r = step.run ++ r') (hm : (step :: steps).flatMap CutStep.output = step.run ++ m') :
    (b' = step.base ∧ l' = step.left ∧ r' = step.right ∧ m' = step.settled ∧ ∀ s ∈ steps, s.run = []) ∨
      (b' ≠ [] ∧ l' ≠ [] ∧ r' ≠ [] ∧ m' ≠ []) := by
  rw [List.flatMap_cons, CutStep.output_eq, List.append_assoc] at hm
  have hm' := List.append_cancel_left hm
  cases h with
  | trailing _ l r =>
      have hnil : b ++ [] = b ++ b' := (List.append_nil b).trans hb
      refine .inl ⟨(List.append_cancel_left hnil).symm, (List.append_cancel_left hl).symm,
        (List.append_cancel_left hr).symm, ?_, by simp⟩
      rw [← hm', List.flatMap_nil, List.append_nil]
  | unanchored run o l r =>
      have hempty : [(⟨[], [], [], []⟩ : CutStep)].flatMap CutStep.output = [] := rfl
      refine .inl ⟨(List.append_cancel_left hb).symm, (List.append_cancel_left hl).symm,
        (List.append_cancel_left hr).symm, ?_, by simp⟩
      rw [← hm', hempty, List.append_nil]
  | anchored run o lf rt x b l r tail next steps hml hmr hnext hcut =>
      refine .inr ⟨?_, ?_, ?_, ?_⟩
      · rw [← List.append_cancel_left hb]
        simp
      · rw [← List.append_cancel_left hl]
        simp
      · rw [← List.append_cancel_left hr]
        simp
      · rw [← hm', List.flatMap_cons, CutStep.output_eq, hnext]
        simp

/-- A clean cut that is not pinched keeps the ends of its documents apart. -/
theorem IsCut.gripped {b l r : List Line} {steps : List CutStep} (h : IsCut b l r steps)
    (hclean : ∀ s ∈ steps, s.conflicts = []) (hpinched : ¬ Pinched steps) :
    Gripped b l (steps.flatMap CutStep.output) ∧ Gripped b r (steps.flatMap CutStep.output) := by
  cases steps with
  | nil => cases h
  | cons step steps =>
      obtain ⟨b', l', r', m', hb, hl, hr, hm, hleft, hright⟩ := h.woven hclean
      obtain ⟨hstep, hrest⟩ := List.forall_mem_cons.mp hclean
      cases hrun : step.run with
      | cons x run =>
          -- A line in common stands first in all of them.
          rw [hrun] at hb hl hr hm
          rw [hm, hb, hl, hr]
          exact ⟨.first x (hleft.prepend run), .first x (hright.prepend run)⟩
      | nil =>
          obtain ⟨hsl, hsr⟩ := CutStep.settled_ok hstep
          rw [List.flatMap_cons, CutStep.output_eq, hrun, List.nil_append]
          cases h with
          | trailing =>
              rw [show b = [] from hrun, List.nil_append, List.nil_append, List.flatMap_nil, List.append_nil]
              exact ⟨.region hsl, .region hsr⟩
          | unanchored run =>
              rw [show run = [] from hrun, List.nil_append, List.nil_append, List.nil_append]
              have hnone : [(⟨[], [], [], []⟩ : CutStep)].flatMap CutStep.output = [] := rfl
              rw [hnone, List.append_nil]
              exact ⟨.region hsl, .region hsr⟩
          | anchored run o lf rt x b l r tail next steps hml hmr hnext hcut =>
              rw [show run = [] from hrun, List.nil_append, List.nil_append, List.nil_append]
              obtain ⟨b'', l'', r'', m'', hb'', hl'', hr'', hm'', hleft', hright'⟩ := hcut.woven hrest
              rw [hm'', hb'', hl'', hr'', hnext]
              -- Where no region is mixed, the sides and what is written are empty together.
              have hside : ∀ {step : CutStep}, step.conflicts = [] → ¬ step.Mixed →
                  (step.base = [] ∧ step.left = [] ∧ step.right = [] ∧ step.settled = []) ∨
                    (step.base ≠ [] ∧ step.left ≠ [] ∧ step.right ≠ [] ∧ step.settled ≠ []) := by
                intro step hstep hmixed
                rcases CutStep.not_mixed hmixed with hempty | hfull
                · exact .inl ⟨hempty.1, hempty.2.1, hempty.2.2, CutStep.settled_eq_nil hempty⟩
                · exact .inr ⟨hfull.1, hfull.2.1, hfull.2.2, CutStep.settled_ne_nil hfull.2.1 hfull.2.2⟩
              have hback := hcut.behind_run hb'' hl'' hr'' hm''
              have hkeep : tail ≠ [] ∨ (o = [] ∧ lf = [] ∧ rt = [] ∧ CutStep.settled ⟨run, o, lf, rt⟩ = [] ∨
                  o ≠ [] ∧ lf ≠ [] ∧ rt ≠ [] ∧ CutStep.settled ⟨run, o, lf, rt⟩ ≠ []) ∨
                  (b'' = [] ∧ l'' = [] ∧ r'' = [] ∧ m'' = [] ∨ b'' ≠ [] ∧ l'' ≠ [] ∧ r'' ≠ [] ∧ m'' ≠ []) := by
                by_cases htail : tail = []
                · refine .inr ?_
                  rcases hback with ⟨rfl, rfl, rfl, rfl, hempty⟩ | hfull
                  · by_cases hmixed : CutStep.Mixed ⟨run, o, lf, rt⟩
                    · by_cases hmixed' : next.Mixed
                      · exact absurd ⟨_, next, x, steps, rfl, hrun, hmixed, by rw [hnext, htail], hmixed', hempty⟩
                          hpinched
                      · exact .inr (hside (hrest next List.mem_cons_self) hmixed')
                    · exact .inl (hside hstep hmixed)
                  · exact .inr (.inr hfull)
                · exact .inl htail
              have hproj : ∀ {b l r m : List Line},
                  (b = [] ∧ l = [] ∧ r = [] ∧ m = [] ∨ b ≠ [] ∧ l ≠ [] ∧ r ≠ [] ∧ m ≠ []) →
                    (b = [] ∧ l = [] ∧ m = [] ∨ b ≠ [] ∧ l ≠ [] ∧ m ≠ []) ∧
                      (b = [] ∧ r = [] ∧ m = [] ∨ b ≠ [] ∧ r ≠ [] ∧ m ≠ []) := by
                rintro b l r m (⟨hb, hl, hr, hm⟩ | ⟨hb, hl, hr, hm⟩)
                · exact ⟨.inl ⟨hb, hl, hm⟩, .inl ⟨hb, hr, hm⟩⟩
                · exact ⟨.inr ⟨hb, hl, hm⟩, .inr ⟨hb, hr, hm⟩⟩
              exact ⟨gripped_of_run hsl x tail hleft'
                  (hkeep.imp_right (Or.imp (fun h => (hproj h).1) fun h => (hproj h).1)),
                gripped_of_run hsr x tail hright'
                  (hkeep.imp_right (Or.imp (fun h => (hproj h).2) fun h => (hproj h).2))⟩

/-- What a side of a clean merge that is not pinched has in excess with both ends changed is in
    the merge with both ends changed. -/
theorem merge3_gripped {base left right : Doc} (hclean : (merge3 base left right).isClean = true)
    (hpinched : ¬ Pinched (mergeCut base left right)) :
    Gripped base.lines left.lines (merge3 base left right).merged.lines ∧
      Gripped base.lines right.lines (merge3 base left right).merged.lines := by
  rw [Merge.isClean, merge3_eq, List.isEmpty_iff] at hclean
  rw [merge3_eq]
  exact (isCut_mergeCut base left right).gripped (List.flatMap_eq_nil_iff.mp hclean) hpinched

/-! ## Lines -/

/-- A line of a clean merge is a line of a side. -/
theorem mem_of_mem_merge3 {base left right : Doc} (hclean : (merge3 base left right).isClean = true)
    {x : Line} (hx : x ∈ (merge3 base left right).merged.lines) : x ∈ left.lines ∨ x ∈ right.lines := by
  obtain ⟨-, hl, hr⟩ := (isCut_mergeCut base left right).flatMap_eq
  rw [Merge.isClean, merge3_eq, List.isEmpty_iff] at hclean
  rw [merge3_eq] at hx
  obtain ⟨step, hstep, hx⟩ := List.mem_flatMap.mp hx
  rw [← hl, ← hr, List.mem_flatMap, List.mem_flatMap]
  rw [CutStep.output_eq] at hx
  rcases List.mem_append.mp hx with hrun | hsettled
  · exact .inl ⟨step, hstep, List.mem_append_left _ hrun⟩
  · rcases CutStep.mem_settled (List.flatMap_eq_nil_iff.mp hclean step hstep) hsettled with hin | hin
    · exact .inl ⟨step, hstep, List.mem_append_right _ hin⟩
    · exact .inr ⟨step, hstep, List.mem_append_right _ hin⟩

/-! ## Lines of a merge with conflicts -/

/-- Every line that a line merge writes is one of a side or a marker. -/
theorem mem_merge3 {base left right : Doc} {line : Line} (h : line ∈ (merge3 base left right).merged.lines) :
    line ∈ left.lines ∨ line ∈ right.lines ∨ line ∈ [conflictStart, conflictSep, conflictEnd] := by
  obtain ⟨-, hl, hr⟩ := (isCut_mergeCut base left right).flatMap_eq
  rw [merge3_eq] at h
  obtain ⟨step, hstep, hline⟩ := List.mem_flatMap.mp h
  have hleft : ∀ line ∈ step.run ++ step.left, line ∈ left.lines := fun line hline =>
    hl ▸ List.mem_flatMap.mpr ⟨step, hstep, hline⟩
  have hright : ∀ line ∈ step.run ++ step.right, line ∈ right.lines := fun line hline =>
    hr ▸ List.mem_flatMap.mpr ⟨step, hstep, hline⟩
  unfold CutStep.output at hline
  rcases List.mem_append.mp hline with hline | hline
  · exact .inl (hleft line (List.mem_append_left _ hline))
  · split_ifs at hline
    · exact .inr (.inl (hright line (List.mem_append_right _ hline)))
    · exact .inl (hleft line (List.mem_append_right _ hline))
    · simp only [List.mem_append, List.mem_singleton] at hline
      rcases hline with (((hline | hline) | hline) | hline) | hline
      · simp [hline]
      · exact .inl (hleft line (List.mem_append_right _ hline))
      · simp [hline]
      · exact .inr (.inl (hright line (List.mem_append_right _ hline)))
      · simp [hline]

/-- A step that does not write a line has it on its sides together no more often than in the base. -/
theorem CutStep.count_le {step : CutStep} {x : Line} (h : x ∉ step.output) :
    (step.run ++ step.left).count x + (step.run ++ step.right).count x ≤ (step.run ++ step.base).count x := by
  rw [output_eq, List.mem_append, not_or] at h
  obtain ⟨hrun, hsettled⟩ := h
  unfold settled at hsettled
  simp only [List.count_append, List.count_eq_zero_of_not_mem hrun, Nat.zero_add]
  split at hsettled
  · rename_i hl
    rw [hl, List.count_eq_zero_of_not_mem hsettled, Nat.add_zero]
  · split at hsettled
    · rename_i hside
      rw [List.count_eq_zero_of_not_mem hsettled, Nat.zero_add]
      rcases hside with hr | hr
      · rw [hr]
      · rw [← hr, List.count_eq_zero_of_not_mem hsettled]
        exact Nat.zero_le _
    · simp only [List.mem_append, not_or] at hsettled
      obtain ⟨⟨⟨⟨-, hl⟩, -⟩, hr⟩, -⟩ := hsettled
      rw [List.count_eq_zero_of_not_mem hl, List.count_eq_zero_of_not_mem hr]
      exact Nat.zero_le _

/-- A line that the sides together have more often than the base is in the merge, in a conflict if
    not elsewhere. -/
theorem mem_merge3_of_count_lt {base left right : Doc} {x : Line}
    (h : base.lines.count x < left.lines.count x + right.lines.count x) :
    x ∈ (merge3 base left right).merged.lines := by
  obtain ⟨hb, hl, hr⟩ := (isCut_mergeCut base left right).flatMap_eq
  rw [merge3_eq]
  by_contra hnot
  have hsteps : ∀ step ∈ mergeCut base left right, x ∉ step.output := fun step hstep hmem =>
    hnot (List.mem_flatMap.mpr ⟨step, hstep, hmem⟩)
  rw [← hb, ← hl, ← hr] at h
  revert h
  generalize mergeCut base left right = steps at hsteps
  rw [imp_false, Nat.not_lt]
  clear hnot hb hl hr
  induction steps with
  | nil => exact le_rfl
  | cons step steps ih =>
      obtain ⟨hstep, hsteps⟩ := List.forall_mem_cons.mp hsteps
      have hfirst := CutStep.count_le hstep
      have hrest := ih hsteps
      simp only [List.flatMap_cons, List.count_append] at hfirst hrest ⊢
      omega

end Omoplata
