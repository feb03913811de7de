-- SUMMARY: The kernel admission boundary, and its agreement with the three-way merge.
import Omoplata.Algebra.Commute
import Omoplata.Algebra.Merge

/-!
# Kernel admission

`admitMerge` merges by commuting the two diffs, `merge3` by regions between mutual
anchors. Both are read here over one cut: alignments are local to the regions, so
a diff is the diffs of the regions put one behind another, and where every region
has one side unchanged these diffs are the two sides of one script.
-/

namespace Omoplata

open ListEdit

/-- The two diffs a merge was derived from. -/
structure CommutationWitness where
  p : Patch
  q : Patch
  deriving DecidableEq, Repr

/-- The only two outputs the kernel may emit. -/
inductive Admission where
  | merged (result : Doc) (witness : CommutationWitness)
  | conflict (conflicts : List Conflict)
  deriving DecidableEq, Repr

namespace Kernel

/-- Admit a three-way merge, deriving the answer from first principles. -/
def admitMerge (base left right : Doc) : Admission :=
  let p := diff base left
  let q := diff base right
  match commute p q with
  | .independent _ qRebased =>
      match combine base p qRebased with
      | .ok result => .merged result ⟨p, q⟩
      | .error _ => .conflict (merge3 base left right).conflicts
  | .overlap => .conflict (merge3 base left right).conflicts

/-- Re-check, from `base` and the witness alone, that `result` is the witnessed merge. -/
def verifyWitness (base : Doc) (w : CommutationWitness) (result : Doc) : Bool :=
  match apply w.p base, apply w.q base with
  | .ok left, .ok right =>
      if diff base left ≠ w.p ∨ diff base right ≠ w.q then false
      else
        match commute w.p w.q with
        | .independent _ qRebased =>
            match combine base w.p qRebased with
            | .ok merged => merged == result
            | .error _ => false
        | .overlap => false
  | _, _ => false

/-- The gate a proposer's candidate merge passes through. -/
def certify (base left right proposed : Doc) : Admission :=
  match admitMerge base left right with
  | .merged result witness =>
      if result = proposed then .merged result witness
      else .conflict [⟨base.lines, result.lines, proposed.lines⟩]
  | .conflict conflicts => .conflict conflicts

end Kernel

/-! ## Diffs over a cut -/

/-- The hunks of the diff of two lists of lines. -/
def hunksOf (b t : List Line) : List Hunk := (diff ⟨b⟩ ⟨t⟩).hunks

theorem hunksOf_cons (x : Line) (b t : List Line) :
    hunksOf (x :: b) (x :: t) = (hunksOf b t).map (Edit.moveBy 1) := diff_hunks_cons x b t

theorem hunksOf_eq_nil_iff {b t : List Line} : hunksOf b t = [] ↔ b = t := diff_hunks_eq_nil_iff

@[simp] theorem hunksOf_self (b : List Line) : hunksOf b b = [] := hunksOf_eq_nil_iff.mpr rfl

/-- Every hunk of one list is separable from every hunk of the other. -/
def HunksSeparable (hs ks : List Hunk) : Prop := ∀ h ∈ hs, ∀ k ∈ ks, h.Separable k

theorem hunksOf_append (run b t : List Line) :
    hunksOf (run ++ b) (run ++ t) = (hunksOf b t).map (Edit.moveBy run.length) := by
  induction run with
  | nil => exact (List.map_id _).symm
  | cons x run ih =>
      rw [List.cons_append, List.cons_append, hunksOf_cons, ih, List.map_map]
      rfl

/-- Behind an anchor the hunks are those of the rest, moved. -/
theorem hunksOf_anchored {o lf b l : List Line} {x : Line}
    (h : (o.length, lf.length) ∈ Lcs.walk (o ++ x :: b) (lf ++ x :: l)) :
    hunksOf (o ++ x :: b) (lf ++ x :: l) =
      hunksOf o lf ++ (hunksOf (x :: b) (x :: l)).map (Edit.moveBy o.length) := by
  rw [hunksOf, diff_hunks_of_mem_walk h, hunksOf_cons, List.map_map, hunksOf, hunksOf]
  congr 2
  funext e
  simp only [Function.comp_apply, Edit.moveBy]
  congr 1
  omega

theorem separable_moveBy {n : Nat} {e f : Hunk} :
    (e.moveBy n).Separable (f.moveBy n) ↔ e.Separable f := by
  simp only [Edit.Separable, Edit.moveBy, Edit.stop]
  omega

theorem hunksSeparable_moveBy {n : Nat} {hs ks : List Hunk} :
    HunksSeparable (hs.map (Edit.moveBy n)) (ks.map (Edit.moveBy n)) ↔ HunksSeparable hs ks := by
  simp only [HunksSeparable, List.forall_mem_map, separable_moveBy]

/-- A hunk that ends before another one starts is separable from it. -/
theorem separable_of_stop_lt {e f : Hunk} (h : e.stop < f.baseStart) : e.Separable f := by
  have := e.baseStart_le_stop
  have := f.baseStart_le_stop
  simp only [Edit.Separable]
  omega

/-- Hunks in front of an anchor end before those behind it start. -/
private theorem stop_lt_of_anchored {o lf b l : List Line} {x : Line} {e f : Hunk}
    (he : e ∈ hunksOf o lf) (hf : f ∈ (hunksOf (x :: b) (x :: l)).map (Edit.moveBy o.length)) :
    e.stop < f.baseStart := by
  have hstop : e.stop ≤ o.length := (fits_diff ⟨o⟩ ⟨lf⟩).stop_le e he
  rw [hunksOf_cons, List.map_map] at hf
  obtain ⟨g, -, rfl⟩ := List.mem_map.mp hf
  simp only [Function.comp_apply, Edit.moveBy]
  omega

/-- Before an anchor and behind it the hunks of two sides are separable apart. -/
theorem hunksSeparable_anchored {o lf rt b l r : List Line} {x : Line}
    (hl : (o.length, lf.length) ∈ Lcs.walk (o ++ x :: b) (lf ++ x :: l))
    (hr : (o.length, rt.length) ∈ Lcs.walk (o ++ x :: b) (rt ++ x :: r)) :
    HunksSeparable (hunksOf (o ++ x :: b) (lf ++ x :: l)) (hunksOf (o ++ x :: b) (rt ++ x :: r)) ↔
      HunksSeparable (hunksOf o lf) (hunksOf o rt) ∧
        HunksSeparable (hunksOf (x :: b) (x :: l)) (hunksOf (x :: b) (x :: r)) := by
  rw [hunksOf_anchored hl, hunksOf_anchored hr,
    ← @hunksSeparable_moveBy o.length (hunksOf (x :: b) (x :: l))]
  constructor
  · intro h
    exact ⟨fun e he f hf => h e (List.mem_append_left _ he) f (List.mem_append_left _ hf),
      fun e he f hf => h e (List.mem_append_right _ he) f (List.mem_append_right _ hf)⟩
  · rintro ⟨hfront, hback⟩ e he f hf
    rcases List.mem_append.mp he with he | he <;> rcases List.mem_append.mp hf with hf | hf
    · exact hfront e he f hf
    · exact separable_of_stop_lt (stop_lt_of_anchored he hf)
    · exact (separable_of_stop_lt (stop_lt_of_anchored hf he)).symm
    · exact hback e he f hf

/-! ## Regions -/

namespace CutStep

/-- One of the sides left the region as it is in the base. -/
def OneSided (step : CutStep) : Prop := step.left = step.base ∨ step.right = step.base

theorem conflicts_eq_nil_iff {step : CutStep} :
    step.conflicts = [] ↔ step.OneSided ∨ step.left = step.right := by
  simp only [conflicts, OneSided, or_assoc]
  split <;> simp_all

end CutStep

/-- Separable diffs do not make the same change twice. -/
private theorem oneSided_of_separable {step : CutStep}
    (hsep : HunksSeparable (hunksOf step.base step.left) (hunksOf step.base step.right))
    (hclean : step.conflicts = []) : step.OneSided := by
  rcases CutStep.conflicts_eq_nil_iff.mp hclean with h | h
  · exact h
  · cases hhunks : hunksOf step.base step.left with
    | nil => exact .inl (hunksOf_eq_nil_iff.mp hhunks).symm
    | cons e es =>
        -- A hunk of both sides would have to be separable from itself.
        have hself := hsep e (by simp [hhunks]) e (by simp [← h, hhunks])
        exact absurd Iff.rfl hself

private theorem hunksSeparable_of_oneSided {step : CutStep} (h : step.OneSided) :
    HunksSeparable (hunksOf step.base step.left) (hunksOf step.base step.right) := by
  rcases h with h | h <;> simp [h, HunksSeparable]

/-- The diffs of a cut are separable exactly where those of its regions are. -/
theorem IsCut.hunksSeparable_iff {b l r : List Line} {steps : List CutStep}
    (h : IsCut b l r steps) :
    HunksSeparable (hunksOf b l) (hunksOf b r) ↔
      ∀ step ∈ steps, HunksSeparable (hunksOf step.base step.left) (hunksOf step.base step.right) := by
  induction h with
  | trailing run l r =>
      have hb : run = run ++ [] := (List.append_nil run).symm
      rw [hb, List.append_assoc, List.append_assoc, hunksOf_append, hunksOf_append,
        hunksSeparable_moveBy]
      simp
  | unanchored run o l r =>
      have hempty : HunksSeparable [] [] := by simp [HunksSeparable]
      rw [hunksOf_append, hunksOf_append, hunksSeparable_moveBy]
      simp [hempty]
  | anchored run o lf rt x b l r tail next steps hl hr hnext hcut ih =>
      rw [hunksOf_append, hunksOf_append, hunksSeparable_moveBy, hunksSeparable_anchored hl hr, ih,
        List.forall_mem_cons (a := CutStep.mk run o lf rt)]

/-! ## The script of a cut -/

/-- A script over `b` whose sides are the diffs to `l` and `r`, with `out` the reading
    where both are carried out. -/
structure MergeScript (b l r out : List Line) (ss : List (Seg Line)) : Prop where
  base_eq : ss.flatMap Seg.base = b
  left_eq : leftEdits 0 ss = hunksOf b l
  right_eq : rightEdits 0 ss = hunksOf b r
  both_eq : ss.flatMap Seg.onBoth = out

theorem MergeScript.isScript {b l r out : List Line} {ss : List (Seg Line)}
    (h : MergeScript b l r out ss) : IsScript ⟨b⟩ (diff ⟨b⟩ ⟨l⟩) (diff ⟨b⟩ ⟨r⟩) ss :=
  ⟨by rw [h.base_eq], h.left_eq.symm, h.right_eq.symm⟩

private theorem apply_empty (d : Doc) : apply ⟨[]⟩ d = .ok d := rfl

/-- A region one side left alone has a script that ends in the other side. -/
private theorem exists_script_of_oneSided {step : CutStep} (h : step.OneSided) :
    ∃ ss, MergeScript step.base step.left step.right
      (if step.left = step.base then step.right else step.left) ss := by
  have hsep := hunksSeparable_of_oneSided h
  obtain ⟨ss, hss, -⟩ := exists_isScript (fits_diff ⟨step.base⟩ ⟨step.left⟩)
    (fits_diff ⟨step.base⟩ ⟨step.right⟩) hsep
  refine ⟨ss, ⟨(congrArg Doc.lines hss.base_eq).symm, hss.left_eq.symm, hss.right_eq.symm, ?_⟩⟩
  -- The patch of the side that is the base is empty, also when moved.
  have hempty : ∀ q, Commute.rebase (diff ⟨step.base⟩ ⟨step.base⟩) q = ⟨[]⟩ := fun q => by
    rw [Commute.rebase, diff_hunks_eq_nil_iff.mpr rfl]
    rfl
  split
  · rename_i hl
    have hboth := hss.apply_rebase_left hsep
    have hright := hss.apply_right
    rw [apply_diff, Except.ok.injEq] at hright
    rw [hl, hempty, apply_empty, ← hright, Except.ok.injEq, Doc.mk.injEq] at hboth
    exact hboth.symm
  · rename_i hl
    have hr : step.right = step.base := h.resolve_left hl
    have hboth := hss.apply_rebase_right hsep
    have hleft := hss.apply_left
    rw [apply_diff, Except.ok.injEq] at hleft
    rw [hr, hempty, apply_empty, ← hleft, Except.ok.injEq, Doc.mk.injEq] at hboth
    exact hboth.symm

/-- Kept lines in front of a script. -/
private theorem MergeScript.keep {b l r out : List Line} {ss : List (Seg Line)} (run : List Line)
    (h : MergeScript b l r out ss) :
    MergeScript (run ++ b) (run ++ l) (run ++ r) (run ++ out) (run.map Seg.keep ++ ss) := by
  have hside : ∀ {dst : Seg Line → List Line} {pick : Seg Line → Bool},
      (∀ x, pick (.keep x) = false) →
        edits Seg.base dst pick 0 (run.map Seg.keep ++ ss) =
          (edits Seg.base dst pick 0 ss).map (Edit.moveBy run.length) := by
    intro dst pick hpick
    rw [edits_append, edits_keep hpick, flatMap_base_keep, List.nil_append, edits_add]
  have hkeep : (run.map Seg.keep).flatMap Seg.onBoth = run := flatMap_keep (fun _ => rfl) run
  refine ⟨?_, ?_, ?_, ?_⟩
  · rw [List.flatMap_append, flatMap_base_keep, h.base_eq]
  · rw [leftEdits, hside fun _ => rfl, hunksOf_append, ← h.left_eq]
  · rw [rightEdits, hside fun _ => rfl, hunksOf_append, ← h.right_eq]
  · rw [List.flatMap_append, hkeep, h.both_eq]

/-- Scripts joined at an anchor. -/
private theorem MergeScript.append {o lf rt out b l r out' : List Line} {x : Line}
    {ss ts : List (Seg Line)}
    (hl : (o.length, lf.length) ∈ Lcs.walk (o ++ x :: b) (lf ++ x :: l))
    (hr : (o.length, rt.length) ∈ Lcs.walk (o ++ x :: b) (rt ++ x :: r))
    (hs : MergeScript o lf rt out ss) (ht : MergeScript (x :: b) (x :: l) (x :: r) out' ts) :
    MergeScript (o ++ x :: b) (lf ++ x :: l) (rt ++ x :: r) (out ++ out') (ss ++ ts) := by
  have hside : ∀ {dst : Seg Line → List Line} {pick : Seg Line → Bool},
      edits Seg.base dst pick 0 (ss ++ ts) =
        edits Seg.base dst pick 0 ss ++ (edits Seg.base dst pick 0 ts).map (Edit.moveBy o.length) := by
    intro dst pick
    rw [edits_append, hs.base_eq, edits_add]
  refine ⟨?_, ?_, ?_, ?_⟩
  · rw [List.flatMap_append, hs.base_eq, ht.base_eq]
  · rw [leftEdits, hside, hunksOf_anchored hl, ← hs.left_eq, ← ht.left_eq]
  · rw [rightEdits, hside, hunksOf_anchored hr, ← hs.right_eq, ← ht.right_eq]
  · rw [List.flatMap_append, hs.both_eq, ht.both_eq]

theorem CutStep.output_of_oneSided {step : CutStep} (h : step.OneSided) :
    step.output = step.run ++ if step.left = step.base then step.right else step.left := by
  rw [CutStep.output]
  by_cases hl : step.left = step.base
  · simp [hl]
  · simp [hl, h.resolve_left hl]

/-- The script of a cut whose regions all have an unchanged side. -/
theorem IsCut.exists_script {b l r : List Line} {steps : List CutStep} (h : IsCut b l r steps)
    (hside : ∀ step ∈ steps, step.OneSided) :
    ∃ ss, MergeScript b l r (steps.flatMap CutStep.output) ss := by
  induction h with
  | trailing run l r =>
      have hlast := hside ⟨run, [], l, r⟩ (by simp)
      obtain ⟨ss, hss⟩ := exists_script_of_oneSided hlast
      have hscript := hss.keep run
      rw [List.append_nil] at hscript
      rw [List.flatMap_cons, List.flatMap_nil, List.append_nil, CutStep.output_of_oneSided hlast]
      exact ⟨_, hscript⟩
  | unanchored run o l r =>
      have hfirst := hside ⟨run, o, l, r⟩ (by simp)
      obtain ⟨ss, hss⟩ := exists_script_of_oneSided hfirst
      have hout : [⟨run, o, l, r⟩, ⟨[], [], [], []⟩].flatMap CutStep.output =
          run ++ if l = o then r else l := by
        rw [List.flatMap_cons, CutStep.output_of_oneSided hfirst]
        simp [CutStep.output]
      rw [hout]
      exact ⟨_, hss.keep run⟩
  | anchored run o lf rt x b l r tail next steps hl hr hnext hcut ih =>
      have hfirst := hside ⟨run, o, lf, rt⟩ (by simp)
      obtain ⟨ss, hss⟩ := exists_script_of_oneSided hfirst
      obtain ⟨ts, hts⟩ := ih fun step hstep => hside step (List.mem_cons_of_mem _ hstep)
      rw [List.flatMap_cons, CutStep.output_of_oneSided hfirst, List.append_assoc]
      exact ⟨_, (MergeScript.append hl hr hss hts).keep run⟩

/-! ## Agreement -/

/-- The kernel admits what has a script of separable sides. -/
theorem Kernel.admitMerge_of_script {base left right : Doc} {out : List Line} {ss : List (Seg Line)}
    (hss : MergeScript base.lines left.lines right.lines out ss)
    (hsep : (diff base left).Separable (diff base right)) :
    Kernel.admitMerge base left right = .merged ⟨out⟩ ⟨diff base left, diff base right⟩ := by
  have hscript := hss.isScript
  have hcombine : combine base (diff base left) (Commute.rebase (diff base right) (diff base left)) =
      .ok ⟨out⟩ := by
    rw [combine, hscript.apply_left, ← hss.both_eq]
    exact hscript.apply_rebase_right hsep
  simp only [Kernel.admitMerge, commute_of_separable hsep, hcombine]

/-- The two merge engines agree: where the kernel admits a merge and `merge3` has no
    conflicts their documents are the same, and where `merge3` has no conflicts and
    no region was changed identically by both sides the kernel admits its document. -/
theorem kernel_agrees_merge3 (base left right : Doc) :
    (∀ result witness, Kernel.admitMerge base left right = .merged result witness →
      (merge3 base left right).conflicts = [] → (merge3 base left right).merged = result) ∧
    ((merge3 base left right).conflicts = [] →
      (∀ step ∈ mergeCut base left right, step.left = step.base ∨ step.right = step.base) →
        ∃ witness, Kernel.admitMerge base left right =
          .merged (merge3 base left right).merged witness) := by
  have hcut := isCut_mergeCut base left right
  have hmergedBy : (diff base left).Separable (diff base right) →
      (∀ step ∈ mergeCut base left right, step.OneSided) →
        Kernel.admitMerge base left right =
          .merged (merge3 base left right).merged ⟨diff base left, diff base right⟩ := by
    intro hsep hside
    obtain ⟨ss, hss⟩ := hcut.exists_script hside
    rw [merge3_eq]
    exact Kernel.admitMerge_of_script hss hsep
  constructor
  · intro result witness hmerged hclean
    have hsep : (diff base left).Separable (diff base right) := by
      rw [Kernel.admitMerge] at hmerged
      cases hc : commute (diff base left) (diff base right) with
      | independent p' q' => exact (commute_eq_independent_iff.mp hc).1
      | overlap => simp [hc] at hmerged
    have hside : ∀ step ∈ mergeCut base left right, step.OneSided := by
      intro step hstep
      rw [merge3_eq, List.flatMap_eq_nil_iff] at hclean
      exact oneSided_of_separable (hcut.hunksSeparable_iff.mp hsep step hstep) (hclean step hstep)
    rw [hmergedBy hsep hside, Admission.merged.injEq] at hmerged
    exact hmerged.1
  · intro _ hside
    have hsep : (diff base left).Separable (diff base right) :=
      hcut.hunksSeparable_iff.mpr fun step hstep => hunksSeparable_of_oneSided (hside step hstep)
    exact ⟨_, hmergedBy hsep hside⟩

/-- Both directions on `a b c d`: the left side changes the first line, the right side
    drops the third and adds one at the end. -/
theorem kernel_agrees_merge3_disjoint_edits :
    let line := fun c : Char => [c]
    let base : Doc := ⟨[line 'a', line 'b', line 'c', line 'd']⟩
    let left : Doc := ⟨[line 'A', line 'b', line 'c', line 'd']⟩
    let right : Doc := ⟨[line 'a', line 'b', line 'd', line 'e']⟩
    (merge3 base left right).merged = ⟨[line 'A', line 'b', line 'd', line 'e']⟩ ∧
      ∃ witness, Kernel.admitMerge base left right = .merged (merge3 base left right).merged witness := by
  intro line base left right
  have hagree := kernel_agrees_merge3 base left right
  exact ⟨hagree.1 _ ⟨diff base left, diff base right⟩ (by decide +kernel) (by decide +kernel),
    hagree.2 (by decide +kernel) (by decide +kernel)⟩

/-! ## The witness checker -/

/-- The kernel's own answer for patches that commute always applies. -/
theorem Kernel.combine_eq_ok {base left right : Doc} {p' q' : Patch}
    (h : commute (diff base left) (diff base right) = .independent p' q') :
    ∃ result, combine base (diff base left) q' = .ok result := by
  obtain ⟨hsep, -, rfl⟩ := commute_eq_independent_iff.mp h
  obtain ⟨ss, hss, -⟩ := exists_isScript (fits_diff base left) (fits_diff base right) hsep
  refine ⟨⟨ss.flatMap Seg.onBoth⟩, ?_⟩
  rw [combine, hss.apply_left]
  exact hss.apply_rebase_right hsep

/-- An admission is of the two diffs, which commute. -/
theorem Kernel.admitMerge_eq_merged_iff {base left right result : Doc} {w : CommutationWitness} :
    admitMerge base left right = .merged result w ↔
      diff base left = w.p ∧ diff base right = w.q ∧
        ∃ p' q', commute w.p w.q = .independent p' q' ∧ combine base w.p q' = .ok result := by
  unfold admitMerge
  constructor
  · intro h
    cases hc : commute (diff base left) (diff base right) with
    | overlap => simp [hc] at h
    | independent p' q' =>
        cases hresult : combine base (diff base left) q' with
        | error e => simp [hc, hresult] at h
        | ok merged =>
            simp only [hc, hresult, Admission.merged.injEq] at h
            obtain ⟨rfl, rfl⟩ := h
            exact ⟨rfl, rfl, p', q', hc, hresult⟩
  · rintro ⟨hp, hq, p', q', hc, hresult⟩
    simp only [hp, hq, hc, hresult]

/-- The witness checker is exact: it accepts what the kernel admits for the sides the
    witness leads to, so whatever the kernel admits, and admission never falls back on a
    conflict for patches that commute. -/
theorem verifyWitness_exact (base r : Doc) (w : CommutationWitness) :
    (Kernel.verifyWitness base w r = true ↔
      ∃ left right, apply w.p base = .ok left ∧ apply w.q base = .ok right ∧
        Kernel.admitMerge base left right = .merged r w) ∧
    (∀ left right, Kernel.admitMerge base left right = .merged r w →
      Kernel.verifyWitness base w r = true) ∧
    ∀ left right p' q', commute (diff base left) (diff base right) = .independent p' q' →
      ∃ result, combine base (diff base left) q' = .ok result := by
  have hchecks : Kernel.verifyWitness base w r = true ↔
      ∃ left right, apply w.p base = .ok left ∧ apply w.q base = .ok right ∧
        Kernel.admitMerge base left right = .merged r w := by
    unfold Kernel.verifyWitness
    simp only [Kernel.admitMerge_eq_merged_iff]
    cases hp : apply w.p base with
    | error e => simp
    | ok left =>
        cases hq : apply w.q base with
        | error e => simp
        | ok right =>
            simp only [Except.ok.injEq, exists_and_left, exists_eq_left']
            -- the code re-diffs both documents: a witness that is not canonical is refused here
            by_cases hdiffs : diff base left ≠ w.p ∨ diff base right ≠ w.q
            · simp only [hdiffs, if_true, Bool.false_eq_true, false_iff]
              rintro ⟨hleft, hright, -⟩
              exact hdiffs.elim (· hleft) (· hright)
            · simp only [hdiffs, if_false]
              obtain ⟨hleft, hright⟩ := not_or.mp hdiffs
              simp only [ne_eq, Decidable.not_not] at hleft hright
              simp only [hleft, hright, true_and]
              cases commute w.p w.q with
              | overlap => simp
              | independent p' q' => cases hresult : combine base w.p q' <;> simp [hresult]
  refine ⟨hchecks, fun left right h => hchecks.mpr ⟨left, right, ?_, ?_, h⟩,
    fun left right p' q' => Kernel.combine_eq_ok⟩
  · rw [← (Kernel.admitMerge_eq_merged_iff.mp h).1, apply_diff]
  · rw [← (Kernel.admitMerge_eq_merged_iff.mp h).2.1, apply_diff]

/-- Where the three-way merge is clean, an admission is of its document. -/
theorem Kernel.merged_of_clean {base left right result : Doc} {w : CommutationWitness}
    (hadmitted : admitMerge base left right = .merged result w) (hclean : (merge3 base left right).conflicts = []) :
    (merge3 base left right).merged = result := by
  obtain ⟨hp, hq, p', q', hcommute, -⟩ := admitMerge_eq_merged_iff.mp hadmitted
  rw [← hp, ← hq] at hcommute
  have hsep := (commute_eq_independent_iff.mp hcommute).1
  have hcut := isCut_mergeCut base left right
  rw [merge3_eq] at hclean ⊢
  have hside : ∀ step ∈ mergeCut base left right, step.OneSided := fun step hstep =>
    oneSided_of_separable (hcut.hunksSeparable_iff.mp hsep step hstep) (List.flatMap_eq_nil_iff.mp hclean step hstep)
  obtain ⟨ss, hss⟩ := hcut.exists_script hside
  rw [admitMerge_of_script hss hsep, Admission.merged.injEq] at hadmitted
  exact hadmitted.1

/-! ## Refusals -/

/-- Conflict values that record something: there is one, and in each the sides differ. -/
def Recorded (cs : List Conflict) : Prop := cs ≠ [] ∧ ∀ c ∈ cs, c.left ≠ c.right

/-- A refusal is of patches that do not commute, with the conflicts of the merge. -/
theorem Kernel.admitMerge_eq_conflict_iff {base left right : Doc} {cs : List Conflict} :
    admitMerge base left right = .conflict cs ↔
      ¬ (diff base left).Separable (diff base right) ∧ (merge3 base left right).conflicts = cs := by
  unfold admitMerge
  by_cases hsep : (diff base left).Separable (diff base right)
  · have hc := commute_of_separable hsep
    obtain ⟨result, hresult⟩ := combine_eq_ok hc
    simp [hc, hresult, hsep]
  · cases hc : commute (diff base left) (diff base right) with
    | independent p' q' => exact absurd (commute_eq_independent_iff.mp hc).1 hsep
    | overlap => simp [hc, hsep]

/-- What a merge reports differs on the two sides. -/
theorem ne_of_mem_conflicts {base left right : Doc} :
    ∀ c ∈ (merge3 base left right).conflicts, c.left ≠ c.right := by
  rw [merge3_eq]
  intro c hc
  obtain ⟨step, -, hc⟩ := List.mem_flatMap.mp hc
  unfold CutStep.conflicts at hc
  split at hc
  · simp at hc
  · rename_i hdiffer
    obtain rfl := List.mem_singleton.mp hc
    exact fun h => hdiffer (.inr (.inr h))

/-- A refusal of the kernel records a conflict exactly where no region between mutual anchors
    was changed by both sides, or one was changed by them differently. -/
theorem refusal_recorded_iff (base left right : Doc) :
    ((∀ cs, Kernel.admitMerge base left right = .conflict cs → Recorded cs) ∧
      ∀ proposed cs, Kernel.certify base left right proposed = .conflict cs → Recorded cs) ↔
    (∀ step ∈ mergeCut base left right, step.OneSided) ∨
      ∃ step ∈ mergeCut base left right, ¬ step.OneSided ∧ step.left ≠ step.right := by
  have hcut := isCut_mergeCut base left right
  have hconflicts : (merge3 base left right).conflicts =
      (mergeCut base left right).flatMap CutStep.conflicts := by rw [merge3_eq]
  constructor
  · rintro ⟨hkernel, -⟩
    by_contra hneither
    obtain ⟨htwo, hsame⟩ := not_or.mp hneither
    have hclean : ∀ step ∈ mergeCut base left right, step.conflicts = [] := by
      intro step hstep
      refine CutStep.conflicts_eq_nil_iff.mpr (or_iff_not_imp_left.mpr fun hboth => ?_)
      by_contra hdiffer
      exact hsame ⟨step, hstep, hboth, hdiffer⟩
    -- without a region of two sides that differ, the kernel refuses with no conflict at all
    have hrefused : Kernel.admitMerge base left right = .conflict [] := by
      refine Kernel.admitMerge_eq_conflict_iff.mpr ⟨fun hsep => htwo fun step hstep => ?_, ?_⟩
      · exact oneSided_of_separable (hcut.hunksSeparable_iff.mp hsep step hstep) (hclean step hstep)
      · rw [hconflicts]
        exact List.flatMap_eq_nil_iff.mpr hclean
    exact (hkernel [] hrefused).1 rfl
  · intro hcond
    have hkernel : ∀ cs, Kernel.admitMerge base left right = .conflict cs → Recorded cs := by
      intro cs hrefused
      obtain ⟨hover, rfl⟩ := Kernel.admitMerge_eq_conflict_iff.mp hrefused
      refine ⟨?_, ne_of_mem_conflicts⟩
      rcases hcond with hside | ⟨step, hstep, hboth, hdiffer⟩
      · exact absurd (hcut.hunksSeparable_iff.mpr fun step hstep =>
          hunksSeparable_of_oneSided (hside step hstep)) hover
      · rw [hconflicts]
        intro hnil
        have hclean := List.flatMap_eq_nil_iff.mp hnil step hstep
        exact (CutStep.conflicts_eq_nil_iff.mp hclean).elim hboth hdiffer
    refine ⟨hkernel, fun proposed cs hrefused => ?_⟩
    unfold Kernel.certify at hrefused
    cases hadmitted : Kernel.admitMerge base left right with
    | conflict cs' =>
        simp only [hadmitted, Admission.conflict.injEq] at hrefused
        exact hrefused ▸ hkernel cs' hadmitted
    -- a refused proposal is recorded as the difference from what was merged
    | merged result w =>
        simp only [hadmitted] at hrefused
        split at hrefused
        · simp at hrefused
        · rename_i hdiffer
          obtain rfl := Admission.conflict.inj hrefused
          refine ⟨List.cons_ne_nil _ _, fun c hc heq => hdiffer ?_⟩
          obtain rfl := List.mem_singleton.mp hc
          exact congrArg Doc.mk heq

/-- Two sides that make the same change are refused without a conflict. -/
theorem admitMerge_refuses_same_change :
    let base : Doc := ⟨[['a']]⟩
    let side : Doc := ⟨[['b']]⟩
    Kernel.admitMerge base side side = .conflict [] ∧ ¬ Recorded [] := by
  refine ⟨by decide +kernel, fun h => h.1 rfl⟩

end Omoplata
