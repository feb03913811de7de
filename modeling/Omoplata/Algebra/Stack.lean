-- SUMMARY: The marker blocks that a rebased stack piles up, and when resolving removes them all.
import Omoplata.Algebra.Rebase
import Omoplata.Lib.Brackets

/-!
# Rebasing a stack

Each step of a stack merges against a document with the marker blocks of the steps before
as ordinary lines, so a conflict can put its markers around them or into them. Read as
brackets, the markers of such a document always balance, and resolving it removes them
all exactly if no block stands inside another.
-/

namespace Omoplata

open Brackets

namespace Rebase

/-- Whether a line is a start or an end marker. -/
def isMarker (line : Line) : Bool := isConflictStart line || isConflictEnd line

def MarkerFree (lines : List Line) : Prop := ∀ line ∈ lines, isMarker line = false

/-- A marker as a bracket. -/
def mark (line : Line) : Option Bool :=
  if isConflictStart line then some true else if isConflictEnd line then some false else none

/-- The markers of lines, as a word of brackets. -/
def marks (lines : List Line) : List Bool := lines.filterMap mark

theorem marks_append (xs ys : List Line) : marks (xs ++ ys) = marks xs ++ marks ys := List.filterMap_append

theorem not_both (line : Line) (h : isConflictStart line = true) : isConflictEnd line = false := by
  simp only [isConflictStart, Bool.or_eq_true, beq_iff_eq] at h
  rcases h with rfl | rfl <;> decide

theorem mark_eq_none_iff {line : Line} : mark line = none ↔ isMarker line = false := by
  unfold mark isMarker
  cases isConflictStart line <;> cases isConflictEnd line <;> simp

theorem marks_eq_nil_iff {lines : List Line} : marks lines = [] ↔ MarkerFree lines := by
  unfold marks MarkerFree
  rw [List.filterMap_eq_nil_iff]
  exact forall₂_congr fun line _ => mark_eq_none_iff

/-- No block is open behind the lines: they have as many start as end markers. -/
def Closed (lines : List Line) : Prop := lines.countP isConflictStart = lines.countP isConflictEnd

theorem level_marks (d : Int) (lines : List Line) :
    level d (marks lines) = d + lines.countP isConflictStart - lines.countP isConflictEnd := by
  induction lines generalizing d with
  | nil => simp [marks, level]
  | cons line lines ih =>
      show level d (marks ([line] ++ lines)) = _
      rw [marks_append, level_append, ih, List.countP_cons, List.countP_cons]
      cases hstart : isConflictStart line with
      | true => simp [marks, mark, hstart, not_both line hstart, level, step]; omega
      | false => cases hend : isConflictEnd line <;> simp [marks, mark, hstart, hend, level, step]; omega

theorem closed_iff {lines : List Line} : Closed lines ↔ level 0 (marks lines) = 0 := by
  unfold Closed
  rw [level_marks]
  omega

/-! ## What resolving leaves -/

/-- Resolving every region leaves no marker. -/
def ResolvesClean (doc : Doc) : Prop :=
  ∀ resolutions : List (List Line), (∀ chosen ∈ resolutions, MarkerFree chosen) →
    (conflictMarkerRegions doc).length ≤ resolutions.length → MarkerFree (resolveAll doc resolutions).lines

/-- With a resolution for each region, the plain lines are what may hold a marker. -/
private theorem markerFree_resolveScript_iff {resolutions : List (List Line)}
    (hfree : ∀ chosen ∈ resolutions, MarkerFree chosen) {cs : List Chunk} {k i : Nat}
    (hlength : k + (ranges cs i).length ≤ resolutions.length) :
    MarkerFree ((resolveScript resolutions cs k).flatMap ListEdit.Seg.onRight) ↔
      ∀ x, Chunk.plain x ∈ cs → isMarker x = false := by
  induction cs generalizing k i with
  | nil => simp [resolveScript, MarkerFree]
  | cons c cs ih =>
      cases c with
      | plain x =>
          have hrest := ih (k := k) (i := i + 1) hlength
          simp only [resolveScript, List.flatMap_cons, ListEdit.Seg.onRight, MarkerFree, List.forall_mem_append,
            List.forall_mem_singleton] at hrest ⊢
          rw [hrest]
          simp
      | region lines =>
          simp only [ranges, List.length_cons] at hlength
          have hrest := ih (k := k + 1) (i := i + lines.length) (by omega)
          obtain ⟨chosen, hchosen⟩ : ∃ chosen, resolutions[k]? = some chosen :=
            ⟨_, List.getElem?_eq_getElem (by omega)⟩
          have hclean : ∀ line ∈ chosen, isMarker line = false := hfree chosen (List.mem_of_getElem? hchosen)
          simp only [resolveScript, List.flatMap_cons, ListEdit.Seg.onRight, hchosen, Option.getD_some, MarkerFree,
            List.forall_mem_append] at hrest ⊢
          rw [hrest, and_iff_right hclean]
          simp

/-- The markers of a region without end markers inside: start markers, and one end marker. -/
private theorem marks_region {lines : List Line} (h : IsRegion lines) :
    ∃ n, marks lines = true :: (List.replicate n true ++ [false]) := by
  obtain ⟨start, body, stop, rfl, hstart, hstop, hbody⟩ := h
  refine ⟨(marks body).length, ?_⟩
  have htrue : marks body = List.replicate (marks body).length true := by
    refine List.eq_replicate_iff.mpr ⟨rfl, fun b hb => ?_⟩
    obtain ⟨x, hx, hmark⟩ := List.mem_filterMap.mp hb
    unfold mark at hmark
    rw [hbody x hx] at hmark
    split at hmark
    · exact (Option.some.inj hmark).symm
    · cases hmark
  have hfirst : mark start = some true := if_pos hstart
  have hlast : mark stop = some false := by
    unfold mark
    rw [if_neg fun h => ?_, if_pos hstop]
    rw [not_both stop h] at hstop
    cases hstop
  rw [← htrue]
  show (start :: (body ++ [stop])).filterMap mark = _
  rw [List.filterMap_cons_some hfirst, List.filterMap_append, List.filterMap_cons_some hlast]
  rfl

private theorem level_replicate (d : Int) (n : Nat) : level d (List.replicate n true) = d + n := by
  induction n generalizing d with
  | zero => simp [level]
  | succ n ih =>
      rw [List.replicate_succ, level, ih]
      simp only [step, if_true]
      omega

/-- The level behind a region: its closing marker takes one of its opening ones back. -/
private theorem level_region {lines : List Line} {n : Nat}
    (h : marks lines = true :: (List.replicate n true ++ [false])) (d : Int) : level d (marks lines) = d + n := by
  rw [h, level, level_append, level_replicate]
  simp only [level, step, if_true, Bool.false_eq_true, if_false]
  omega

/-- Chunks without a marker among their plain lines end no lower than they start, and where they
    end no higher they are flat. -/
private theorem flat_of_plain {cs : List Chunk} (hcs : WellFormed cs)
    (hplain : ∀ x, Chunk.plain x ∈ cs → isMarker x = false) (d : Int) :
    d ≤ level d (marks (cs.flatMap Chunk.text)) ∧
      (level d (marks (cs.flatMap Chunk.text)) ≤ d → ∀ l ∈ levels d (marks (cs.flatMap Chunk.text)), l ≤ d + 1) := by
  induction cs generalizing d with
  | nil => exact ⟨Int.le_refl d, fun _ => nofun⟩
  | cons c cs ih =>
      have hrest := fun d => ih (by cases c <;> exact hcs.2) (fun x hx => hplain x (List.mem_cons_of_mem _ hx)) d
      rw [List.flatMap_cons, marks_append]
      cases c with
      | plain x =>
          have hnone : marks (Chunk.plain x).text = [] :=
            marks_eq_nil_iff.mpr (List.forall_mem_singleton.mpr (hplain x List.mem_cons_self))
          rw [hnone]
          exact hrest d
      | region lines =>
          obtain ⟨n, hmarks⟩ := marks_region hcs.1
          have hregion := level_region hmarks d
          change _ ≤ level d (marks lines ++ _) ∧ (level d (marks lines ++ _) ≤ _ → ∀ l ∈ levels d (marks lines ++ _), _)
          rw [level_append, levels_append, hregion]
          obtain ⟨hle, hflat⟩ := hrest (d + n)
          refine ⟨by omega, fun hend l hl => ?_⟩
          -- the level does not fall behind the region, so it holds one opening marker only
          obtain rfl : n = 0 := by omega
          rcases List.mem_append.mp hl with hl | hl
          · simp only [hmarks, List.replicate_zero, List.nil_append, levels, step, if_true, Bool.false_eq_true,
              if_false, List.mem_cons, List.not_mem_nil, or_false] at hl
            omega
          · have := hflat (by omega) l hl
            omega

/-- Chunks whose markers are flat and balance have none among their plain lines. -/
private theorem plain_of_flat {cs : List Chunk} (hcs : WellFormed cs)
    (hnonneg : Nonneg 0 (marks (cs.flatMap Chunk.text))) (hlevel : level 0 (marks (cs.flatMap Chunk.text)) = 0)
    (hflat : Flat 0 (marks (cs.flatMap Chunk.text))) : ∀ x, Chunk.plain x ∈ cs → isMarker x = false := by
  induction cs with
  | nil => nofun
  | cons c cs ih =>
      rw [List.flatMap_cons, marks_append] at hnonneg hlevel hflat
      rw [level_append] at hlevel
      obtain ⟨hnonneg₁, hnonneg₂⟩ := nonneg_append.mp hnonneg
      obtain ⟨hflat₁, hflat₂⟩ := flat_append.mp hflat
      cases c with
      | plain x =>
          have hunmarked : isMarker x = false := by
            refine mark_eq_none_iff.mp ?_
            cases hmark : mark x with
            | none => rfl
            | some b =>
                have hmarks : marks (Chunk.plain x).text = [b] := List.filterMap_cons_some hmark
                rw [hmarks] at hlevel hnonneg₁
                cases b with
                | false => exact absurd (hnonneg₁ (-1) List.mem_cons_self) (by decide)
                | true =>
                    -- a start marker that is plain has no end marker behind it
                    have hstart : isConflictStart x = true := by
                      unfold mark at hmark
                      split at hmark
                      · assumption
                      · split at hmark <;> cases hmark
                    have hends : (cs.flatMap Chunk.text).countP isConflictEnd = 0 :=
                      List.countP_eq_zero.mpr fun y hy => by simp [hcs.1 hstart y hy]
                    rw [level_marks, hends] at hlevel
                    change 0 + 1 + _ - _ = _ at hlevel
                    omega
          have hnone : marks (Chunk.plain x).text = [] := marks_eq_nil_iff.mpr (List.forall_mem_singleton.mpr hunmarked)
          rw [hnone] at hlevel hnonneg₂ hflat₂
          intro y hy
          rcases List.mem_cons.mp hy with heq | hy
          · cases heq
            exact hunmarked
          · exact ih hcs.2 hnonneg₂ hlevel hflat₂ y hy
      | region lines =>
          obtain ⟨n, hmarks⟩ := marks_region hcs.1
          obtain rfl : n = 0 := by
            cases n with
            | zero => rfl
            | succ n =>
                change Flat 0 (marks lines) at hflat₁
                rw [hmarks] at hflat₁
                exact absurd (hflat₁ 2 (by simp [List.replicate_succ, levels, step])) (by decide)
          have hregion : level 0 (marks (Chunk.region lines).text) = 0 := level_region hmarks 0
          rw [hregion] at hlevel hnonneg₂ hflat₂
          intro y hy
          rcases List.mem_cons.mp hy with heq | hy
          · cases heq
          · exact ih hcs.2 hnonneg₂ hlevel hflat₂ y hy

/-- Resolving a document whose markers balance leaves none exactly if no block stands in another. -/
theorem resolvesClean_iff {doc : Doc} (hnonneg : Nonneg 0 (marks doc.lines)) (hlevel : level 0 (marks doc.lines) = 0) :
    ResolvesClean doc ↔ Flat 0 (marks doc.lines) := by
  obtain ⟨cs, hcs, htext⟩ := exists_chunks doc.lines
  have hregions : conflictMarkerRegions doc = ranges cs 0 := by
    unfold conflictMarkerRegions
    rw [← htext]
    exact markerLoop_text hcs _ 0 (Nat.le_refl _)
  have hresolve : ∀ resolutions,
      (resolveAll doc resolutions).lines = (resolveScript resolutions cs 0).flatMap ListEdit.Seg.onRight := by
    intro resolutions
    unfold resolveAll
    rw [← htext]
    exact resolveLoop_text resolutions hcs _ 0 (Nat.le_refl _)
  have hclean : ResolvesClean doc ↔ ∀ x, Chunk.plain x ∈ cs → isMarker x = false := by
    unfold ResolvesClean
    simp only [hresolve, hregions]
    constructor
    · intro h
      have hempty : ∀ chosen ∈ List.replicate (ranges cs 0).length ([] : List Line), MarkerFree chosen := by
        intro chosen hchosen
        rw [List.eq_of_mem_replicate hchosen]
        exact fun _ => nofun
      have hlength : (ranges cs 0).length ≤ (List.replicate (ranges cs 0).length ([] : List Line)).length := by simp
      exact (markerFree_resolveScript_iff (i := 0) hempty (by simp)).mp (h _ hempty hlength)
    · intro h resolutions hfree hlength
      exact (markerFree_resolveScript_iff (i := 0) hfree (by omega)).mpr h
  rw [hclean]
  rw [← htext] at hnonneg hlevel ⊢
  constructor
  · intro hplain
    have hflat := (flat_of_plain hcs hplain 0).2 (Int.le_of_eq hlevel)
    exact fun l hl => by simpa using hflat l hl
  · exact plain_of_flat hcs hnonneg hlevel

/-! ## A step of a stack -/

/-- The regions that a version and the document it is rebased onto changed differently, from the
    previous version, stand outside the blocks of that document and hold no marker of it. -/
def ClearOfBlocks (prev version acc : Doc) : Prop :=
  ∀ before s after, mergeCut prev version acc = before ++ s :: after → s.conflicts ≠ [] →
    Closed (before.flatMap (fun s => s.run ++ s.right) ++ s.run) ∧ MarkerFree s.right

/-- A rebase as brackets: where both sides changed the base differently, a pair of markers is put
    around the lines of the document it is onto. -/
def parts (steps : List CutStep) : Parts :=
  steps.map fun s => (decide (s.conflicts ≠ []), marks s.right)

theorem marks_relabel (merged : Doc) : marks (relabelToRebaseMarkers merged).lines = marks merged.lines := by
  unfold marks relabelToRebaseMarkers
  rw [List.filterMap_map]
  refine List.filterMap_congr fun line _ => ?_
  show mark (if line = conflictStart then rebaseMine else if line = conflictEnd then rebaseOnto else line) = mark line
  split
  · rename_i heq
    rw [heq]
    decide
  · split
    · rename_i heq
      rw [heq]
      decide
    · rfl

section Step

variable {prev version acc : Doc}

/-- The lines of a cut that come from a base and a left side without markers have none. -/
private theorem markerFree_of_mem (hprev : MarkerFree prev.lines) (hversion : MarkerFree version.lines) {s : CutStep}
    (hs : s ∈ mergeCut prev version acc) :
    marks s.run = [] ∧ marks s.base = [] ∧ marks s.left = [] := by
  obtain ⟨hbase, hleft, -⟩ := (isCut_mergeCut prev version acc).flatMap_eq
  have hmem : ∀ {f : CutStep → List Line} {lines : List Line},
      (mergeCut prev version acc).flatMap f = lines → MarkerFree lines → MarkerFree (f s) := by
    intro f lines heq hfree line hline
    exact hfree line (heq ▸ List.mem_flatMap.mpr ⟨s, hs, hline⟩)
  have hb := hmem hbase hprev
  have hl := hmem hleft hversion
  refine ⟨marks_eq_nil_iff.mpr fun x hx => hb x (List.mem_append_left _ hx),
    marks_eq_nil_iff.mpr fun x hx => hb x (List.mem_append_right _ hx),
    marks_eq_nil_iff.mpr fun x hx => hl x (List.mem_append_right _ hx)⟩

/-- What a step of a cut writes, as brackets. -/
private theorem marks_output {s : CutStep} (hrun : marks s.run = []) (hbase : marks s.base = [])
    (hleft : marks s.left = []) : marks s.output = wrap (decide (s.conflicts ≠ []), marks s.right) := by
  unfold CutStep.output CutStep.conflicts wrap
  rw [marks_append, hrun, List.nil_append]
  by_cases hl : s.left = s.base
  · simp [hl]
  · by_cases hr : s.right = s.base ∨ s.left = s.right
    · have hright : marks s.right = [] := by
        rcases hr with heq | heq
        · rw [heq, hbase]
        · rw [← heq, hleft]
      simp [hl, hr, hleft, hright]
    · have hsep : marks [conflictSep] = [] := by decide
      have hstart : marks [conflictStart] = [true] := by decide
      have hend : marks [conflictEnd] = [false] := by decide
      simp only [if_neg hl, if_neg hr, marks_append, hstart, hleft, hsep, hend]
      simp [hl, hr]

/-- The markers of a rebased document are those of the one it is onto, with those put in around
    the regions both sides changed differently. -/
theorem marks_rebase (hprev : MarkerFree prev.lines) (hversion : MarkerFree version.lines) :
    marks acc.lines = plain (parts (mergeCut prev version acc)) ∧
      marks (rebase prev version acc).result.lines = wrapped (parts (mergeCut prev version acc)) := by
  have hmarks : ∀ (f : CutStep → List Line) (steps : List CutStep),
      marks (steps.flatMap f) = steps.flatMap fun s => marks (f s) := fun f steps => List.filterMap_flatMap
  have hfree := fun s (hs : s ∈ mergeCut prev version acc) => markerFree_of_mem hprev hversion hs
  constructor
  · conv_lhs => rw [← (isCut_mergeCut prev version acc).flatMap_eq.2.2]
    rw [hmarks, plain, parts, List.flatMap_map]
    refine List.flatMap_congr fun s hs => ?_
    rw [marks_append, (hfree s hs).1, List.nil_append]
  · show marks (relabelToRebaseMarkers (merge3 prev version acc).merged).lines = _
    rw [marks_relabel, merge3_eq, hmarks, wrapped, parts, List.flatMap_map]
    refine List.flatMap_congr fun s hs => ?_
    obtain ⟨hrun, hbase, hleft⟩ := hfree s hs
    exact marks_output hrun hbase hleft

theorem clearOfBlocks_iff (hprev : MarkerFree prev.lines) (hversion : MarkerFree version.lines) :
    ClearOfBlocks prev version acc ↔ Apart 0 (parts (mergeCut prev version acc)) := by
  have hfree := fun s (hs : s ∈ mergeCut prev version acc) => markerFree_of_mem hprev hversion hs
  have hclosed : ∀ {before s after}, mergeCut prev version acc = before ++ s :: after →
      (Closed (before.flatMap (fun s => s.run ++ s.right) ++ s.run) ↔ level 0 (plain (parts before)) = 0) := by
    intro before s after heq
    have hbefore : marks (before.flatMap fun s => s.run ++ s.right) = plain (parts before) := by
      unfold plain parts
      rw [List.flatMap_map]
      refine List.filterMap_flatMap.trans (List.flatMap_congr fun s' hs' => ?_)
      have hrun := (hfree s' (heq ▸ List.mem_append_left _ hs')).1
      show marks (s'.run ++ s'.right) = _
      rw [marks_append, hrun, List.nil_append]
    have hrun := (hfree s (heq ▸ List.mem_append_right _ List.mem_cons_self)).1
    rw [closed_iff, marks_append, hbefore, hrun, List.append_nil]
  rw [apart_iff]
  constructor
  · intro h before p after heq hp
    obtain ⟨before', rest, hsteps, rfl, hrest⟩ := List.map_eq_append_iff.mp heq
    obtain ⟨s, after', rfl, rfl, -⟩ := List.map_eq_cons_iff.mp hrest
    obtain ⟨hbefore, hright⟩ := h before' s after' hsteps (of_decide_eq_true hp)
    exact ⟨(hclosed hsteps).mp hbefore, marks_eq_nil_iff.mpr hright⟩
  · intro h before s after heq hs
    have hparts : parts (mergeCut prev version acc) =
        parts before ++ (decide (s.conflicts ≠ []), marks s.right) :: parts after := by
      rw [heq, parts, List.map_append, List.map_cons, parts, parts]
    obtain ⟨hbefore, hright⟩ := h _ _ _ hparts (decide_eq_true hs)
    exact ⟨(hclosed heq).mpr hbefore, marks_eq_nil_iff.mp hright⟩

/-- The markers of a rebased document balance as those of the one it is onto do, and no block of
    it stands in another exactly if none did before and the step is clear of the blocks. -/
theorem balance_rebase (hprev : MarkerFree prev.lines) (hversion : MarkerFree version.lines)
    (hnonneg : Nonneg 0 (marks acc.lines)) (hlevel : level 0 (marks acc.lines) = 0) :
    Nonneg 0 (marks (rebase prev version acc).result.lines) ∧ level 0 (marks (rebase prev version acc).result.lines) = 0 ∧
      (Flat 0 (marks (rebase prev version acc).result.lines) ↔
        Flat 0 (marks acc.lines) ∧ ClearOfBlocks prev version acc) := by
  have hplain : marks acc.lines = plain (parts (mergeCut prev version acc)) := (marks_rebase hprev hversion).1
  have hwrapped := (@marks_rebase _ _ acc hprev hversion).2
  rw [hplain] at hnonneg hlevel
  rw [clearOfBlocks_iff hprev hversion, hplain, hwrapped, level_wrapped]
  exact ⟨nonneg_wrapped (Int.le_refl 0) hnonneg, hlevel, flat_wrapped_iff (Int.le_refl 0) hnonneg⟩

end Step

end Rebase

open Rebase

/-- Every step of a stack is clear of the blocks of the steps before. -/
def StackClear (base : Doc) : List Doc → Doc → Prop
  | [], _ => True
  | version :: stack, onto => ClearOfBlocks base version onto ∧ StackClear version stack (rebase base version onto).result

/-- The last result of a stack, from a document whose markers balance. -/
theorem rebaseStack_flat_iff {base onto : Doc} {stack : List Doc} {last : Rebased} (hbase : MarkerFree base.lines)
    (hstack : ∀ version ∈ stack, MarkerFree version.lines) (hnonneg : Nonneg 0 (marks onto.lines))
    (hlevel : level 0 (marks onto.lines) = 0) (hlast : (rebaseStack base stack onto).getLast? = some last) :
    Nonneg 0 (marks last.result.lines) ∧ level 0 (marks last.result.lines) = 0 ∧
      (Flat 0 (marks last.result.lines) ↔ Flat 0 (marks onto.lines) ∧ StackClear base stack onto) := by
  induction stack generalizing base onto with
  | nil => cases hlast
  | cons version stack ih =>
      have hversion := hstack version List.mem_cons_self
      obtain ⟨hnonneg', hlevel', hflat⟩ := balance_rebase hbase hversion hnonneg hlevel
      cases stack with
      | nil =>
          obtain rfl : rebase base version onto = last := Option.some.inj hlast
          exact ⟨hnonneg', hlevel', hflat.trans (and_congr_right fun _ => (and_iff_left trivial).symm)⟩
      | cons next stack =>
          have hlast' : (rebaseStack version (next :: stack) (rebase base version onto).result).getLast? = some last := by
            rw [← hlast]
            rfl
          obtain ⟨hn, hl, hiff⟩ := ih hversion (fun v hv => hstack v (List.mem_cons_of_mem _ hv)) hnonneg' hlevel' hlast'
          refine ⟨hn, hl, hiff.trans ?_⟩
          rw [hflat, and_assoc]
          rfl

/-- Resolving the last result of a stack removes every marker exactly if every step of the stack is
    clear of the blocks of the steps before. -/
theorem rebaseStack_resolves_iff {base onto : Doc} {stack : List Doc} (hbase : MarkerFree base.lines)
    (hstack : ∀ version ∈ stack, MarkerFree version.lines) (honto : MarkerFree onto.lines) :
    (∀ last, (rebaseStack base stack onto).getLast? = some last → ResolvesClean last.result) ↔ StackClear base stack onto := by
  have hmarks := marks_eq_nil_iff.mpr honto
  cases hlast : (rebaseStack base stack onto).getLast? with
  | none =>
      obtain rfl : stack = [] := by
        cases stack with
        | nil => rfl
        | cons version stack => simp [rebaseStack] at hlast
      exact ⟨fun _ => trivial, fun _ _ => nofun⟩
  | some last =>
      obtain ⟨hnonneg, hlevel, hflat⟩ := rebaseStack_flat_iff hbase hstack (by rw [hmarks]; exact fun _ => nofun)
        (by rw [hmarks]; rfl) hlast
      rw [and_iff_right (by rw [hmarks]; exact fun _ => nofun)] at hflat
      rw [← hflat, ← resolvesClean_iff hnonneg hlevel]
      exact ⟨fun h => h last rfl, fun h last' heq => Option.some.inj heq ▸ h⟩

instance (lines : List Line) : Decidable (MarkerFree lines) := by unfold MarkerFree; infer_instance

/-- A document of one-letter lines. -/
def letters (s : String) : Doc := ⟨s.toList.map fun c => [c]⟩

/-- Two steps with conflicts at different lines. -/
theorem rebaseStack_resolves_apart :
    ∃ last, (rebaseStack (letters "asz") [letters "bsz", letters "bsw"] (letters "csq")).getLast? = some last ∧
      ResolvesClean last.result := by
  have hbase : MarkerFree (letters "asz").lines := by decide
  have hfirst : MarkerFree (letters "bsz").lines := by decide
  have hsecond : MarkerFree (letters "bsw").lines := by decide
  have hstack : ∀ version ∈ [letters "bsz", letters "bsw"], MarkerFree version.lines := by simp [hfirst, hsecond]
  refine ⟨_, rfl, (rebaseStack_resolves_iff hbase hstack (by decide)).mpr
    ⟨(clearOfBlocks_iff hbase hfirst).mpr ?_, (clearOfBlocks_iff hfirst hsecond).mpr ?_, trivial⟩ _ rfl⟩
  · have hparts : parts (mergeCut (letters "asz") (letters "bsz") (letters "csq")) =
        [(true, []), (false, []), (false, [])] := by decide +kernel
    simp [hparts, Apart]
  · have hparts : parts (mergeCut (letters "bsz") (letters "bsw")
        (rebase (letters "asz") (letters "bsz") (letters "csq")).result) =
          [(false, [true]), (false, [false]), (true, []), (false, [])] := by decide +kernel
    simp [hparts, Apart, level, step]

/-- The second step conflicts with the block of the first, and puts its markers around it. -/
theorem rebaseStack_nested :
    MarkerFree (letters "a").lines ∧ (∀ version ∈ [letters "b", letters "d"], MarkerFree version.lines) ∧
      MarkerFree (letters "c").lines ∧
      ¬ ∀ last, (rebaseStack (letters "a") [letters "b", letters "d"] (letters "c")).getLast? = some last →
        ResolvesClean last.result := by
  refine ⟨by decide, by decide, by decide, fun h => ?_⟩
  have hclean := h _ rfl [[]] (by decide) (by decide +kernel)
  exact absurd hclean (by decide +kernel)

end Omoplata
