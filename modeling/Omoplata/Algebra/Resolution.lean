-- SUMMARY: Resolving a merge or a rebase replaces the renderings of its conflicts and nothing else.
import Omoplata.Algebra.Relabel
import Omoplata.Algebra.Stack

/-!
# Resolving what a merge rendered

A merge writes text and renderings of conflicts in turns. Where no line of the documents is a marker, the
text between the renderings holds none, so the scan for regions finds the renderings, one by one, and
resolving puts the resolutions in their places.
-/

namespace Omoplata

namespace Rebase

/-! ## Text around blocks -/

/-- Blocks with text before, between and behind them. -/
def interleave : List (List Line) → List (List Line) → List Line
  | gap :: gaps, block :: blocks => gap ++ (block ++ interleave gaps blocks)
  | gaps, _ => gaps.flatten

/-- Where the blocks stand, in lines that start at line `i`. -/
def blockRanges : List (List Line) → List (List Line) → Nat → List Range
  | gap :: gaps, block :: blocks, i =>
      ⟨i + gap.length, i + gap.length + block.length⟩ ::
        blockRanges gaps blocks (i + gap.length + block.length)
  | _, _, _ => []

/-- The first blocks replaced by as many resolutions as there are. -/
def replaceBlocks (blocks resolutions : List (List Line)) : List (List Line) :=
  resolutions.take blocks.length ++ blocks.drop resolutions.length

/-- Text and blocks as chunks: a block is a region. -/
def blockChunks : List (List Line) → List (List Line) → List Chunk
  | gap :: gaps, block :: blocks => gap.map .plain ++ (.region block :: blockChunks gaps blocks)
  | gaps, _ => gaps.flatten.map .plain

theorem markerFree_flatten {gaps : List (List Line)} (hgaps : ∀ gap ∈ gaps, MarkerFree gap) : MarkerFree gaps.flatten := by
  intro line hline
  obtain ⟨gap, hgap, hmem⟩ := List.mem_flatten.mp hline
  exact hgaps gap hgap line hmem

private theorem wellFormed_plain {lines : List Line} (hfree : MarkerFree lines) {cs : List Chunk} (hcs : WellFormed cs) :
    WellFormed (lines.map .plain ++ cs) := by
  induction lines with
  | nil => exact hcs
  | cons line lines ih =>
      have hline : isMarker line = false := hfree line List.mem_cons_self
      refine ⟨fun hstart => ?_, ih fun x hx => hfree x (List.mem_cons_of_mem _ hx)⟩
      unfold isMarker at hline
      rw [hstart] at hline
      cases hline

private theorem ranges_plain (lines : List Line) (cs : List Chunk) (i : Nat) :
    ranges (lines.map .plain ++ cs) i = ranges cs (i + lines.length) := by
  induction lines generalizing i with
  | nil => rfl
  | cons line lines ih =>
      refine (ih (i + 1)).trans (congrArg (ranges cs) ?_)
      rw [List.length_cons]
      omega

theorem text_blockChunks (gaps blocks : List (List Line)) :
    (blockChunks gaps blocks).flatMap Chunk.text = interleave gaps blocks := by
  induction blocks generalizing gaps with
  | nil =>
      cases gaps with
      | nil => rfl
      | cons gap gaps => exact flatMap_text_plain (gap :: gaps).flatten
  | cons block blocks ih =>
      cases gaps with
      | nil => rfl
      | cons gap gaps =>
          unfold blockChunks interleave
          rw [List.flatMap_append, flatMap_text_plain, List.flatMap_cons, ih]
          rfl

theorem wellFormed_blockChunks {gaps blocks : List (List Line)} (hgaps : ∀ gap ∈ gaps, MarkerFree gap)
    (hblocks : ∀ block ∈ blocks, IsRegion block) : WellFormed (blockChunks gaps blocks) := by
  have hflat : ∀ {gaps : List (List Line)}, (∀ gap ∈ gaps, MarkerFree gap) →
      WellFormed (gaps.flatten.map .plain) := by
    intro gaps hgaps
    have hwf : WellFormed (gaps.flatten.map .plain ++ []) := wellFormed_plain (markerFree_flatten hgaps) trivial
    rwa [List.append_nil] at hwf
  induction blocks generalizing gaps with
  | nil => cases gaps <;> exact hflat hgaps
  | cons block blocks ih =>
      cases gaps with
      | nil => trivial
      | cons gap gaps =>
          exact wellFormed_plain (hgaps gap List.mem_cons_self) ⟨hblocks block List.mem_cons_self,
            ih (fun g hg => hgaps g (List.mem_cons_of_mem _ hg)) fun b hb => hblocks b (List.mem_cons_of_mem _ hb)⟩

theorem ranges_blockChunks (gaps blocks : List (List Line)) (i : Nat) :
    ranges (blockChunks gaps blocks) i = blockRanges gaps blocks i := by
  have hflat : ∀ (gaps : List (List Line)) (i : Nat), ranges (gaps.flatten.map .plain) i = [] := by
    intro gaps i
    have hplain := ranges_plain gaps.flatten [] i
    rwa [List.append_nil] at hplain
  induction blocks generalizing gaps i with
  | nil => cases gaps <;> exact hflat _ i
  | cons block blocks ih =>
      cases gaps with
      | nil => rfl
      | cons gap gaps =>
          unfold blockChunks blockRanges
          rw [ranges_plain, ranges, ih]

/-- The script that resolves the blocks writes each resolution in the place of its block. -/
theorem resolveScript_blockChunks (resolutions : List (List Line)) {gaps blocks : List (List Line)} (k : Nat)
    (hlength : gaps.length = blocks.length + 1) :
    (resolveScript resolutions (blockChunks gaps blocks) k).flatMap ListEdit.Seg.onRight =
      interleave gaps (replaceBlocks blocks (resolutions.drop k)) := by
  induction blocks generalizing gaps k with
  | nil =>
      have hplain : (resolveScript resolutions (gaps.flatten.map .plain) k).flatMap ListEdit.Seg.onRight = gaps.flatten := by
        have hscript : resolveScript resolutions (gaps.flatten.map .plain ++ []) k = gaps.flatten.map .keep ++ [] :=
          resolveScript_plain gaps.flatten [] k
        rw [List.append_nil, List.append_nil] at hscript
        rw [hscript, ListEdit.flatMap_keep fun _ => rfl]
      have hnone : replaceBlocks [] (resolutions.drop k) = [] := by simp [replaceBlocks]
      rw [hnone]
      cases gaps with
      | nil => rfl
      | cons gap gaps =>
          exact hplain
  | cons block blocks ih =>
      cases gaps with
      | nil => cases hlength
      | cons gap gaps =>
          unfold blockChunks
          rw [resolveScript_plain, List.flatMap_append, ListEdit.flatMap_keep fun _ => rfl, resolveScript,
            List.flatMap_cons, ih (k + 1) (Nat.succ.inj hlength)]
          have hreplace : replaceBlocks (block :: blocks) (resolutions.drop k) =
              resolutions[k]?.getD block :: replaceBlocks blocks (resolutions.drop (k + 1)) := by
            unfold replaceBlocks
            by_cases hk : k < resolutions.length
            · rw [List.drop_eq_getElem_cons hk, List.getElem?_eq_getElem hk]
              rfl
            · have hnone : resolutions.drop k = [] := List.drop_eq_nil_of_le (by omega)
              have hnone' : resolutions.drop (k + 1) = [] := List.drop_eq_nil_of_le (by omega)
              rw [hnone, hnone', List.getElem?_eq_none (by omega)]
              simp
          rw [hreplace]
          rfl

/-- Text without markers around regions: the scan finds the blocks, and resolving replaces them. -/
theorem resolveAll_interleave {doc : Doc} {gaps blocks : List (List Line)} (hdoc : doc.lines = interleave gaps blocks)
    (hlength : gaps.length = blocks.length + 1) (hgaps : ∀ gap ∈ gaps, MarkerFree gap)
    (hblocks : ∀ block ∈ blocks, IsRegion block) :
    conflictMarkerRegions doc = blockRanges gaps blocks 0 ∧
      ∀ resolutions, (resolveAll doc resolutions).lines = interleave gaps (replaceBlocks blocks resolutions) := by
  have hwf := wellFormed_blockChunks hgaps hblocks
  have htext : (blockChunks gaps blocks).flatMap Chunk.text = doc.lines := by
    rw [text_blockChunks, hdoc]
  constructor
  · unfold conflictMarkerRegions
    rw [← htext, markerLoop_text hwf _ 0 (Nat.le_refl _), ranges_blockChunks]
  · intro resolutions
    unfold resolveAll
    rw [← htext, resolveLoop_text resolutions hwf _ 0 (Nat.le_refl _),
      resolveScript_blockChunks resolutions 0 hlength, List.drop_zero]

theorem markerFree_interleave {gaps blocks : List (List Line)} (hgaps : ∀ gap ∈ gaps, MarkerFree gap)
    (hblocks : ∀ block ∈ blocks, MarkerFree block) : MarkerFree (interleave gaps blocks) := by
  induction blocks generalizing gaps with
  | nil => cases gaps <;> exact markerFree_flatten hgaps
  | cons block blocks ih =>
      cases gaps with
      | nil => exact fun _ => nofun
      | cons gap gaps =>
          refine List.forall_mem_append.mpr ⟨hgaps gap List.mem_cons_self, List.forall_mem_append.mpr
            ⟨hblocks block List.mem_cons_self, ?_⟩⟩
          exact ih (fun g hg => hgaps g (List.mem_cons_of_mem _ hg)) fun b hb => hblocks b (List.mem_cons_of_mem _ hb)

/-! ## What a merge renders -/

/-- A conflict between two markers. -/
def rendering (start stop : Line) (c : Conflict) : List Line :=
  [start] ++ c.left ++ [conflictSep] ++ c.right ++ [stop]

/-- The text that the steps of a cut write around their conflicts, behind text written before. -/
def gapsOf (text : List Line) : List CutStep → List (List Line)
  | [] => [text]
  | s :: steps => if s.conflicts = [] then gapsOf (text ++ s.output) steps else (text ++ s.run) :: gapsOf [] steps

/-- What a step with a conflict writes. -/
private theorem conflict_of_ne_nil {s : CutStep} (h : s.conflicts ≠ []) :
    s.conflicts = [⟨s.base, s.left, s.right⟩] ∧
      s.output = s.run ++ rendering conflictStart conflictEnd ⟨s.base, s.left, s.right⟩ ∧
      s.rebased = s.run ++ rendering rebaseMine rebaseOnto ⟨s.base, s.left, s.right⟩ := by
  unfold CutStep.conflicts at h ⊢
  split at h
  · exact absurd rfl h
  · rename_i hne
    have hleft : s.left ≠ s.base := fun heq => hne (.inl heq)
    have hright : ¬(s.right = s.base ∨ s.left = s.right) := fun heq => hne (.inr heq)
    unfold CutStep.output CutStep.rebased
    rw [if_neg hne, if_neg hleft, if_neg hright, if_neg hleft, if_neg hright]
    exact ⟨rfl, rfl, rfl⟩

theorem length_gapsOf (text : List Line) (steps : List CutStep) :
    (gapsOf text steps).length = (steps.flatMap CutStep.conflicts).length + 1 := by
  induction steps generalizing text with
  | nil => rfl
  | cons s steps ih =>
      unfold gapsOf
      rw [List.flatMap_cons, List.length_append]
      split
      · rename_i hsettled
        rw [ih, hsettled, List.length_nil, Nat.zero_add]
      · rename_i hconflict
        rw [List.length_cons, ih, (conflict_of_ne_nil hconflict).1, List.length_singleton]
        omega

/-- Steps that write a settled region as it is and a conflict between two markers write text around
    renderings. -/
theorem interleave_gapsOf {write : CutStep → List Line} {start stop : Line} {steps : List CutStep}
    (hsettled : ∀ s ∈ steps, s.conflicts = [] → write s = s.output)
    (hconflict : ∀ s ∈ steps, s.conflicts ≠ [] → write s = s.run ++ rendering start stop ⟨s.base, s.left, s.right⟩)
    (text : List Line) :
    interleave (gapsOf text steps) ((steps.flatMap CutStep.conflicts).map (rendering start stop)) =
      text ++ steps.flatMap write := by
  induction steps generalizing text with
  | nil => simp [gapsOf, interleave]
  | cons s steps ih =>
      have hrest := ih (fun t ht => hsettled t (List.mem_cons_of_mem _ ht))
        fun t ht => hconflict t (List.mem_cons_of_mem _ ht)
      unfold gapsOf
      rw [List.flatMap_cons, List.flatMap_cons]
      split
      · rename_i hnone
        rw [hnone, List.nil_append, hrest, hsettled s List.mem_cons_self hnone, List.append_assoc]
      · rename_i hsome
        rw [hconflict s List.mem_cons_self hsome, (conflict_of_ne_nil hsome).1, List.singleton_append, List.map_cons,
          interleave, hrest]
        simp only [List.nil_append, List.append_assoc]

theorem markerFree_gapsOf {text : List Line} {steps : List CutStep} (htext : MarkerFree text)
    (hsteps : ∀ s ∈ steps, MarkerFree s.run ∧ MarkerFree s.left ∧ MarkerFree s.right) :
    ∀ gap ∈ gapsOf text steps, MarkerFree gap := by
  induction steps generalizing text with
  | nil => exact List.forall_mem_singleton.mpr htext
  | cons s steps ih =>
      obtain ⟨hrun, hleft, hright⟩ := hsteps s List.mem_cons_self
      have hrest := fun t ht => hsteps t (List.mem_cons_of_mem _ ht)
      unfold gapsOf
      split
      · rename_i hsettled
        apply ih (List.forall_mem_append.mpr ⟨htext, ?_⟩) hrest
        unfold CutStep.conflicts at hsettled
        unfold CutStep.output
        refine List.forall_mem_append.mpr ⟨hrun, ?_⟩
        split
        · exact hright
        · rename_i hchanged
          split at hsettled
          · rename_i hsame
            rw [if_pos (hsame.resolve_left hchanged)]
            exact hleft
          · cases hsettled
      · exact List.forall_mem_cons.mpr ⟨List.forall_mem_append.mpr ⟨htext, hrun⟩, ih (fun _ => nofun) hrest⟩

/-- A step copies lines of the documents alone. -/
theorem markerFree_content {s : CutStep} (hrun : MarkerFree s.run) (hleft : MarkerFree s.left)
    (hright : MarkerFree s.right) : MarkerFree s.content := by
  unfold CutStep.content
  refine List.forall_mem_append.mpr ⟨hrun, ?_⟩
  split
  · exact hright
  · split
    · exact hleft
    · exact List.forall_mem_append.mpr ⟨hleft, hright⟩

theorem not_mergeMarker {line : Line} (h : isMarker line = false) : isMergeMarker line = false := by
  unfold isMarker isConflictStart isConflictEnd at h
  unfold isMergeMarker
  cases hstart : line == conflictStart <;> cases hend : line == conflictEnd <;> simp_all

theorem isRegion_rendering {start stop : Line} (hstart : isConflictStart start = true)
    (hstop : isConflictEnd stop = true) {c : Conflict} (hleft : MarkerFree c.left) (hright : MarkerFree c.right) :
    IsRegion (rendering start stop c) := by
  have hend : ∀ {lines : List Line}, MarkerFree lines → ∀ x ∈ lines, isConflictEnd x = false := by
    intro lines hfree x hx
    exact (Bool.or_eq_false_iff.mp (hfree x hx)).2
  refine ⟨start, c.left ++ [conflictSep] ++ c.right, stop, ?_, hstart, hstop, ?_⟩
  · simp [rendering]
  · have hsep : isConflictEnd conflictSep = false := by decide
    exact List.forall_mem_append.mpr
      ⟨List.forall_mem_append.mpr ⟨hend hleft, List.forall_mem_singleton.mpr hsep⟩, hend hright⟩

/-- A document of text and blocks, in which the blocks are what the scan finds and what resolving replaces. -/
structure Resolvable (doc : Doc) (gaps blocks : List (List Line)) : Prop where
  lines : doc.lines = interleave gaps blocks
  regions : conflictMarkerRegions doc = blockRanges gaps blocks 0
  replaced : ∀ resolutions, (resolveAll doc resolutions).lines = interleave gaps (replaceBlocks blocks resolutions)
  resolved : ∀ resolutions, resolutions.length = blocks.length →
    (resolveAll doc resolutions).lines = interleave gaps resolutions ∧
      ((∀ chosen ∈ resolutions, MarkerFree chosen) → MarkerFree (resolveAll doc resolutions).lines)

theorem Resolvable.of_interleave {doc : Doc} {gaps blocks : List (List Line)} (hdoc : doc.lines = interleave gaps blocks)
    (hlength : gaps.length = blocks.length + 1) (hgaps : ∀ gap ∈ gaps, MarkerFree gap)
    (hblocks : ∀ block ∈ blocks, IsRegion block) : Resolvable doc gaps blocks := by
  obtain ⟨hregions, hreplaced⟩ := resolveAll_interleave hdoc hlength hgaps hblocks
  refine ⟨hdoc, hregions, hreplaced, fun resolutions hall => ?_⟩
  have hwhole : replaceBlocks blocks resolutions = resolutions := by
    unfold replaceBlocks
    rw [← hall, List.take_length, hall, List.drop_length, List.append_nil]
  have hresolved : (resolveAll doc resolutions).lines = interleave gaps resolutions := by
    rw [hreplaced, hwhole]
  refine ⟨hresolved, fun hfree => ?_⟩
  rw [hresolved]
  exact markerFree_interleave hgaps hfree

/-- The steps of a cut of documents without markers hold none. -/
theorem markerFree_mergeCut {base left right : Doc} (hbase : MarkerFree base.lines) (hleft : MarkerFree left.lines)
    (hright : MarkerFree right.lines) :
    ∀ s ∈ mergeCut base left right, MarkerFree s.run ∧ MarkerFree s.left ∧ MarkerFree s.right := by
  obtain ⟨hcutBase, hcutLeft, hcutRight⟩ := (isCut_mergeCut base left right).flatMap_eq
  intro s hs
  have hmem : ∀ {f : CutStep → List Line} {lines : List Line},
      (mergeCut base left right).flatMap f = lines → MarkerFree lines → MarkerFree (f s) := by
    intro f lines heq hlines line hline
    exact hlines line (heq ▸ List.mem_flatMap.mpr ⟨s, hs, hline⟩)
  obtain ⟨hrun, -⟩ := List.forall_mem_append.mp (hmem hcutBase hbase)
  obtain ⟨-, hl⟩ := List.forall_mem_append.mp (hmem hcutLeft hleft)
  obtain ⟨-, hr⟩ := List.forall_mem_append.mp (hmem hcutRight hright)
  exact ⟨hrun, hl, hr⟩

/-- What is written step by step, each conflict as its rendering, is text around the renderings. -/
theorem Resolvable.of_steps {doc : Doc} {steps : List CutStep} {write : CutStep → List Line} {start stop : Line}
    (hfree : ∀ s ∈ steps, MarkerFree s.run ∧ MarkerFree s.left ∧ MarkerFree s.right)
    (hdoc : doc.lines = steps.flatMap write) (hsettled : ∀ s ∈ steps, s.conflicts = [] → write s = s.output)
    (hconflict : ∀ s ∈ steps, s.conflicts ≠ [] → write s = s.run ++ rendering start stop ⟨s.base, s.left, s.right⟩)
    (hstart : isConflictStart start = true) (hstop : isConflictEnd stop = true) :
    Resolvable doc (gapsOf [] steps) ((steps.flatMap CutStep.conflicts).map (rendering start stop)) := by
  have hblocks : ∀ block ∈ (steps.flatMap CutStep.conflicts).map (rendering start stop), IsRegion block := by
    intro block hblock
    obtain ⟨c, hc, rfl⟩ := List.mem_map.mp hblock
    obtain ⟨s, hs, hcs⟩ := List.mem_flatMap.mp hc
    rw [(conflict_of_ne_nil (List.ne_nil_of_mem hcs)).1, List.mem_singleton] at hcs
    subst hcs
    exact isRegion_rendering hstart hstop (hfree s hs).2.1 (hfree s hs).2.2
  have hgaps : ∀ gap ∈ gapsOf [] steps, MarkerFree gap := markerFree_gapsOf (fun _ => nofun) hfree
  refine .of_interleave ?_ ?_ hgaps hblocks
  · rw [hdoc, interleave_gapsOf hsettled hconflict, List.nil_append]
  · rw [List.length_map, length_gapsOf]

end Rebase

open Rebase

/-- Resolving a merge or a rebase of documents without markers: both are the same text around the renderings
    of their conflicts, the scan finds the renderings, and resolutions take their places, in order. -/
theorem resolveAll_replaces_conflicts {base left right : Doc} (hbase : MarkerFree base.lines)
    (hleft : MarkerFree left.lines) (hright : MarkerFree right.lines) :
    let conflicts := (merge3 base left right).conflicts
    (rebase base left right).conflicts = conflicts ∧
    ∃ gaps : List (List Line), gaps.length = conflicts.length + 1 ∧ (∀ gap ∈ gaps, MarkerFree gap) ∧
      Resolvable (merge3 base left right).merged gaps (conflicts.map (rendering conflictStart conflictEnd)) ∧
      Resolvable (rebase base left right).result gaps (conflicts.map (rendering rebaseMine rebaseOnto)) := by
  intro conflicts
  have hconflicts : conflicts = (mergeCut base left right).flatMap CutStep.conflicts := by
    show (merge3 base left right).conflicts = _
    rw [merge3_eq]
  have hfree := markerFree_mergeCut hbase hleft hright
  have hgaps : ∀ gap ∈ gapsOf [] (mergeCut base left right), MarkerFree gap := markerFree_gapsOf (fun _ => nofun) hfree
  refine ⟨rfl, ?_⟩
  rw [hconflicts]
  refine ⟨gapsOf [] (mergeCut base left right), length_gapsOf [] _, hgaps, ?_, ?_⟩
  · have hdoc : (merge3 base left right).merged.lines = (mergeCut base left right).flatMap CutStep.output := by
      rw [merge3_eq]
    exact .of_steps hfree hdoc (fun _ _ _ => rfl) (fun s _ h => (conflict_of_ne_nil h).2.1) (by decide) (by decide)
  · have hdoc : (rebase base left right).result.lines = (mergeCut base left right).flatMap CutStep.rebased := by
      show (merge3 base left right).merged.lines.map relabelLine = _
      rw [merge3_eq, List.map_flatMap]
      refine List.flatMap_congr fun s hs => (map_relabelLine_output_iff s).mpr ?_
      obtain ⟨hrun, hl, hr⟩ := hfree s hs
      exact fun line hline => not_mergeMarker (markerFree_content hrun hl hr line hline)
    exact .of_steps hfree hdoc (fun s _ h => rebased_of_settled h) (fun s _ h => (conflict_of_ne_nil h).2.2)
      (by decide) (by decide)

/-- Two conflicts, one with an empty side, beside lines that read like separators. -/
theorem resolveAll_replaces_two_conflicts :
    let base : Doc := ⟨[['a'], ['b'], conflictSep, ['c']]⟩
    let left : Doc := ⟨[['a'], conflictSep, ['l']]⟩
    let right : Doc := ⟨[['a'], ['x'], conflictSep, conflictSep, ['r']]⟩
    (merge3 base left right).conflicts = [⟨[['b']], [], [['x']]⟩, ⟨[['c']], [['l']], [conflictSep, ['r']]⟩] ∧
    ∃ gaps : List (List Line), gaps.length = (merge3 base left right).conflicts.length + 1 ∧
      (∀ gap ∈ gaps, MarkerFree gap) ∧
      Resolvable (merge3 base left right).merged gaps
        ((merge3 base left right).conflicts.map (rendering conflictStart conflictEnd)) ∧
      Resolvable (rebase base left right).result gaps
        ((merge3 base left right).conflicts.map (rendering rebaseMine rebaseOnto)) := by
  refine ⟨by decide +kernel, (resolveAll_replaces_conflicts ?_ ?_ ?_).2⟩
  · unfold MarkerFree
    decide
  · unfold MarkerFree
    decide
  · unfold MarkerFree
    decide

end Omoplata
