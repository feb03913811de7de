-- SUMMARY: Rebase over conflicts as values, resolution, and their confluence.
import Omoplata.Algebra.Commute
import Omoplata.Algebra.Merge

/-!
# Rebase and resolution

`rebaseMerge` advances a document with rendered conflicts by the hunks that touch
no conflict region; `resolveAll` collapses the regions in document order.

For the proofs a document is read as chunks: plain lines and regions. The two
loops are readings of the chunks (`resolveLoop_text`, `markerLoop_text`). A safe
hunk only replaces plain lines, so the safe hunks and the resolutions are the two
sides of one script, and the advanced document has the same regions in order.
-/

namespace Omoplata

open ListEdit

/-- Marker beginning a conflicted region in a rebased document. -/
def rebaseMine : Line := "<<<<<<< mine".toList

/-- Marker separating the two sides in a rebased document. -/
def rebaseSep : Line := conflictSep

/-- Marker ending a conflicted region in a rebased document. -/
def rebaseOnto : Line := ">>>>>>> onto".toList

/-- The result of rebasing a change. -/
structure Rebased where
  result : Doc
  conflicts : List Conflict
  clean : Bool
  deriving DecidableEq, Repr

def Rebased.asMerge (r : Rebased) : Merge := ⟨r.result, r.conflicts⟩

namespace Rebase

/-- Whether a line opens a conflict region, in either marker vocabulary. -/
def isConflictStart (line : Line) : Bool := line == conflictStart || line == rebaseMine

/-- Whether a line closes a conflict region, in either marker vocabulary. -/
def isConflictEnd (line : Line) : Bool := line == conflictEnd || line == rebaseOnto

/-- Rewrite left/right markers into mine/onto markers. -/
def relabelToRebaseMarkers (merged : Doc) : Doc :=
  ⟨merged.lines.map fun l =>
    if l = conflictStart then rebaseMine else if l = conflictEnd then rebaseOnto else l⟩

/-- The scan for rendered regions: `lines` are those from index `i` on. A start
    marker without an end marker behind it is ordinary content. -/
def markerLoop : Nat → List Line → Nat → List Range
  | 0, _, _ => []
  | _ + 1, [], _ => []
  | fuel + 1, line :: rest, i =>
      if isConflictStart line then
        match rest.findIdx? isConflictEnd with
        | some k => ⟨i, i + k + 2⟩ :: markerLoop fuel (rest.drop (k + 1)) (i + k + 2)
        | none => markerLoop fuel rest (i + 1)
      else markerLoop fuel rest (i + 1)

/-- The line intervals of the rendered conflict regions, marker lines included. -/
def conflictMarkerRegions (doc : Doc) : List Range :=
  markerLoop doc.lines.length doc.lines 0

/-- Whether a hunk touches a region. A pure insertion does only strictly inside. -/
def overlapsAnyRegion (h : Hunk) (regions : List Range) : Bool :=
  let s := Hunk.support h
  regions.any fun r =>
    if s.start = s.stop then decide (s.start > r.start) && decide (s.start < r.stop)
    else decide (s.start < r.stop) && decide (r.start < s.stop)

/-- The loop of `resolveAll`: region number `region` comes next. -/
def resolveLoop (resolutions : List (List Line)) : Nat → List Line → Nat → List Line
  | 0, _, _ => []
  | _ + 1, [], _ => []
  | fuel + 1, line :: rest, region =>
      if isConflictStart line then
        match rest.findIdx? isConflictEnd with
        | some k =>
            (match resolutions[region]? with
              | some chosen => chosen
              | none => line :: rest.take (k + 1)) ++
              resolveLoop resolutions fuel (rest.drop (k + 1)) (region + 1)
        | none => line :: resolveLoop resolutions fuel rest region
      else line :: resolveLoop resolutions fuel rest region

end Rebase

/-- Replay the change from `base` to `mine` on top of `onto`. -/
def rebase (base mine onto : Doc) : Rebased :=
  let m := merge3 base mine onto
  let result := Rebase.relabelToRebaseMarkers m.merged
  { result, conflicts := m.conflicts, clean := m.conflicts.isEmpty }

/-- The hunks of a patch that touch no conflict region of a document. -/
def safePatch (doc : Doc) (ontoPatch : Patch) : Patch :=
  let regions := Rebase.conflictMarkerRegions doc
  ⟨ontoPatch.hunks.filter fun h => !Rebase.overlapsAnyRegion h regions⟩

/-- Advance a merge by a patch of its document, carrying its conflicts forward. -/
def rebaseMerge (prior : Merge) (ontoPatch : Patch) : Merge :=
  let merged := match apply (safePatch prior.merged ontoPatch) prior.merged with
    | .ok advanced => advanced
    | .error _ => prior.merged
  ⟨merged, prior.conflicts⟩

/-- Rebase a stack of successive versions, front to back. -/
def rebaseStack (base : Doc) (stack : List Doc) (onto : Doc) : List Rebased :=
  match stack with
  | [] => []
  | version :: stack =>
      let step := rebase base version onto
      step :: rebaseStack version stack step.result

/-- Resolve one conflict by collapsing it to the chosen lines. -/
def resolve (_conflict : Conflict) (chosen : List Line) : List Line := chosen

/-- Collapse the regions of a document, in order, to the resolutions there are. -/
def resolveAll (rendered : Doc) (resolutions : List (List Line)) : Doc :=
  ⟨Rebase.resolveLoop resolutions rendered.lines.length rendered.lines 0⟩

/-- The patch that replaces each region that has a resolution by it. -/
def resolutionPatch (doc : Doc) (resolutions : List (List Line)) : Patch :=
  ⟨((Rebase.conflictMarkerRegions doc).zip resolutions).map fun p =>
    ⟨p.1.start, slice doc.lines p.1.start p.1.stop, p.2⟩⟩

namespace Rebase

/-! ## Documents as chunks -/

/-- A plain line or a conflict region. -/
inductive Chunk where
  | plain (line : Line)
  | region (lines : List Line)

def Chunk.text : Chunk → List Line
  | .plain line => [line]
  | .region lines => lines

/-- The lines of a region: a start marker, a body without end markers, an end marker. -/
def IsRegion (lines : List Line) : Prop :=
  ∃ start body stop, lines = start :: (body ++ [stop]) ∧ isConflictStart start = true ∧
    isConflictEnd stop = true ∧ ∀ x ∈ body, isConflictEnd x = false

/-- Chunks as the scan finds them: behind a start marker that is plain content
    there is no end marker. -/
def WellFormed : List Chunk → Prop
  | [] => True
  | .plain x :: cs =>
      (isConflictStart x = true → ∀ y ∈ cs.flatMap Chunk.text, isConflictEnd y = false) ∧
        WellFormed cs
  | .region lines :: cs => IsRegion lines ∧ WellFormed cs

/-- The script that resolves the regions: they are its right segments. -/
def resolveScript (resolutions : List (List Line)) : List Chunk → Nat → List (Seg Line)
  | [], _ => []
  | .plain x :: cs, k => .keep x :: resolveScript resolutions cs k
  | .region lines :: cs, k =>
      .right lines (resolutions[k]?.getD lines) :: resolveScript resolutions cs (k + 1)

/-- The region intervals of chunks that start at line `i`. -/
def ranges : List Chunk → Nat → List Range
  | [], _ => []
  | .plain _ :: cs, i => ranges cs (i + 1)
  | .region lines :: cs, i => ⟨i, i + lines.length⟩ :: ranges cs (i + lines.length)

theorem exists_chunks (lines : List Line) :
    ∃ cs, WellFormed cs ∧ cs.flatMap Chunk.text = lines := by
  induction hn : lines.length using Nat.strongRecOn generalizing lines with
  | ind n ih =>
      cases lines with
      | nil => exact ⟨[], trivial, rfl⟩
      | cons x rest =>
          simp only [List.length_cons] at hn
          have hplain : (isConflictStart x = true → ∀ y ∈ rest, isConflictEnd y = false) →
              ∃ cs, WellFormed cs ∧ cs.flatMap Chunk.text = x :: rest := by
            intro hx
            obtain ⟨cs, hcs, rfl⟩ := ih rest.length (by omega) rest rfl
            exact ⟨.plain x :: cs, ⟨hx, hcs⟩, rfl⟩
          by_cases hx : isConflictStart x = true
          · cases hend : rest.findIdx? isConflictEnd with
            | none =>
                exact hplain fun _ y hy => by simpa using List.findIdx?_eq_none_iff.mp hend y hy
            | some k =>
                obtain ⟨hk, hstop, hbody⟩ := List.findIdx?_eq_some_iff_getElem.mp hend
                obtain ⟨cs, hcs, htext⟩ := ih (rest.drop (k + 1)).length
                  (by rw [List.length_drop]; omega) (rest.drop (k + 1)) rfl
                refine ⟨.region (x :: (rest.take k ++ [rest[k]])) :: cs,
                  ⟨⟨x, rest.take k, rest[k], rfl, hx, hstop, ?_⟩, hcs⟩, ?_⟩
                · intro y hy
                  obtain ⟨j, hj, rfl⟩ := List.getElem_of_mem hy
                  rw [List.length_take] at hj
                  simpa using hbody j (by omega)
                · simp [Chunk.text, htext]
          · exact hplain fun h => absurd h hx

/-! ## The loops read chunks -/

private theorem findIdx?_region {body : List Line} {stop : Line} {rest : List Line}
    (hbody : ∀ x ∈ body, isConflictEnd x = false) (hstop : isConflictEnd stop = true) :
    (body ++ [stop] ++ rest).findIdx? isConflictEnd = some body.length := by
  rw [List.append_assoc, List.findIdx?_append, List.findIdx?_eq_none_iff.mpr (by simpa using hbody)]
  simp [List.findIdx?_cons, hstop]

private theorem findIdx?_none {rest : List Line} (h : ∀ y ∈ rest, isConflictEnd y = false) :
    rest.findIdx? isConflictEnd = none := List.findIdx?_eq_none_iff.mpr (by simpa using h)

theorem markerLoop_text {cs : List Chunk} (h : WellFormed cs) (fuel i : Nat)
    (hfuel : (cs.flatMap Chunk.text).length ≤ fuel) :
    markerLoop fuel (cs.flatMap Chunk.text) i = ranges cs i := by
  induction cs generalizing fuel i with
  | nil => cases fuel <;> rfl
  | cons c cs ih =>
      cases c with
      | plain x =>
          obtain ⟨hx, hcs⟩ := h
          simp only [List.flatMap_cons, Chunk.text, List.cons_append, List.nil_append,
            List.length_cons] at hfuel ⊢
          obtain ⟨fuel, rfl⟩ : ∃ m, fuel = m + 1 := ⟨fuel - 1, by omega⟩
          simp only [markerLoop, ranges]
          split
          · rename_i hstart
            rw [findIdx?_none (hx hstart)]
            exact ih hcs fuel (i + 1) (by omega)
          · exact ih hcs fuel (i + 1) (by omega)
      | region lines =>
          obtain ⟨⟨start, body, stop, rfl, hstart, hstop, hbody⟩, hcs⟩ := h
          simp only [List.flatMap_cons, Chunk.text, List.cons_append, List.length_cons,
            List.length_append, List.length_nil] at hfuel ⊢
          obtain ⟨fuel, rfl⟩ : ∃ m, fuel = m + 1 := ⟨fuel - 1, by omega⟩
          simp only [markerLoop, ranges, hstart, if_true, findIdx?_region hbody hstop]
          have hdrop : (body ++ [stop] ++ cs.flatMap Chunk.text).drop (body.length + 1) =
              cs.flatMap Chunk.text := by
            rw [List.drop_left' (by simp)]
          have hend : i + body.length + 2 = i + (start :: (body ++ [stop])).length := by
            simp only [List.length_cons, List.length_append, List.length_nil]
            omega
          rw [hdrop, hend, ih hcs fuel _ (by omega)]

theorem resolveLoop_text (resolutions : List (List Line)) {cs : List Chunk} (h : WellFormed cs)
    (fuel k : Nat) (hfuel : (cs.flatMap Chunk.text).length ≤ fuel) :
    resolveLoop resolutions fuel (cs.flatMap Chunk.text) k =
      (resolveScript resolutions cs k).flatMap Seg.onRight := by
  induction cs generalizing fuel k with
  | nil => cases fuel <;> rfl
  | cons c cs ih =>
      cases c with
      | plain x =>
          obtain ⟨hx, hcs⟩ := h
          simp only [List.flatMap_cons, Chunk.text, List.cons_append, List.nil_append,
            List.length_cons] at hfuel ⊢
          obtain ⟨fuel, rfl⟩ : ∃ m, fuel = m + 1 := ⟨fuel - 1, by omega⟩
          have hrest := ih hcs fuel k (by omega)
          simp only [resolveLoop, resolveScript, List.flatMap_cons, Seg.onRight,
            List.singleton_append]
          split
          · rename_i hstart
            rw [findIdx?_none (hx hstart), hrest]
          · rw [hrest]
      | region lines =>
          obtain ⟨⟨start, body, stop, rfl, hstart, hstop, hbody⟩, hcs⟩ := h
          simp only [List.flatMap_cons, Chunk.text, List.cons_append, List.length_cons,
            List.length_append, List.length_nil] at hfuel ⊢
          obtain ⟨fuel, rfl⟩ : ∃ m, fuel = m + 1 := ⟨fuel - 1, by omega⟩
          simp only [resolveLoop, resolveScript, hstart, if_true, findIdx?_region hbody hstop,
            List.flatMap_cons, Seg.onRight]
          have hdrop : (body ++ [stop] ++ cs.flatMap Chunk.text).drop (body.length + 1) =
              cs.flatMap Chunk.text := by
            rw [List.drop_left' (by simp)]
          have htake : (body ++ [stop] ++ cs.flatMap Chunk.text).take (body.length + 1) =
              body ++ [stop] := by
            rw [List.take_left' (by simp)]
          rw [hdrop, htake, ih hcs fuel _ (by omega)]
          cases resolutions[k]? <;> rfl

/-! ## Safe hunks and regions as the sides of one script -/

section Script

variable {resolutions : List (List Line)}

/-- The regions are what the right edits of the script remove. -/
private theorem range_of_mem_rightEdits {cs : List Chunk} (h : WellFormed cs) {i k : Nat} {e : Hunk}
    (he : e ∈ rightEdits i (resolveScript resolutions cs k)) :
    ⟨e.baseStart, e.stop⟩ ∈ ranges cs i ∧ e.baseStart < e.stop := by
  induction cs generalizing i k with
  | nil => simp [resolveScript, edits] at he
  | cons c cs ih =>
      cases c with
      | plain x => exact ih h.2 he
      | region lines =>
          rcases List.mem_cons.mp he with rfl | he
          · obtain ⟨⟨start, body, stop, rfl, -, -, -⟩, -⟩ := h
            exact ⟨List.mem_cons_self, by simp [Edit.stop, Seg.base]⟩
          · obtain ⟨hmem, hlt⟩ := ih h.2 he
            exact ⟨List.mem_cons_of_mem _ hmem, hlt⟩

/-- A hunk that touches no region is separable from what replaces the regions. -/
private theorem separable_of_not_overlaps {cs : List Chunk} (hcs : WellFormed cs) {i k : Nat}
    {h : Hunk} (hsafe : overlapsAnyRegion h (ranges cs i) = false) :
    ∀ e ∈ rightEdits i (resolveScript resolutions cs k), h.Separable e := by
  intro e he
  obtain ⟨hmem, hlt⟩ := range_of_mem_rightEdits hcs he
  have hno := List.any_eq_false.mp hsafe _ hmem
  simp only [Edit.Separable, Edit.stop] at hlt ⊢
  by_cases hempty : (Hunk.support h).start = (Hunk.support h).stop
  · simp only [if_pos hempty, Bool.and_eq_true, decide_eq_true_eq] at hno
    simp only [Hunk.support, Edit.stop] at hno hempty
    omega
  · simp only [if_neg hempty, Bool.and_eq_true, decide_eq_true_eq] at hno
    simp only [Hunk.support, Edit.stop] at hno hempty
    omega

/-- The chunks a segment of a script stands for in a reading: what the right side
    replaces is a region, all else is plain. -/
def segChunks (read : Seg Line → List Line) : Seg Line → List Chunk
  | .keep x => [.plain x]
  | .left rem ins => (read (.left rem ins)).map .plain
  | .right rem _ => [.region rem]

theorem flatMap_text_plain (xs : List Line) :
    (xs.map Chunk.plain).flatMap Chunk.text = xs := by
  induction xs with
  | nil => rfl
  | cons x xs ih => simpa [Chunk.text] using ih

private theorem flatMap_text_segChunks (read : Seg Line → List Line)
    (hkeep : ∀ x, read (.keep x) = [x]) (hright : ∀ rem ins, read (.right rem ins) = rem)
    (ss : List (Seg Line)) :
    (ss.flatMap (segChunks read)).flatMap Chunk.text = ss.flatMap read := by
  induction ss with
  | nil => rfl
  | cons s ss ih =>
      rw [List.flatMap_cons, List.flatMap_append, ih, List.flatMap_cons]
      cases s with
      | keep x => simp [segChunks, Chunk.text, hkeep]
      | left rem ins => rw [segChunks, flatMap_text_plain]
      | right rem ins => simp [segChunks, Chunk.text, hright]

theorem resolveScript_plain (xs : List Line) (cs : List Chunk) (k : Nat) :
    resolveScript resolutions (xs.map .plain ++ cs) k =
      xs.map .keep ++ resolveScript resolutions cs k := by
  induction xs with
  | nil => rfl
  | cons x xs ih => exact congrArg (Seg.keep x :: ·) ih

/-- Chunks whose regions all start behind the lines `rem` start with `rem` as plain
    lines. -/
private theorem exists_plain_start {rem rest : List Line} {cs : List Chunk} {pos k : Nat}
    (htext : cs.flatMap Chunk.text = rem ++ rest)
    (hafter : ∀ e ∈ rightEdits pos (resolveScript resolutions cs k), pos + rem.length ≤ e.baseStart) :
    ∃ cs', cs = rem.map .plain ++ cs' ∧ cs'.flatMap Chunk.text = rest ∧
      rightEdits pos (resolveScript resolutions cs k) =
        rightEdits (pos + rem.length) (resolveScript resolutions cs' k) := by
  induction rem generalizing cs pos with
  | nil => exact ⟨cs, rfl, htext, rfl⟩
  | cons x rem ih =>
      cases cs with
      | nil => simp at htext
      | cons c cs =>
          cases c with
          | plain y =>
              obtain ⟨rfl, htext'⟩ : y = x ∧ cs.flatMap Chunk.text = rem ++ rest := by
                simpa [Chunk.text] using htext
              have hlen : pos + (y :: rem).length = pos + 1 + rem.length := by
                rw [List.length_cons]
                omega
              rw [hlen] at hafter ⊢
              obtain ⟨cs', rfl, hrest, hedits⟩ := ih htext' hafter
              exact ⟨cs', rfl, hrest, hedits⟩
          | region lines =>
              have := hafter _ List.mem_cons_self
              simp only [List.length_cons] at this
              omega

/-- A script over a document whose right edits are those of the regions: its base
    reads as the document's chunks, and resolving the chunks the left edits leave
    carries out both sides. -/
private theorem chunks_of_script {ss : List (Seg Line)} {cs : List Chunk} {pos k : Nat}
    (htext : cs.flatMap Chunk.text = ss.flatMap Seg.base)
    (hedits : rightEdits pos ss = rightEdits pos (resolveScript resolutions cs k)) :
    ss.flatMap (segChunks Seg.base) = cs ∧
      (resolveScript resolutions (ss.flatMap (segChunks Seg.onLeft)) k).flatMap Seg.onRight =
        ss.flatMap Seg.onBoth := by
  induction ss generalizing cs pos k with
  | nil =>
      cases cs with
      | nil => exact ⟨rfl, rfl⟩
      | cons c cs =>
          cases c with
          | plain x => simp [Chunk.text] at htext
          | region lines => simp [edits, resolveScript, Seg.isRight] at hedits
  | cons s ss ih =>
      -- A kept or a left segment stands for the plain lines it removes.
      have hplain : ∀ (hs : s.isRight = false), ∃ cs',
          cs = s.base.map .plain ++ cs' ∧ ss.flatMap (segChunks Seg.base) = cs' ∧
            (resolveScript resolutions (ss.flatMap (segChunks Seg.onLeft)) k).flatMap Seg.onRight =
              ss.flatMap Seg.onBoth := by
        intro hs
        have hskip : rightEdits pos (s :: ss) = rightEdits (pos + s.base.length) ss := by
          simp [edits, hs]
        rw [hskip] at hedits
        obtain ⟨cs', hcs', htext', hedits'⟩ := exists_plain_start (k := k) htext fun e he =>
          le_baseStart_of_mem_edits (hedits ▸ he)
        obtain ⟨hchunks, hboth⟩ := ih htext' (hedits.trans hedits')
        exact ⟨cs', hcs', hchunks, hboth⟩
      cases s with
      | keep x =>
          obtain ⟨cs', rfl, hchunks, hboth⟩ := hplain rfl
          refine ⟨congrArg (Chunk.plain x :: ·) hchunks, ?_⟩
          exact congrArg (x :: ·) hboth
      | left rem ins =>
          obtain ⟨cs', rfl, hchunks, hboth⟩ := hplain rfl
          refine ⟨by rw [List.flatMap_cons, hchunks]; rfl, ?_⟩
          rw [List.flatMap_cons, segChunks, resolveScript_plain, List.flatMap_append,
            flatMap_keep fun _ => rfl, hboth]
          rfl
      | right rem ins =>
          cases cs with
          | nil => simp [edits, resolveScript, Seg.isRight] at hedits
          | cons c cs =>
              cases c with
              | plain x =>
                  have hmem : ⟨pos, rem, ins⟩ ∈
                      rightEdits (pos + 1) (resolveScript resolutions cs k) := by
                    have : (⟨pos, rem, ins⟩ : Hunk) ∈ rightEdits pos (.right rem ins :: ss) :=
                      List.mem_cons_self
                    rw [hedits] at this
                    exact this
                  have := le_baseStart_of_mem_edits hmem
                  simp only at this
                  omega
              | region lines =>
                  obtain ⟨hhead, htail⟩ := List.cons.inj (hedits :)
                  obtain ⟨rfl, rfl⟩ : rem = lines ∧ ins = resolutions[k]?.getD lines := by
                    simpa [Seg.base, Seg.onRight] using hhead
                  have htext' : cs.flatMap Chunk.text = ss.flatMap Seg.base := by
                    simpa [Chunk.text, Seg.base] using htext
                  obtain ⟨hchunks, hboth⟩ := ih htext' htail
                  refine ⟨congrArg (Chunk.region rem :: ·) hchunks, ?_⟩
                  rw [List.flatMap_cons, List.flatMap_cons, ← hboth]
                  rfl

/-- Left edits that insert no marker keep the chunks well formed. -/
private theorem wellFormed_onLeft {ss : List (Seg Line)}
    (h : WellFormed (ss.flatMap (segChunks Seg.base)))
    (hins : ∀ rem ins, Seg.left rem ins ∈ ss →
      ∀ x ∈ ins, isConflictStart x = false ∧ isConflictEnd x = false) :
    WellFormed (ss.flatMap (segChunks Seg.onLeft)) ∧
      ((∀ y ∈ ss.flatMap Seg.base, isConflictEnd y = false) →
        ∀ y ∈ ss.flatMap Seg.onLeft, isConflictEnd y = false) := by
  induction ss with
  | nil => exact ⟨trivial, by simp⟩
  | cons s ss ih =>
      have hins' := fun rem ins hmem => hins rem ins (List.mem_cons_of_mem _ hmem)
      cases s with
      -- a kept line is a plain one on both sides, so what follows it decides
      | keep x =>
          obtain ⟨hx, hrest⟩ :
              WellFormed (.plain x :: ss.flatMap (segChunks Seg.base)) := h
          obtain ⟨hwf, hend⟩ := ih hrest hins'
          rw [flatMap_text_segChunks Seg.base (fun _ => rfl) fun _ _ => rfl] at hx
          refine ⟨⟨fun hstart => ?_, hwf⟩, fun hall y hy => ?_⟩
          · have hy := hend (hx hstart)
            rw [← flatMap_text_segChunks Seg.onLeft (fun _ => rfl) fun _ _ => rfl] at hy
            exact hy
          · rcases List.mem_cons.mp hy with rfl | hy
            · exact hall y (by simp [Seg.base])
            · exact hend (fun z hz => hall z (List.mem_cons_of_mem _ hz)) y hy
      | left rem ins =>
          have hdrop : ∀ (rem : List Line) (cs : List Chunk),
              WellFormed (rem.map .plain ++ cs) → WellFormed cs := by
            intro rem cs hwf
            induction rem with
            | nil => exact hwf
            | cons x rem ihr => exact ihr hwf.2
          have hadd : ∀ (xs : List Line) (cs : List Chunk), (∀ x ∈ xs, isConflictStart x = false) →
              WellFormed cs → WellFormed (xs.map .plain ++ cs) := by
            intro xs cs hxs hwf
            induction xs with
            | nil => exact hwf
            | cons x xs ihx =>
                refine ⟨fun hstart => ?_, ihx fun y hy => hxs y (List.mem_cons_of_mem _ hy)⟩
                simp [hxs x (by simp)] at hstart
          -- what the left took away was plain, and what it put in has no markers
          obtain ⟨hwf, hend⟩ := ih (hdrop rem _ h) hins'
          have hnew := hins rem ins (by simp)
          refine ⟨hadd ins _ (fun x hx => (hnew x hx).1) hwf, fun hall y hy => ?_⟩
          rcases List.mem_append.mp hy with hy | hy
          · exact (hnew y hy).2
          · exact hend (fun z hz => hall z (List.mem_append_right _ hz)) y hy
      | right rem ins =>
          -- the right's edit stays the region it was
          obtain ⟨hregion, hrest⟩ := h
          obtain ⟨hwf, hend⟩ := ih hrest hins'
          refine ⟨⟨hregion, hwf⟩, fun hall y hy => ?_⟩
          rcases List.mem_append.mp hy with hy | hy
          · exact hall y (List.mem_append_left _ hy)
          · exact hend (fun z hz => hall z (List.mem_append_right _ hz)) y hy

private theorem exists_mem_leftEdits {ss : List (Seg Line)} {rem ins : List Line} (pos : Nat)
    (h : Seg.left rem ins ∈ ss) : ∃ e ∈ leftEdits pos ss, e.insert = ins := by
  induction ss generalizing pos with
  | nil => simp at h
  | cons s ss ih =>
      rcases List.mem_cons.mp h with rfl | h
      · exact ⟨⟨pos, rem, ins⟩, by simp [edits, Seg.isLeft, Seg.base, Seg.onLeft], rfl⟩
      · obtain ⟨e, he, hins⟩ := ih (pos + s.base.length) h
        refine ⟨e, ?_, hins⟩
        simp only [edits]
        split
        · exact List.mem_cons_of_mem _ he
        · exact he

/-- The hunks of the resolution patch over a suffix of a document. -/
private def resolutionHunks (resolutions : List (List Line)) (lines : List Line) (cs : List Chunk)
    (i k : Nat) : List Hunk :=
  ((ranges cs i).zip (resolutions.drop k)).map fun p =>
    ⟨p.1.start, slice lines p.1.start p.1.stop, p.2⟩

private theorem resolutionHunks_region (pre lines : List Line) (cs : List Chunk) (k : Nat) :
    resolutionHunks resolutions (pre ++ (lines ++ cs.flatMap Chunk.text)) (.region lines :: cs)
        pre.length k =
      match resolutions[k]? with
      | some chosen =>
          ⟨pre.length, lines, chosen⟩ ::
            resolutionHunks resolutions (pre ++ (lines ++ cs.flatMap Chunk.text)) cs
              (pre.length + lines.length) (k + 1)
      | none => [] := by
  have hslice : slice (pre ++ (lines ++ cs.flatMap Chunk.text)) pre.length
      (pre.length + lines.length) = lines := by
    rw [slice_eq_take_drop, List.drop_left, Nat.add_sub_cancel_left, List.take_left]
  cases hk : resolutions[k]? with
  | some chosen =>
      obtain ⟨hlt, rfl⟩ := List.getElem?_eq_some_iff.mp hk
      rw [resolutionHunks, ranges, List.drop_eq_getElem_cons hlt, List.zip_cons_cons, List.map_cons,
        hslice]
      rfl
  | none =>
      rw [resolutionHunks, List.drop_eq_nil_of_le (List.getElem?_eq_none_iff.mp hk),
        List.zip_nil_right, List.map_nil]

private theorem resolutionHunks_of_none (lines : List Line) (cs : List Chunk) (i : Nat) {j k : Nat}
    (hjk : k ≤ j) (hk : resolutions[k]? = none) : resolutionHunks resolutions lines cs i j = [] := by
  rw [resolutionHunks, List.drop_eq_nil_of_le (Nat.le_trans (List.getElem?_eq_none_iff.mp hk) hjk),
    List.zip_nil_right, List.map_nil]

/-- Regions without a resolution are replaced by themselves in the script and not at
    all in the patch: hunks are moved past both alike. -/
private theorem deltaBefore_resolutionHunks (pre : List Line) (cs : List Chunk) (k pos : Nat) :
    deltaBefore (resolutionHunks resolutions (pre ++ cs.flatMap Chunk.text) cs pre.length k) pos =
      deltaBefore (rightEdits pre.length (resolveScript resolutions cs k)) pos := by
  induction cs generalizing pre k with
  | nil => rfl
  | cons c cs ih =>
      cases c with
      | plain x =>
          have hrest := ih (pre ++ [x]) k
          rw [List.length_append, List.length_singleton, List.append_assoc] at hrest
          exact hrest
      | region lines =>
          have hrest := ih (pre ++ lines) (k + 1)
          rw [List.length_append, List.append_assoc] at hrest
          rw [List.flatMap_cons, Chunk.text, resolutionHunks_region]
          simp only [resolveScript, edits, Seg.isRight, if_true, Seg.base, Seg.onRight,
            deltaBefore_cons]
          cases hk : resolutions[k]? with
          | some chosen => rw [deltaBefore_cons, hrest, Option.getD_some]
          | none =>
              rw [← hrest, resolutionHunks_of_none _ _ _ (Nat.le_succ k) hk]
              simp [Edit.delta, deltaBefore]

/-- The resolution patch over a suffix of a document fits and resolves it. -/
private theorem splice_resolutionHunks (pre : List Line) (cs : List Chunk) (k : Nat) :
    let es := resolutionHunks resolutions (pre ++ cs.flatMap Chunk.text) cs pre.length k
    Fits (pre ++ cs.flatMap Chunk.text) pre.length es ∧
      splice (pre ++ cs.flatMap Chunk.text) pre.length es =
        (resolveScript resolutions cs k).flatMap Seg.onRight := by
  induction cs generalizing pre k with
  | nil => simp [resolutionHunks, ranges, Fits, splice, resolveScript]
  | cons c cs ih =>
      cases c with
      | plain x =>
          obtain ⟨hfit, hsplice⟩ := ih (pre ++ [x]) k
          rw [List.length_append, List.length_singleton, List.append_assoc] at hfit hsplice
          refine ⟨hfit.mono (Nat.le_succ _), ?_⟩
          refine (splice_eq_take_append (Nat.le_succ _) hfit).trans ?_
          rw [hsplice]
          simp [resolveScript, Seg.onRight]
      | region lines =>
          obtain ⟨hfit, hsplice⟩ := ih (pre ++ lines) (k + 1)
          rw [List.length_append, List.append_assoc] at hfit hsplice
          rw [List.flatMap_cons, Chunk.text, resolutionHunks_region]
          cases hk : resolutions[k]? with
          -- a region with a resolution is one hunk, and what follows stands behind it
          | some chosen =>
              simp only [Fits, splice, Edit.stop, hsplice]
              refine ⟨⟨Nat.le_refl _, ?_, ?_, hfit⟩, ?_⟩
              · simp only [List.length_append]
                omega
              · simp
              · simp [resolveScript, Seg.onRight, hk]
          -- without one it is copied, and no later region has one
          | none =>
              rw [resolutionHunks_of_none _ _ _ (Nat.le_succ k) hk] at hsplice
              refine ⟨trivial, ?_⟩
              simp only [splice, List.drop_left] at hsplice ⊢
              rw [resolveScript, List.flatMap_cons, ← hsplice, hk, ← List.drop_drop, List.drop_left,
                List.drop_left]
              rfl

private theorem flatMap_base_resolveScript (resolutions : List (List Line)) (cs : List Chunk)
    (k : Nat) : (resolveScript resolutions cs k).flatMap Seg.base = cs.flatMap Chunk.text := by
  induction cs generalizing k with
  | nil => rfl
  | cons c cs ih => cases c <;> simp [resolveScript, Seg.base, Chunk.text, ih]

end Script

end Rebase

section Confluence

open Rebase

variable {doc : Doc} {cs : List Chunk}

private theorem conflictMarkerRegions_eq (hcs : WellFormed cs)
    (hdoc : cs.flatMap Chunk.text = doc.lines) : conflictMarkerRegions doc = ranges cs 0 := by
  rw [conflictMarkerRegions, ← hdoc]
  exact markerLoop_text hcs _ 0 (Nat.le_refl _)

private theorem resolveAll_eq (doc : Doc) (resolutions : List (List Line)) (hcs : WellFormed cs)
    (hdoc : cs.flatMap Chunk.text = doc.lines) :
    resolveAll doc resolutions = ⟨(resolveScript resolutions cs 0).flatMap Seg.onRight⟩ := by
  rw [resolveAll, ← hdoc, resolveLoop_text resolutions hcs _ 0 (Nat.le_refl _)]

/-- Resolving is applying the patch that replaces the regions. -/
theorem apply_resolutionPatch (doc : Doc) (resolutions : List (List Line)) :
    apply (resolutionPatch doc resolutions) doc = .ok (resolveAll doc resolutions) := by
  obtain ⟨cs, hcs, hdoc⟩ := exists_chunks doc.lines
  obtain ⟨hfit, hsplice⟩ := @splice_resolutionHunks resolutions [] cs 0
  simp only [List.nil_append, List.length_nil, hdoc] at hfit hsplice
  have hpatch : (resolutionPatch doc resolutions).hunks =
      resolutionHunks resolutions doc.lines cs 0 0 := by
    rw [resolutionPatch, conflictMarkerRegions_eq hcs hdoc, resolutionHunks, List.drop_zero]
  rw [← hpatch] at hfit hsplice
  rw [apply_of_fits hfit, hsplice, resolveAll_eq _ resolutions hcs hdoc]

/-- A hunk touches no region: it ends in front of it, or begins behind it. -/
def ClearOf (regions : List Range) (h : Hunk) : Prop :=
  ∀ r ∈ regions, h.stop ≤ r.start ∨ r.stop ≤ h.baseStart

instance (regions : List Range) (h : Hunk) : Decidable (ClearOf regions h) :=
  inferInstanceAs (Decidable (∀ r ∈ regions, _))

theorem overlapsAnyRegion_eq_false_iff {regions : List Range} {h : Hunk} :
    overlapsAnyRegion h regions = false ↔ ClearOf regions h := by
  have hstop : (Hunk.support h).stop = h.stop := rfl
  have hstart : (Hunk.support h).start = h.baseStart := rfl
  have hle := h.baseStart_le_stop
  unfold overlapsAnyRegion ClearOf
  rw [List.any_eq_false]
  refine forall₂_congr fun r _ => ?_
  by_cases hins : (Hunk.support h).start = (Hunk.support h).stop
  · rw [if_pos hins, Bool.and_eq_true, decide_eq_true_eq, decide_eq_true_eq]
    omega
  · rw [if_neg hins, Bool.and_eq_true, decide_eq_true_eq, decide_eq_true_eq]
    omega

theorem safePatch_eq (doc : Doc) (ontoPatch : Patch) :
    safePatch doc ontoPatch = ⟨ontoPatch.hunks.filter fun h => decide (ClearOf (conflictMarkerRegions doc) h)⟩ := by
  unfold safePatch
  refine congrArg Patch.mk (List.filter_congr fun h _ => ?_)
  rw [Bool.eq_iff_iff, Bool.not_eq_true', decide_eq_true_eq, overlapsAnyRegion_eq_false_iff]

/-- Conflict confluence: advancing a document by a patch and then resolving its
    conflicts gives what resolving first and then applying the hunks that touch no
    conflict gives, moved past the resolutions. These hunks always apply, and the
    conflicts are carried forward as they are. -/
theorem rebaseMerge_confluent (prior : Merge) (ontoPatch : Patch) (resolutions : List (List Line))
    (advanced : Doc) (happly : apply ontoPatch prior.merged = .ok advanced)
    (hins : ∀ h ∈ ontoPatch.hunks, ∀ x ∈ h.insert,
      isConflictStart x = false ∧ isConflictEnd x = false) :
    let safe : Patch := ⟨ontoPatch.hunks.filter fun h => decide (ClearOf (conflictMarkerRegions prior.merged) h)⟩
    let resolving := resolutionPatch prior.merged resolutions
    apply safe prior.merged = .ok (rebaseMerge prior ontoPatch).merged ∧
      (rebaseMerge prior ontoPatch).conflicts = prior.conflicts ∧
      apply resolving prior.merged = .ok (resolveAll prior.merged resolutions) ∧
      apply (Commute.rebase safe resolving) (resolveAll prior.merged resolutions) =
        .ok (resolveAll (rebaseMerge prior ontoPatch).merged resolutions) := by
  intro safe resolving
  have hsafePatch : safePatch prior.merged ontoPatch = safe := safePatch_eq _ _
  obtain ⟨cs, hcs, hdoc⟩ := exists_chunks prior.merged.lines
  -- All regions, resolved or not, as one patch of the document.
  let all : Patch := ⟨rightEdits 0 (resolveScript resolutions cs 0)⟩
  have hbase := (flatMap_base_resolveScript resolutions cs 0).trans hdoc
  have hall : apply all ⟨(resolveScript resolutions cs 0).flatMap Seg.base⟩ =
      .ok ⟨(resolveScript resolutions cs 0).flatMap Seg.onRight⟩ := apply_edits keep_right rfl
  rw [hbase, ← resolveAll_eq _ resolutions hcs hdoc] at hall
  have hsafe : ∀ h ∈ safe.hunks, overlapsAnyRegion h (ranges cs 0) = false := by
    intro h hh
    have hclear := of_decide_eq_true (List.mem_filter.mp hh).2
    rwa [conflictMarkerRegions_eq hcs hdoc, ← overlapsAnyRegion_eq_false_iff] at hclear
  have hsep : safe.Separable all := fun h hh => separable_of_not_overlaps hcs (hsafe h hh)
  have hfit : Fits prior.merged.lines 0 safe.hunks :=
    (apply_eq_ok_iff.mp happly).1.sublist List.filter_sublist
  obtain ⟨ss, hss, -⟩ := exists_isScript hfit (apply_eq_ok_iff.mp hall).1 hsep
  -- The resolution patch leaves unresolved regions out; hunks move past both alike.
  have hmoved : Commute.rebase safe resolving = Commute.rebase safe all := by
    have hdelta : ∀ pos, resolving.deltaBefore pos = all.deltaBefore pos := by
      intro pos
      have h := @deltaBefore_resolutionHunks resolutions [] cs 0 pos
      simp only [List.nil_append, List.length_nil, hdoc] at h
      rw [resolutionHunks, List.drop_zero, ← conflictMarkerRegions_eq hcs hdoc] at h
      exact h
    simp only [Commute.rebase, hdelta]
  have hadvanced : (rebaseMerge prior ontoPatch).merged = ⟨ss.flatMap Seg.onLeft⟩ := by
    rw [rebaseMerge, hsafePatch, hss.apply_left]
  have hright : resolveAll prior.merged resolutions = ⟨ss.flatMap Seg.onRight⟩ :=
    Except.ok.inj (hall.symm.trans hss.apply_right)
  -- The advanced document has the same regions in order, so resolving it carries both out.
  have hboth : resolveAll ⟨ss.flatMap Seg.onLeft⟩ resolutions = ⟨ss.flatMap Seg.onBoth⟩ := by
    obtain ⟨hchunks, hboth⟩ := chunks_of_script (k := 0)
      (hdoc.trans (congrArg Doc.lines hss.base_eq)) hss.right_eq.symm
    rw [← hchunks] at hcs
    have hwf := (wellFormed_onLeft hcs fun rem ins hmem => by
      obtain ⟨e, he, rfl⟩ := exists_mem_leftEdits 0 hmem
      rw [← hss.left_eq] at he
      exact hins e (List.mem_filter.mp he).1).1
    have htext := flatMap_text_segChunks Seg.onLeft (fun _ => rfl) (fun _ _ => rfl) ss
    rw [resolveAll_eq ⟨ss.flatMap Seg.onLeft⟩ resolutions hwf htext, hboth]
  refine ⟨?_, rfl, apply_resolutionPatch _ _, ?_⟩
  · rw [hadvanced]
    exact hss.apply_left
  · rw [hmoved, hadvanced, hboth, hright]
    exact hss.apply_rebase_left hsep

/-- A start marker without its end, a region in each vocabulary and a stray end marker
    between them; the patch inserts at the border of a region, drops the stray marker
    and edits inside a region. One resolution is given, for two regions. -/
theorem rebaseMerge_confluent_one_resolution :
    let line := fun c : Char => [c]
    let prior : Merge :=
      ⟨⟨[line 'a', conflictStart, line 'l', conflictSep, line 'r', conflictEnd, conflictEnd,
        rebaseMine, line 'm', rebaseSep, line 'o', rebaseOnto, line 'z', conflictStart]⟩,
        [⟨[], [line 'l'], [line 'r']⟩]⟩
    let ontoPatch : Patch :=
      ⟨[⟨0, [line 'a'], [line 'A', line 'B']⟩, ⟨1, [], [line 'x']⟩, ⟨2, [line 'l'], []⟩,
        ⟨6, [conflictEnd], []⟩, ⟨12, [line 'z'], []⟩]⟩
    let safe : Patch :=
      ⟨[⟨0, [line 'a'], [line 'A', line 'B']⟩, ⟨1, [], [line 'x']⟩, ⟨6, [conflictEnd], []⟩, ⟨12, [line 'z'], []⟩]⟩
    apply (Commute.rebase safe
        (resolutionPatch prior.merged [[line 'R']])) (resolveAll prior.merged [[line 'R']]) =
      .ok (resolveAll (rebaseMerge prior ontoPatch).merged [[line 'R']]) := by
  intro line prior ontoPatch safe
  have hsafe : (⟨ontoPatch.hunks.filter fun h => decide (ClearOf (conflictMarkerRegions prior.merged) h)⟩ : Patch) =
      safe := by decide +kernel
  obtain ⟨-, -, -, hconfluent⟩ := rebaseMerge_confluent prior ontoPatch [[line 'R']]
    ⟨[['A'], ['B'], ['x'], conflictStart, conflictSep, ['r'], conflictEnd, rebaseMine, ['m'],
      rebaseSep, ['o'], rebaseOnto, conflictStart]⟩ (by decide +kernel) (by decide +kernel)
  rwa [hsafe] at hconfluent

end Confluence

end Omoplata
