-- SUMMARY: What a change brings to a reconciliation: its texts and the content they are merged over, file by file.
import Omoplata.Cli.Reconcile

/-!
# The fold of changes

A reconciliation folds the changes of its submissions one after the other. What a change
brings is read before, so the fold takes each file by itself: every change that has the file
merges its text with what came out so far.
-/

namespace Omoplata

/-! ## What a change brings -/

/-- What a change brings to a fold: the texts at its tip, and the content they are merged
    over, that merged so far where the change has no commit. -/
structure ChangeVersion where
  texts : TextFiles
  base : Option TextFiles

/-- Read what a change brings, nothing where it has no tip. -/
def changeVersion (host : Host) (store : Store) (registry : QueueRegistry) (log : OpLog) (queue : Str)
    (change : ChangeId) : Except CliError (Option ChangeVersion) :=
  match log.refsNow[change]? with
  | none => pure none
  | some tip => do
      match ← parseTip tip with
      | none => pure none
      | some id => do
          let files ← checkOut host store id
          let base ← match changeFirstCommitSeq log change with
            | some seq => (materializeTrunk host store registry (log.refsAt seq) queue).map some
            | none => pure none
          pure (some ⟨readTreeFiles files, base⟩)

/-- Read what several changes bring. -/
def changeVersions (host : Host) (store : Store) (registry : QueueRegistry) (log : OpLog) (queue : Str)
    (changes : List ChangeId) : Except CliError (List ChangeVersion) := do
  let versions ← changes.mapM (changeVersion host store registry log queue)
  pure (versions.filterMap id)

/-- Fold what a change brings, file by file. -/
def foldVersion (host : Host) (s : FoldState) (v : ChangeVersion) : Except CliError FoldState :=
  v.texts.toList.foldlM (fun t (path, version) => reconcileFile host (v.base.getD s.acc) t path version) s

/-- Merge what a change brings to one file with the text merged so far. -/
def mergeText (host : Host) (path : Str) (text : Str) (v : ChangeVersion) : Option Str :=
  match v.texts[path]? with
  | none => some text
  | some version =>
      ((selectDriver host.tools path
        ⟨((v.base.map fun base => base.textAt path)).getD text, text, version, path⟩).toOption).map
          DriverOutput.merged

/-- Merge what several changes bring to one file; nothing where the driver fails. -/
def mergeTexts (host : Host) (path : Str) (versions : List ChangeVersion) (text : Str) : Option Str :=
  versions.foldlM (mergeText host path) text

section Folding

variable {host : Host} {store : Store} {registry : QueueRegistry} {log : OpLog} {queue : Str}

theorem reconcileChange_eq_foldVersion (s : FoldState) (change : ChangeId) :
    reconcileChange host store registry log queue s change =
      (changeVersion host store registry log queue change).bind fun version =>
        match version with
        | none => .ok s
        | some v => foldVersion host s v := by
  unfold reconcileChange changeVersion
  cases log.refsNow[change]? with
  | none => rfl
  | some tip =>
      cases hparse : parseTip tip with
      | error e => simp [hparse, bind, Except.bind]
      | ok id =>
          cases id with
          | none => simp [hparse, bind, Except.bind, pure, Except.pure]
          | some id =>
              cases hfiles : checkOut host store id with
              | error e => simp [hparse, hfiles, bind, Except.bind]
              | ok files =>
                  simp only [hparse, hfiles, bind, Except.bind]
                  cases changeFirstCommitSeq log change with
                  | none => rfl
                  | some seq =>
                      cases hbase : materializeTrunk host store registry (log.refsAt seq) queue with
                      | error e => simp [hbase, Except.map]
                      | ok base => simp [hbase, Except.map, foldVersion, pure, Except.pure]

/-- Folding changes is folding what they bring. -/
theorem foldlM_reconcileChange_ok_iff {changes : List ChangeId} {s s' : FoldState} :
    changes.foldlM (reconcileChange host store registry log queue) s = .ok s' ↔
      ∃ versions, changeVersions host store registry log queue changes = .ok versions ∧
        versions.foldlM (foldVersion host) s = .ok s' := by
  induction changes generalizing s with
  | nil =>
      simp [changeVersions, pure, Except.pure, bind, Except.bind]
  | cons change changes ih =>
      rw [List.foldlM_cons, reconcileChange_eq_foldVersion]
      unfold changeVersions at ih ⊢
      rw [List.mapM_cons]
      cases hversion : changeVersion host store registry log queue change with
      | error e => simp [bind, Except.bind]
      | ok v =>
          cases v with
          -- a change without a tip gives no version, and the fold passes over it
          | none =>
              simp only [bind, Except.bind, pure, Except.pure] at ih ⊢
              rw [ih]
              cases changes.mapM (changeVersion host store registry log queue) with
              | error e => simp
              | ok versions => simp
          | some v =>
              simp only [bind, Except.bind, pure, Except.pure] at ih ⊢
              cases hrest : changes.mapM (changeVersion host store registry log queue) with
              | error e =>
                  simp only [hrest] at ih
                  cases hfold : foldVersion host s v with
                  | error e => simp
                  | ok s₁ => simp [ih]
              | ok versions =>
                  simp only [hrest] at ih
                  cases hfold : foldVersion host s v with
                  | error e => simp [List.foldlM_cons, hfold, bind, Except.bind]
                  | ok s₁ => simp [ih, List.foldlM_cons, hfold, bind, Except.bind]

/-- A file of a change is merged over the base that the change brings. -/
theorem mergeText_eq (s : FoldState) (v : ChangeVersion) (path : Str) :
    mergeText host path (s.acc.textAt path) v =
      match v.texts[path]? with
      | none => some (s.acc.textAt path)
      | some version =>
          ((mergeFile host (v.base.getD s.acc) s.acc path version).toOption).map DriverOutput.merged := by
  unfold mergeText mergeFile
  cases v.texts[path]? with
  | none => rfl
  | some version => cases v.base <;> rfl

/-- Folding what a change brings merges each of its files and keeps the others. -/
theorem foldVersion_ok {s s' : FoldState} {v : ChangeVersion} (h : foldVersion host s v = .ok s') (path : Str) :
    mergeText host path (s.acc.textAt path) v = some (s'.acc.textAt path) ∧
      (s'.acc[path]? = none ↔ v.texts[path]? = none ∧ s.acc[path]? = none) := by
  have hloop := reconcileFiles_ok h path
  rw [mergeText_eq]
  cases hversion : v.texts[path]? with
  | none =>
      simp only [hversion] at hloop
      have htext : s'.acc.textAt path = s.acc.textAt path := by
        unfold TextFiles.textAt
        rw [hloop.1]
      simp [htext, hloop.1]
  | some version =>
      simp only [hversion] at hloop
      obtain ⟨out, hout, hset, -⟩ := hloop
      have htext : s'.acc.textAt path = out.merged := by
        unfold TextFiles.textAt
        rw [hset, Option.getD_some]
      simp [hout, Except.toOption, htext, hset]

theorem foldVersion_isOk {s : FoldState} {v : ChangeVersion}
    (h : ∀ path, (mergeText host path (s.acc.textAt path) v).isSome) :
    ∃ s', foldVersion host s v = .ok s' := by
  refine reconcileFiles_isOk fun path version hversion => ?_
  have hsome := h path
  rw [mergeText_eq, hversion] at hsome
  cases hout : mergeFile host (v.base.getD s.acc) s.acc path version with
  | error e => simp [hout, Except.toOption] at hsome
  | ok out => exact ⟨out, rfl⟩

/-- Folding what changes bring folds each file by itself. -/
theorem foldlM_foldVersion_ok {versions : List ChangeVersion} {s s' : FoldState}
    (h : versions.foldlM (foldVersion host) s = .ok s') (path : Str) :
    mergeTexts host path versions (s.acc.textAt path) = some (s'.acc.textAt path) ∧
      (s'.acc[path]? = none ↔ (∀ v ∈ versions, v.texts[path]? = none) ∧ s.acc[path]? = none) := by
  induction versions generalizing s with
  | nil =>
      obtain rfl : s = s' := by simpa [pure, Except.pure] using h
      exact ⟨rfl, by simp⟩
  | cons v versions ih =>
      rw [List.foldlM_cons] at h
      cases hstep : foldVersion host s v with
      | error e => simp [hstep, bind, Except.bind] at h
      | ok s₁ =>
          simp only [hstep, bind, Except.bind] at h
          obtain ⟨htext, hnone⟩ := foldVersion_ok hstep path
          obtain ⟨htexts, hnones⟩ := ih h
          refine ⟨?_, ?_⟩
          · unfold mergeTexts at htexts ⊢
            rw [List.foldlM_cons, htext]
            exact htexts
          · rw [hnones, hnone, List.forall_mem_cons]
            exact ⟨fun ⟨hrest, hv, hs⟩ => ⟨⟨hv, hrest⟩, hs⟩, fun ⟨⟨hv, hrest⟩, hs⟩ => ⟨hrest, hv, hs⟩⟩

theorem foldlM_foldVersion_isOk {versions : List ChangeVersion} {s : FoldState}
    (h : ∀ path, (mergeTexts host path versions (s.acc.textAt path)).isSome) :
    ∃ s', versions.foldlM (foldVersion host) s = .ok s' := by
  induction versions generalizing s with
  | nil => exact ⟨s, rfl⟩
  | cons v versions ih =>
      obtain ⟨s₁, hstep⟩ := @foldVersion_isOk host s v fun path => by
        have hsome := h path
        unfold mergeTexts at hsome
        rw [List.foldlM_cons] at hsome
        cases htext : mergeText host path (s.acc.textAt path) v with
        | none => simp [htext] at hsome
        | some text => rfl
      rw [List.foldlM_cons, hstep]
      refine ih fun path => ?_
      have hsome := h path
      unfold mergeTexts at hsome ⊢
      rw [List.foldlM_cons, (foldVersion_ok hstep path).1] at hsome
      exact hsome

end Folding

end Omoplata
