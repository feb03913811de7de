-- SUMMARY: The edits that a landing leaves in the head of its queue: its own, and those that have landed before.
import Omoplata.Cli.Fold
import Omoplata.Cli.Trunk
import Omoplata.Drivers.Retained
import Omoplata.Lib.Codec

/-!
# Edits in the head

A change adds a line to a file where its tip has the line more often than the content it was
begun on. The fold takes the line up, and every later change leaves it there that does not have
it less often than it was begun on, as long as the merges of the file retain the line.
-/

namespace Omoplata

/-! ## A file in a fold -/

namespace ChangeVersion

/-- The text that a file of a change is merged over, where `text` has come out so far. -/
def baseText (v : ChangeVersion) (path text : Str) : Str := (v.base.map fun base => base.textAt path).getD text

/-- A change has a line more often than what it was begun on. -/
def Adds (v : ChangeVersion) (path text : Str) (x : Line) : Prop :=
  ∃ version ∈ v.texts[path]?, (lines (v.baseText path text)).count x < (lines version).count x

instance (v : ChangeVersion) (path text : Str) (x : Line) : Decidable (v.Adds path text x) := by
  unfold Adds
  infer_instance

/-- A change takes no occurrence of a line away, and its merge retains the line. -/
def Spares (tools : Tools) (v : ChangeVersion) (path text : Str) (x : Line) : Prop :=
  ∀ version ∈ v.texts[path]?, (lines (v.baseText path text)).count x ≤ (lines version).count x ∧
    Retains tools path ⟨v.baseText path text, text, version, path⟩ x

end ChangeVersion

section

variable (host : Host) (path : Str) (x : Line)

/-- One of the changes adds a line to a file, on what the changes before it have come to. -/
def AddedBy : List ChangeVersion → Str → Prop
  | [], _ => False
  | v :: versions, text => v.Adds path text x ∨ ∃ text' ∈ mergeText host path text v, AddedBy versions text'

instance decidableAddedBy : (versions : List ChangeVersion) → (text : Str) → Decidable (AddedBy host path x versions text)
  | [], _ => isFalse id
  | v :: versions, text =>
      have := decidableAddedBy versions
      inferInstanceAs (Decidable (v.Adds path text x ∨ ∃ text' ∈ mergeText host path text v, AddedBy host path x versions text'))

/-- All of the changes spare a line of a file. -/
def SparedBy : List ChangeVersion → Str → Prop
  | [], _ => True
  | v :: versions, text =>
      v.Spares host.tools path text x ∧ ∀ text' ∈ mergeText host path text v, SparedBy versions text'

end

section

variable {host : Host} {path : Str} {x : Line}

/-- One change takes a line up, or leaves it there. -/
theorem mergeText_keeps {v : ChangeVersion} {text text' : Str} (hspares : v.Spares host.tools path text x)
    (hmerged : mergeText host path text v = some text') (h : x ∈ lines text ∨ v.Adds path text x) : x ∈ lines text' := by
  unfold mergeText at hmerged
  -- a version without the file adds nothing to it
  cases hversion : v.texts[path]? with
  | none =>
      simp only [hversion, Option.some.injEq] at hmerged
      subst hmerged
      refine h.resolve_right ?_
      rintro ⟨version, hmem, -⟩
      rw [hversion] at hmem
      cases hmem
  | some version =>
      simp only [hversion] at hmerged
      obtain ⟨out, hout, rfl⟩ := Option.map_eq_some_iff.mp hmerged
      obtain ⟨hle, hretains⟩ := hspares version hversion
      have hselect : selectDriver host.tools path ⟨v.baseText path text, text, version, path⟩ = .ok out := by
        unfold ChangeVersion.baseText
        cases hrun : selectDriver host.tools path
            ⟨(v.base.map fun base => base.textAt path).getD text, text, version, path⟩ with
        | error e => simp [hrun, Except.toOption] at hout
        | ok out' => simpa [hrun, Except.toOption] using hout
      refine hretains.mem hselect ?_
      -- either way the sides together have the line more often than the base
      rcases h with hx | ⟨version', hmem, hlt⟩
      · have hpos := List.count_pos_iff.mpr hx
        dsimp only
        omega
      · obtain rfl := Option.some.inj (hversion.symm.trans hmem)
        dsimp only
        omega

/-- A fold takes a line up, or leaves it there. -/
theorem mergeTexts_keeps {versions : List ChangeVersion} {text text' : Str} (hspared : SparedBy host path x versions text)
    (hmerged : mergeTexts host path versions text = some text') (h : x ∈ lines text ∨ AddedBy host path x versions text) :
    x ∈ lines text' := by
  induction versions generalizing text with
  | nil =>
      cases hmerged
      exact h.resolve_right id
  | cons v versions ih =>
      unfold mergeTexts at hmerged
      rw [List.foldlM_cons] at hmerged
      obtain ⟨mid, hmid, hrest⟩ := Option.bind_eq_some_iff.mp hmerged
      obtain ⟨hv, hversions⟩ := hspared
      refine ih (hversions mid hmid) hrest ?_
      -- what an earlier version brings, the later ones spare
      rcases h with hx | hadds | ⟨mid', hmid', hadded⟩
      · exact .inl (mergeText_keeps hv hmid (.inl hx))
      · exact .inl (mergeText_keeps hv hmid (.inr hadds))
      · obtain rfl := Option.some.inj (hmid.symm.trans hmid')
        exact .inr hadded

/-- A file that the line driver merges spares a line that no change has less often than the content
    its author began from. -/
theorem SparedBy.of_lineMerged {versions : List ChangeVersion} (hline : lineMerged host.tools path = true)
    (h : ∀ v ∈ versions, ∀ version ∈ v.texts[path]?, ∃ base ∈ v.base,
      (lines (base.textAt path)).count x ≤ (lines version).count x) (text : Str) :
    SparedBy host path x versions text := by
  induction versions generalizing text with
  | nil => trivial
  | cons v versions ih =>
      obtain ⟨hv, hversions⟩ := List.forall_mem_cons.mp h
      refine ⟨fun version hversion => ?_, fun text' _ => ih hversions text'⟩
      obtain ⟨base, hbase, hle⟩ := hv version hversion
      have htext : v.baseText path text = base.textAt path := by
        unfold ChangeVersion.baseText
        rw [Option.mem_def.mp hbase]
        rfl
      rw [htext]
      exact ⟨hle, .inl hline⟩

end

/-! ## The head of a queue -/

/-- The head of a queue has a line in a file. -/
def InHead (host : Host) (store : Store) (refs : Refs) (queue path : Str) (x : Line) : Prop :=
  ∃ tip files, refs[reconciledRef queue]? = some (ObjectId.toText tip) ∧ checkOut host store tip = .ok files ∧
    x ∈ lines ((readTreeFiles files).textAt path)

section

variable (host : Host) (registry : QueueRegistry) (queue : Str) (store : Store) (log : OpLog)
  (subs : List Submission) (path : Str) (x : Line)

/-- One of the changes of the submissions adds a line to a file. -/
def AddsLine : Prop :=
  ∃ acc ∈ (materializeTrunk host store registry log.refsNow queue).toOption,
    ∃ versions ∈ (changeVersions host store registry log queue (subs.flatMap Submission.changes)).toOption,
      AddedBy host path x versions (acc.textAt path)

instance : Decidable (AddsLine host registry queue store log subs path x) := by
  unfold AddsLine
  infer_instance

/-- The changes of the submissions spare a line of a file, and what is stored under the id of the
    reconciled tree is this tree. -/
structure SparesLine : Prop where
  changes : ∀ acc ∈ (materializeTrunk host store registry log.refsNow queue).toOption,
    ∀ versions ∈ (changeVersions host store registry log queue (subs.flatMap Submission.changes)).toOption,
      SparedBy host path x versions (acc.textAt path)
  tree : ∀ s ∈ (reconcileFold host store registry log queue subs).toOption, ∀ files ∈ writeFiles s.acc,
    ∀ found ∈ store.trees[(host.treeId files).toText]?, found = files

/-- No change of the submissions has a line less often than the content its author began from; this
    is what a file asks that is merged by lines. -/
structure LinesSpared : Prop where
  changes : ∀ versions ∈ (changeVersions host store registry log queue (subs.flatMap Submission.changes)).toOption,
    ∀ v ∈ versions, ∀ version ∈ v.texts[path]?, ∃ base ∈ v.base,
      (lines (base.textAt path)).count x ≤ (lines version).count x
  tree : ∀ s ∈ (reconcileFold host store registry log queue subs).toOption, ∀ files ∈ writeFiles s.acc,
    ∀ found ∈ store.trees[(host.treeId files).toText]?, found = files

instance : Decidable (LinesSpared host registry queue store log subs path x) :=
  decidable_of_iff (_ ∧ _) ⟨fun ⟨hchanges, htree⟩ => ⟨hchanges, htree⟩, fun h => ⟨h.changes, h.tree⟩⟩

end

theorem LinesSpared.sparesLine {host : Host} {registry : QueueRegistry} {queue : Str} {store : Store} {log : OpLog}
    {subs : List Submission} {path : Str} {x : Line} (hline : lineMerged host.tools path = true)
    (h : LinesSpared host registry queue store log subs path x) :
    SparesLine host registry queue store log subs path x where
  changes _ _ versions hversions := SparedBy.of_lineMerged hline (h.changes versions hversions) _
  tree := h.tree

/-- A written directory has the texts of the content, but for control names. -/
theorem textAt_readTreeFiles_writeFiles {content : TextFiles} {files : Files} (h : writeFiles content = some files)
    {path : Str} (hcontrol : isControlPath path = false) : (readTreeFiles files).textAt path = content.textAt path := by
  obtain ⟨hapart, hwritten⟩ := writeFiles_eq_some_iff.mp h
  have hplace : (readTreeFiles files)[path]? = content[path]? := by
    rw [getElem?_readTreeFiles, hwritten]
    unfold writtenAt
    split
    · -- a directory that is left empty lies on the way to a file, so no file is in its place
      rename_i hempty
      obtain ⟨⟨p, hp, hparent⟩, -⟩ := leftEmpty_iff.mp hempty
      cases hpath : content[path]? with
      | none => rfl
      | some text =>
          exact absurd (prefix_of_controlParent hparent) (hapart path p (hpath ▸ Option.some_ne_none _) hp)
    · rw [if_neg (by rw [hcontrol]; exact Bool.false_ne_true)]
      cases content[path]? <;> rfl
  unfold TextFiles.textAt
  rw [hplace]

section

variable {host : Host} {registry : QueueRegistry} {store : Store} {log : OpLog} {policy : QueuePolicy}
  {subs : List Submission} {path : Str} {x : Line}

/-- The tree of a reconciliation has the lines that its changes add and those of the head, where
    its changes spare them; no other tree is stored under its id. -/
theorem reconcileCore_keeps {rec : Reconciliation} {store' : Store}
    (hcore : reconcileCore host store registry log policy subs = .ok (rec, store'))
    (hspares : SparesLine host registry policy.name store log subs path x) (hcontrol : isControlPath path = false)
    (h : InHead host store log.refsNow policy.name path x ∨ AddsLine host registry policy.name store log subs path x) :
    ∃ files, host.treeId files = rec.tip ∧ x ∈ lines ((readTreeFiles files).textAt path) ∧
      ∀ found, store.trees[rec.tip.toText]? = some found → found = files := by
  obtain ⟨s, files, hfold, hfiles, rfl, rfl⟩ := reconcileCore_ok_iff.mp hcore
  have htip : (s.report host (host.treeId files)).tip = host.treeId files := rfl
  rw [htip]
  refine ⟨files, rfl, ?_, hspares.tree s (Codec.toOption_eq_some.mpr hfold) files hfiles⟩
  unfold reconcileFold at hfold
  obtain ⟨acc, hacc, hfold⟩ := Codec.bind_eq_ok.mp hfold
  obtain ⟨versions, hversions, hfolded⟩ := foldlM_reconcileChange_ok_iff.mp hfold
  rw [textAt_readTreeFiles_writeFiles hfiles hcontrol]
  refine mergeTexts_keeps (hspares.changes acc (Codec.toOption_eq_some.mpr hacc) versions
    (Codec.toOption_eq_some.mpr hversions)) (foldlM_foldVersion_ok hfolded path).1 ?_
  rcases h with ⟨tip, found, hhead, hfound, hx⟩ | ⟨acc', hacc', versions', hversions', hadded⟩
  · obtain rfl := Except.ok.inj (hacc.symm.trans (materializeTrunk_of_head hhead hfound))
    exact .inl hx
  · rw [hacc, Except.toOption, Option.mem_some] at hacc'
    rw [hversions, Except.toOption, Option.mem_some] at hversions'
    subst hacc' hversions'
    exact .inr hadded

end

end Omoplata
