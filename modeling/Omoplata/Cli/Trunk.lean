-- SUMMARY: When reconciling a change onto the trunk it was begun from gives the tree of its tip.
import Omoplata.Cli.Reconcile
import Omoplata.Drivers.TakeSide
import Mathlib.Data.List.TakeWhile

/-!
# An unchanged trunk

A change whose trunk has not moved since it was begun is reconciled file by file, each
with the trunk's text as base and as left side. That gives the tree of its tip where the
tip drops no file of the trunk, is text throughout, and every driver takes the side that
changed. The line driver does; a file that is dropped comes back, and one that is not text
is lost.
-/

namespace Omoplata

/-! ## Writing a content out -/

/-- A directory that a path with a control name passes through holds nothing but such paths. -/
def LeftEmpty (holds : Str → Prop) (dir : Str) : Prop :=
  (∃ p, holds p ∧ controlParent p = some dir) ∧
    ∀ p, holds p → dir ++ ['/'] <+: p → controlParent p = some dir

theorem isControlPath_of_controlParent {p dir : Str} (h : controlParent p = some dir) :
    isControlPath p = true := by
  unfold controlParent at h
  rw [isControlPath, List.any_eq_true]
  by_contra hnone
  have hfront : (p.splitOn '/').takeWhile (fun part => !controlNames.contains part) = p.splitOn '/' :=
    List.takeWhile_eq_self_iff.mpr fun part hpart => by
      cases hcontrol : controlNames.contains part with
      | false => rfl
      | true => exact absurd ⟨part, hpart, hcontrol⟩ hnone
  simp only [hfront, beq_self_eq_true, Bool.or_true, if_true, reduceCtorEq] at h

theorem intercalate_append_prefix (front : List Str) {rest : List Str} (hfront : front ≠ []) (hrest : rest ≠ []) :
    ['/'].intercalate front ++ ['/'] <+: ['/'].intercalate (front ++ rest) := by
  induction front with
  | nil => exact absurd rfl hfront
  | cons part front ih =>
      cases front with
      | nil =>
          rw [List.intercalate_singleton, List.singleton_append, List.intercalate_cons_of_ne_nil hrest]
          exact List.prefix_append _ _
      | cons part' front =>
          have htail := ih (List.cons_ne_nil part' front)
          rw [List.cons_append] at htail
          rw [List.cons_append, List.cons_append, List.intercalate_cons_cons, List.intercalate_cons_cons,
            List.append_assoc]
          exact (List.prefix_append_right_inj _).mpr htail

/-- The directory that has a control name lies above the path. -/
theorem prefix_of_controlParent {p dir : Str} (h : controlParent p = some dir) : dir ++ ['/'] <+: p := by
  unfold controlParent at h
  dsimp only at h
  split at h
  · cases h
  · rename_i hcut
    rw [Option.some.injEq] at h
    subst h
    rw [Bool.or_eq_true, not_or, List.isEmpty_iff, beq_iff_eq] at hcut
    have hparts := @List.takeWhile_append_dropWhile _ (fun part => !controlNames.contains part) (p.splitOn '/')
    have hrest : (p.splitOn '/').dropWhile (fun part => !controlNames.contains part) ≠ [] := by
      intro hnil
      rw [hnil, List.append_nil] at hparts
      exact hcut.2 (congrArg List.length hparts)
    have hprefix := intercalate_append_prefix _ hcut.1 hrest
    rwa [hparts, List.intercalate_splitOn] at hprefix

/-- Without control names nothing is left empty. -/
theorem not_leftEmpty {holds : Str → Prop} (h : ∀ p, holds p → isControlPath p = false) (dir : Str) :
    ¬ LeftEmpty holds dir := by
  rintro ⟨⟨p, hp, hparent⟩, -⟩
  have hcontrol := isControlPath_of_controlParent hparent
  rw [h p hp] at hcontrol
  cases hcontrol

/-- What is left empty is not written itself, where no path runs through another. -/
theorem LeftEmpty.not_holds {holds : Str → Prop} {dir : Str} (h : LeftEmpty holds dir)
    (hapart : ∀ p q, holds p → holds q → ¬ p ++ ['/'] <+: q) : ¬ holds dir := by
  obtain ⟨⟨p, hp, hparent⟩, -⟩ := h
  exact fun hdir => hapart dir p hdir hp (prefix_of_controlParent hparent)

theorem LeftEmpty.congr {holds holds' : Str → Prop} (h : ∀ p, holds p ↔ holds' p) {dir : Str} :
    LeftEmpty holds dir ↔ LeftEmpty holds' dir := by
  rw [show holds = holds' from funext fun p => propext (h p)]

theorem mem_keys_iff_ne_none {content : TextFiles} {p : Str} : p ∈ content.keys ↔ content[p]? ≠ none := by
  rw [Std.ExtTreeMap.mem_keys, Std.ExtTreeMap.mem_iff_isSome_getElem?, Option.isSome_iff_ne_none]

theorem leftEmpty_iff {content : TextFiles} {dir : Str} :
    leftEmpty content dir = true ↔ LeftEmpty (fun p => content[p]? ≠ none) dir := by
  unfold leftEmpty LeftEmpty
  rw [Bool.and_eq_true, List.any_eq_true, List.all_eq_true]
  refine and_congr ?_ ?_
  · simp only [mem_keys_iff_ne_none, beq_iff_eq]
  · simp only [mem_keys_iff_ne_none, Bool.or_eq_true, beq_iff_eq, Bool.not_eq_true']
    refine forall₂_congr fun p hp => ?_
    rw [← List.isPrefixOf_iff_prefix]
    cases (dir ++ ['/']).isPrefixOf p <;> simp

theorem getElem?_foldl_insert (dirs : List Str) (kept : Files) (path : Str) :
    (dirs.foldl (fun kept dir => kept.insert dir .directory) kept)[path]? =
      if path ∈ dirs then some .directory else kept[path]? := by
  induction dirs generalizing kept with
  | nil => rfl
  | cons dir dirs ih =>
      rw [List.foldl_cons, ih, BTreeMap.getElem?_insert]
      by_cases hdir : path = dir
      · simp [hdir]
      · simp [hdir, Ne.symm hdir]

/-- What the written directory holds at a path. -/
def writtenAt (content : TextFiles) (path : Str) : Option Content :=
  if leftEmpty content path then some .directory
  else if isControlPath path then none else content[path]?.map .text

theorem writtenAt_eq (content : TextFiles) (path : Str) :
    (((content.keys.filterMap controlParent).filter (leftEmpty content)).foldl
      (fun kept dir => kept.insert dir .directory)
      (content.filterMap fun path s => if isControlPath path then none else some (.text s) : Files))[path]? =
      writtenAt content path := by
  have hmem : path ∈ (content.keys.filterMap controlParent).filter (leftEmpty content) ↔
      leftEmpty content path = true := by
    rw [List.mem_filter, List.mem_filterMap]
    refine ⟨And.right, fun h => ⟨?_, h⟩⟩
    obtain ⟨⟨p, hp, hparent⟩, -⟩ := leftEmpty_iff.mp h
    exact ⟨p, mem_keys_iff_ne_none.mpr hp, hparent⟩
  rw [getElem?_foldl_insert, writtenAt, Std.ExtTreeMap.getElem?_filterMap']
  simp only [hmem]
  split
  · rfl
  · cases content[path]? <;> cases isControlPath path <;> rfl

theorem writeFiles_eq_some_iff {content : TextFiles} {files : Files} :
    writeFiles content = some files ↔
      (∀ p q, content[p]? ≠ none → content[q]? ≠ none → ¬ p ++ ['/'] <+: q) ∧
        ∀ path, files[path]? = writtenAt content path := by
  have hclash : (content.keys.any fun p => content.keys.any fun q => (p ++ ['/']).isPrefixOf q) = false ↔
      ∀ p q, content[p]? ≠ none → content[q]? ≠ none → ¬ p ++ ['/'] <+: q := by
    simp only [List.any_eq_false, mem_keys_iff_ne_none, Bool.not_eq_true, ← List.isPrefixOf_iff_prefix]
    exact ⟨fun h p q hp hq => h p hp q hq, fun h p hp q hq => h p q hp hq⟩
  unfold writeFiles
  rw [← hclash]
  cases content.keys.any fun p => content.keys.any fun q => (p ++ ['/']).isPrefixOf q with
  | true => simp
  | false =>
      simp only [Bool.false_eq_true, if_false, Option.some.injEq, true_and]
      constructor
      · rintro rfl
        exact writtenAt_eq content
      · intro h
        refine Std.ExtTreeMap.ext_getElem? fun path => ?_
        rw [writtenAt_eq, h]

theorem exists_writeFiles {content : TextFiles}
    (h : ∀ p q, content[p]? ≠ none → content[q]? ≠ none → ¬ p ++ ['/'] <+: q) :
    ∃ files, writeFiles content = some files :=
  ⟨_, writeFiles_eq_some_iff.mpr ⟨h, writtenAt_eq content⟩⟩

/-- A content without control names is written as it is. -/
theorem writtenAt_of_plain {content : TextFiles}
    (h : ∀ p : Str, content[p]? ≠ none → isControlPath p = false) (path : Str) :
    writtenAt content path = content[path]?.map .text := by
  have hempty : leftEmpty content path = false := by
    rw [Bool.eq_false_iff, ne_eq, leftEmpty_iff]
    exact not_leftEmpty h path
  rw [writtenAt, hempty, if_neg Bool.false_ne_true]
  split
  · rename_i hcontrol
    cases hpath : content[path]? with
    | none => rfl
    | some text =>
        rw [h path (hpath ▸ Option.some_ne_none _)] at hcontrol
        cases hcontrol
  · rfl

theorem getElem?_readTreeFiles (files : Files) (path : Str) :
    (readTreeFiles files)[path]? = files[path]?.bind Content.readToString := by
  unfold readTreeFiles
  exact Std.ExtTreeMap.getElem?_filterMap'

/-! ## One change on its trunk -/

/-- A submission of one change, whose tip is a stored tree, onto the content of a queue
    that is also what the change was begun from. -/
structure OnTrunk (host : Host) (store : Store) (registry : QueueRegistry) (log : OpLog) (queue : Str)
    (sub : Submission) (files : Files) (trunk : TextFiles) : Prop where
  tip : ∃ c tip id, sub.changes = [c] ∧ log.refsNow[c]? = some tip ∧ parseTip tip = .ok (some id) ∧
    store.read host.treeId id = .ok files ∧
    ∀ seq, changeFirstCommitSeq log c = some seq →
      materializeTrunk host store registry (log.refsAt seq) queue = .ok trunk
  head : materializeTrunk host store registry log.refsNow queue = .ok trunk

/-- What a text of the tip has to be for its driver to take it over the text of the trunk. For
    the structural driver its items, put together in the order and behind the gaps of the
    trunk, spell it. A run of the outside tool on the two texts gives it, and leaves no
    block of conflict markers where it says that conflicts remain. The line driver asks for
    nothing. -/
def TakesText (host : Host) (path trunk version : Str) : Prop :=
  if hasExtension path "rs".toList then
    match textSegmentation host.tools.grammar trunk, textSegmentation host.tools.grammar version with
    | some base, some side => reassemble (fun _ s => s.originalText) base side = version
    | _, _ => True
  else
    match host.tools.mergiraf with
    | some run => supportsExtension path = true →
        ∃ out, run ⟨trunk, trunk, version, path⟩ = .ok out ∧ out.output = version ∧
          (out.conflicted = true → parseDiff3Conflicts version = [])
    | none => True

theorem mergirafMerge_takes_iff {run : MergeInput → Except DriverError MergirafRun} {input : MergeInput}
    {text : Str} :
    (∃ out, mergirafMerge run input = .ok out ∧ out.merged = text ∧ out.conflicts = []) ↔
      ∃ out, run input = .ok out ∧ out.output = text ∧
        (out.conflicted = true → parseDiff3Conflicts text = []) := by
  unfold mergirafMerge
  cases hrun : run input with
  | error e => simp [bind, Except.bind]
  | ok out =>
      simp only [bind, Except.bind, pure, Except.pure, Except.ok.injEq, exists_eq_left']
      refine and_congr_right fun htext => ?_
      rw [htext]
      cases out.conflicted <;> simp

/-- The driver of a path takes a text over the trunk's exactly where the text can be taken. -/
theorem takesText_iff {host : Host} {path trunk version : Str} :
    (∃ out, selectDriver host.tools path ⟨trunk, trunk, version, path⟩ = .ok out ∧ out.merged = version ∧
      out.conflicts = []) ↔ TakesText host path trunk version := by
  unfold selectDriver TakesText
  split
  · -- The structural driver reports no conflict; what it merges is the reassembled text.
    simp only [Except.ok.injEq, exists_eq_left']
    split
    · rename_i base side hbase hside
      obtain ⟨hconflicts, hmerged⟩ := rustMerge_reassembles hbase hside path
        ⟨trunk, trunk, version, path⟩ (by simp)
      rw [hconflicts, hmerged]
      exact and_iff_left rfl
    -- without a segmentation on one side the texts are merged line by line
    · rename_i hopen
      have hclosed : textSegmentation host.tools.grammar trunk = none ∨
          textSegmentation host.tools.grammar version = none := by
        cases hbase : textSegmentation host.tools.grammar trunk with
        | none => exact .inl rfl
        | some base =>
            cases hside : textSegmentation host.tools.grammar version with
            | none => exact .inr rfl
            | some side => exact (hopen base side hbase hside).elim
      obtain ⟨hconflicts, hmerged⟩ := @rustMerge_takes_line _ trunk version path hclosed
        ⟨trunk, trunk, version, path⟩ (by simp)
      exact iff_of_true ⟨hmerged, hconflicts⟩ trivial
  -- a line file takes the tip: nothing on the trunk's side has changed
  · have hline : ∃ out, (Except.ok (lineMerge ⟨trunk, trunk, version, path⟩) : Except DriverError DriverOutput) =
        .ok out ∧ out.merged = version ∧ out.conflicts = [] :=
      ⟨_, rfl, by rw [lineMerge_base_left], by rw [lineMerge_base_left]⟩
    cases host.tools.mergiraf with
    | none => exact iff_of_true hline trivial
    | some run =>
        dsimp only
        split
        · rename_i hsupported
          rw [mergirafMerge_takes_iff, forall_prop_of_true hsupported]
        · rename_i hsupported
          exact iff_of_true hline fun h => absurd h hsupported

/-- The paths that a reconciliation onto a trunk writes. -/
def Reaches (trunk : TextFiles) (files : Files) (path : Str) : Prop :=
  trunk[path]? ≠ none ∨ (readTreeFiles files)[path]? ≠ none

/-- A tip that can be taken over the trunk: it drops no file, is text throughout and outside
    of control names, has an empty directory only where the trunk has control names and
    nothing else, and each of its texts can be taken. -/
structure TakesTip (host : Host) (trunk : TextFiles) (files : Files) : Prop where
  keeps : ∀ path, trunk[path]? ≠ none → isControlPath path = false → files[path]? ≠ none
  takes : ∀ path c, files[path]? = some c → c ≠ .directory → isControlPath path = false ∧
    ∃ version, c = .text version ∧ TakesText host path (trunk.textAt path) version
  directories : ∀ path, files[path]? = some .directory ↔ LeftEmpty (Reaches trunk files) path
  apart : ∀ p q, Reaches trunk files p → Reaches trunk files q → ¬ p ++ ['/'] <+: q

/-- The fold is the loop over the files of the tip. -/
theorem OnTrunk.reconcileFold_eq {host : Host} {store : Store} {registry : QueueRegistry} {log : OpLog}
    {queue : Str} {sub : Submission} {files : Files} {trunk : TextFiles}
    (h : OnTrunk host store registry log queue sub files trunk) :
    reconcileFold host store registry log queue [sub] =
      (readTreeFiles files).toList.foldlM
        (fun s (path, version) => reconcileFile host trunk s path version) ⟨trunk, ∅⟩ := by
  obtain ⟨c, tip, id, hchanges, href, hparse, hread, hbase⟩ := h.tip
  -- the change was begun on the trunk, so its base is what the fold starts from
  have hchange : ∀ s : FoldState, s.acc = trunk → reconcileChange host store registry log queue s c =
      (readTreeFiles files).toList.foldlM
        (fun s (path, version) => reconcileFile host trunk s path version) s := by
    intro s hs
    unfold reconcileChange
    simp only [href, hparse, checkOut, hread, Except.mapError, bind, Except.bind]
    cases hseq : changeFirstCommitSeq log c with
    | none => simp [pure, Except.pure, hs]
    | some seq => simp [hbase seq hseq]
  unfold reconcileFold
  simp only [h.head, bind, Except.bind, List.flatMap_cons, List.flatMap_nil, List.append_nil, hchanges,
    List.foldlM_cons, List.foldlM_nil]
  rw [hchange ⟨trunk, ∅⟩ rfl]
  cases (readTreeFiles files).toList.foldlM
    (fun s (path, version) => reconcileFile host trunk s path version) (⟨trunk, ∅⟩ : FoldState) <;> rfl

/-- A reconciliation reports no conflict and its tree is the given one. -/
def GivesTree (host : Host) (store : Store) (registry : QueueRegistry) (log : OpLog)
    (policy : QueuePolicy) (subs : List Submission) (files : Files) : Prop :=
  ∃ s store', reconcileCore host store registry log policy subs =
      .ok (s.report host (host.treeId files), store') ∧
    reconcileFold host store registry log policy.name subs = .ok s ∧
    writeFiles s.acc = some files ∧ s.conflicted = ∅

theorem givesTree_iff {host : Host} {store : Store} {registry : QueueRegistry} {log : OpLog}
    {policy : QueuePolicy} {subs : List Submission} {files : Files} :
    GivesTree host store registry log policy subs files ↔
      ∃ s, reconcileFold host store registry log policy.name subs = .ok s ∧
        writeFiles s.acc = some files ∧ s.conflicted = ∅ := by
  constructor
  · rintro ⟨s, -, -, hfold, hfiles, hclean⟩
    exact ⟨s, hfold, hfiles, hclean⟩
  · rintro ⟨s, hfold, hfiles, hclean⟩
    exact ⟨s, _, reconcileCore_ok_iff.mpr ⟨s, files, hfold, hfiles, rfl, rfl⟩, hfold, hfiles, hclean⟩

theorem mem_conflicted_empty (p : Str) : ¬ p ∈ (∅ : BTreeSet Str) := Std.ExtTreeSet.not_mem_empty

/-- The loop over the files of a tip gives its tree where the tip can be taken. -/
theorem TakesTip.loop {host : Host} {trunk : TextFiles} {files : Files} (h : TakesTip host trunk files) :
    ∃ s, (readTreeFiles files).toList.foldlM
        (fun s (path, version) => reconcileFile host trunk s path version) ⟨trunk, ∅⟩ = .ok s ∧
      writeFiles s.acc = some files ∧ s.conflicted = ∅ := by
  have htext : ∀ path version : Str, (readTreeFiles files)[path]? = some version →
      isControlPath path = false ∧ files[path]? = some (.text version) ∧
        TakesText host path (trunk.textAt path) version := by
    intro path version hversion
    rw [getElem?_readTreeFiles, Option.bind_eq_some_iff] at hversion
    obtain ⟨c, hc, hread⟩ := hversion
    obtain ⟨hcontrol, version', rfl, htakes⟩ := h.takes path c hc (by rintro rfl; cases hread)
    obtain rfl : version' = version := Option.some.inj hread
    exact ⟨hcontrol, hc, htakes⟩
  obtain ⟨s, hs, hacc, hclean⟩ := @reconcileFiles_takes host trunk (readTreeFiles files) ⟨trunk, ∅⟩
    fun path version hversion => takesText_iff.mpr (htext path version hversion).2.2
  have hreaches : ∀ path : Str, s.acc[path]? ≠ none ↔ Reaches trunk files path := by
    intro path
    rw [hacc path, ne_eq, Option.or_eq_none_iff, Reaches]
    tauto
  refine ⟨s, hs, writeFiles_eq_some_iff.mpr ⟨fun p q hp hq => h.apart p q ((hreaches p).mp hp)
    ((hreaches q).mp hq), fun path => ?_⟩, hclean⟩
  have hempty : leftEmpty s.acc path = true ↔ files[path]? = some .directory :=
    (leftEmpty_iff.trans (LeftEmpty.congr hreaches)).trans (h.directories path).symm
  unfold writtenAt
  split
  · rename_i hleft
    exact hempty.mp hleft
  · rename_i hleft
    rw [hempty] at hleft
    rw [hacc path]
    cases hversion : (readTreeFiles files)[path]? with
    | some version =>
        obtain ⟨hcontrol, hc, -⟩ := htext path version hversion
        rw [hcontrol, hc]
        rfl
    | none =>
        -- The tip has no text here, so the trunk has nothing either, or only a control name.
        have hnone : files[path]? = none := by
          cases hc : files[path]? with
          | none => rfl
          | some c =>
              obtain ⟨-, version, rfl, -⟩ := h.takes path c hc (by rintro rfl; exact hleft hc)
              rw [getElem?_readTreeFiles, hc] at hversion
              cases hversion
        rw [hnone]
        split
        · rfl
        · rename_i hcontrol
          have htrunk : trunk[path]? = none := by
            by_contra hsome
            exact h.keeps path hsome (by simpa using hcontrol) hnone
          rw [htrunk]
          rfl

/-- A loop that gives the tree of a tip has taken it. -/
theorem takesTip_of_loop {host : Host} {trunk : TextFiles} {files : Files} {s : FoldState}
    (hs : (readTreeFiles files).toList.foldlM
      (fun s (path, version) => reconcileFile host trunk s path version) ⟨trunk, ∅⟩ = .ok s)
    (hfiles : writeFiles s.acc = some files) (hclean : s.conflicted = ∅) : TakesTip host trunk files := by
  obtain ⟨hapart, hlookup⟩ := writeFiles_eq_some_iff.mp hfiles
  -- the fold holds what the trunk held and what the tip brings
  have hreaches : ∀ path : Str, s.acc[path]? ≠ none ↔ Reaches trunk files path := by
    intro path
    have hloop := reconcileFiles_ok hs path
    unfold Reaches
    split at hloop
    · rename_i hversion
      rw [hloop.1, hversion]
      simp
    · rename_i version hversion
      obtain ⟨out, -, hset, -⟩ := hloop
      rw [hset, hversion]
      simp
  have hempty : ∀ path : Str, leftEmpty s.acc path = true ↔ LeftEmpty (Reaches trunk files) path := fun _ =>
    leftEmpty_iff.trans (LeftEmpty.congr hreaches)
  refine ⟨fun path hsome hcontrol hnone => ?_, fun path c hc hfile => ?_, fun path => ?_, fun p q hp hq =>
    hapart p q ((hreaches p).mpr hp) ((hreaches q).mpr hq)⟩
  · rw [hlookup, writtenAt, hcontrol] at hnone
    split at hnone
    · cases hnone
    · have hacc := (hreaches path).mpr (.inl hsome)
      cases htext : s.acc[path]? with
      | none => exact hacc htext
      | some text => simp [htext] at hnone
  · have hc' := hlookup path
    rw [hc, writtenAt] at hc'
    split at hc'
    · exact absurd (Option.some.inj hc') hfile
    · split at hc'
      · cases hc'
      · rename_i hcontrol
        obtain ⟨text, hacc, rfl⟩ := Option.map_eq_some_iff.mp hc'.symm
        -- a file that is written came through the driver, without a conflict
        have hversion : (readTreeFiles files)[path]? = some text := by
          rw [getElem?_readTreeFiles, hc]
          rfl
        have hloop := reconcileFiles_ok hs path
        simp only [hversion] at hloop
        obtain ⟨out, hout, hset, hconf⟩ := hloop
        refine ⟨by simpa using hcontrol, text, rfl, takesText_iff.mp ⟨out, hout,
          Option.some.inj (hset.symm.trans hacc), ?_⟩⟩
        by_contra hconflicts
        have hin : path ∈ s.conflicted := hconf.mpr (.inr hconflicts)
        rw [hclean] at hin
        exact mem_conflicted_empty path hin
  · rw [← hempty, hlookup, writtenAt]
    split
    · rename_i hleft
      exact iff_of_true rfl hleft
    · rename_i hleft
      refine iff_of_false (fun hdir => ?_) hleft
      split at hdir
      · cases hdir
      · obtain ⟨text, -, htext⟩ := Option.map_eq_some_iff.mp hdir
        cases htext

/-- Reconciling a change onto the trunk it was begun from gives the tree of its tip, without
    a conflict, exactly where the tip can be taken. -/
theorem reconcile_onTrunk_iff {host : Host} {store : Store} {registry : QueueRegistry} {log : OpLog}
    {policy : QueuePolicy} {sub : Submission} {files : Files} {trunk : TextFiles}
    (h : OnTrunk host store registry log policy.name sub files trunk) :
    GivesTree host store registry log policy [sub] files ↔ TakesTip host trunk files := by
  rw [givesTree_iff, h.reconcileFold_eq]
  constructor
  · rintro ⟨s, hs, hfiles, hclean⟩
    exact takesTip_of_loop hs hfiles hclean
  · exact TakesTip.loop

/-- Every text is taken by the line driver, and a Rust text that keeps the layout of the trunk's
    by the structural one. -/
theorem takesText_of_layout {host : Host} {path trunk version : Str} (h : lineMerged host.tools path = true ∨
    hasExtension path "rs".toList = true ∧ ∀ base side,
      textSegmentation host.tools.grammar trunk = some base →
      textSegmentation host.tools.grammar version = some side → KeepsLayout base side) :
    TakesText host path trunk version := by
  rcases h with hline | ⟨hrs, hlayout⟩
  · exact takesText_iff.mp ⟨_, selectDriver_of_lineMerged hline _, by rw [lineMerge_base_left],
      by rw [lineMerge_base_left]⟩
  · unfold TakesText
    rw [if_pos hrs]
    split
    · rename_i base side hbase hside
      have hsegments := textSegmentation_segments hside
      exact ((hlayout base side hbase hside).reassemble hsegments.gaps fun _ _ _ _ _ => rfl).trans hsegments.joined
    · trivial

/-! ## Two changes -/

/-- A queue whose head has the files `head`, and a change that was then begun and has `tip`. -/
def trunkLog (head tip : List Str) : OpLog :=
  (OpLog.new.setRef (reconciledRef "q".toList)
    (some (sampleHost.treeId (emptyFiles head)).toText) none).append
      (.commit "w".toList "c".toList (sampleHost.treeId (emptyFiles tip)).toText none none) none nofun

def trunkStore (head tip : List Str) : Store :=
  [emptyFiles head, emptyFiles tip].foldl (fun store files => (store.write sampleHost.treeId files).2) ⟨∅⟩

def onePolicy : QueuePolicy := ⟨"q".toList, none, none, true, true⟩

theorem onTrunk_sample {head tip : List Str}
    (href : (trunkLog head tip).refsNow["c".toList]? = some (sampleHost.treeId (emptyFiles tip)).toText)
    (hparse : parseTip (sampleHost.treeId (emptyFiles tip)).toText =
      .ok (some (sampleHost.treeId (emptyFiles tip))))
    (hread : (trunkStore head tip).read sampleHost.treeId (sampleHost.treeId (emptyFiles tip)) =
      .ok (emptyFiles tip))
    (hfirst : changeFirstCommitSeq (trunkLog head tip) "c".toList = some 1)
    (hbase : materializeTrunk sampleHost (trunkStore head tip) ⟨[]⟩ ((trunkLog head tip).refsAt 1)
      "q".toList = .ok (readTreeFiles (emptyFiles head)))
    (hhead : materializeTrunk sampleHost (trunkStore head tip) ⟨[]⟩ (trunkLog head tip).refsNow
      "q".toList = .ok (readTreeFiles (emptyFiles head))) :
    OnTrunk sampleHost (trunkStore head tip) ⟨[]⟩ (trunkLog head tip) "q".toList
      (approvedSubmission "s".toList ["c".toList]) (emptyFiles tip) (readTreeFiles (emptyFiles head)) := by
  refine ⟨⟨"c".toList, _, _, rfl, href, hparse, hread, fun seq hseq => ?_⟩, hhead⟩
  obtain rfl : 1 = seq := Option.some.inj (hfirst.symm.trans hseq)
  exact hbase

/-- A change that adds a file is taken. -/
theorem reconcile_onTrunk_iff_grown :
    TakesTip sampleHost (readTreeFiles (emptyFiles ["a".toList])) (emptyFiles ["a".toList, "bb".toList]) := by
  refine (@reconcile_onTrunk_iff _ _ _ _ onePolicy _ _ _ (onTrunk_sample (by decide +kernel)
    (by decide +kernel) (by decide +kernel) (by decide +kernel) (by decide +kernel)
    (by decide +kernel))).mp ?_
  have hfold : (reconcileFold sampleHost (trunkStore ["a".toList] ["a".toList, "bb".toList]) ⟨[]⟩
      (trunkLog ["a".toList] ["a".toList, "bb".toList]) "q".toList
      [approvedSubmission "s".toList ["c".toList]]).toOption.map
        (fun s => (writeFiles s.acc, s.conflicted.toList)) =
      some (some (emptyFiles ["a".toList, "bb".toList]), []) := by decide +kernel
  rw [givesTree_iff]
  cases hs : reconcileFold sampleHost (trunkStore ["a".toList] ["a".toList, "bb".toList]) ⟨[]⟩
      (trunkLog ["a".toList] ["a".toList, "bb".toList]) onePolicy.name
      [approvedSubmission "s".toList ["c".toList]] with
  | error e =>
      rw [show "q".toList = onePolicy.name from rfl, hs] at hfold
      cases hfold
  | ok s =>
      rw [show "q".toList = onePolicy.name from rfl, hs] at hfold
      obtain ⟨hfiles, hclean⟩ := Prod.mk.inj (Option.some.inj hfold)
      exact ⟨s, rfl, hfiles, Std.ExtTreeSet.toList_eq_nil_iff.mp hclean⟩

/-- The change drops a file of the trunk: it is in the reconciled tree. -/
theorem reconcile_restores_file :
    OnTrunk sampleHost (trunkStore ["a".toList, "bb".toList] ["a".toList]) ⟨[]⟩
        (trunkLog ["a".toList, "bb".toList] ["a".toList]) "q".toList
        (approvedSubmission "s".toList ["c".toList]) (emptyFiles ["a".toList])
        (readTreeFiles (emptyFiles ["a".toList, "bb".toList])) ∧
      ¬ GivesTree sampleHost (trunkStore ["a".toList, "bb".toList] ["a".toList]) ⟨[]⟩
        (trunkLog ["a".toList, "bb".toList] ["a".toList]) onePolicy
        [approvedSubmission "s".toList ["c".toList]] (emptyFiles ["a".toList]) := by
  refine ⟨onTrunk_sample (by decide +kernel) (by decide +kernel) (by decide +kernel)
    (by decide +kernel) (by decide +kernel) (by decide +kernel), ?_⟩
  rintro ⟨s, -, -, hfold, hfiles, -⟩
  have hwritten : (reconcileFold sampleHost (trunkStore ["a".toList, "bb".toList] ["a".toList]) ⟨[]⟩
      (trunkLog ["a".toList, "bb".toList] ["a".toList]) "q".toList
      [approvedSubmission "s".toList ["c".toList]]).toOption.bind (fun s => writeFiles s.acc) ≠
        some (emptyFiles ["a".toList]) := by decide +kernel
  refine hwritten ?_
  have hok : (reconcileFold sampleHost (trunkStore ["a".toList, "bb".toList] ["a".toList]) ⟨[]⟩
      (trunkLog ["a".toList, "bb".toList] ["a".toList]) "q".toList
      [approvedSubmission "s".toList ["c".toList]]).toOption = some s := congrArg Except.toOption hfold
  rw [hok]
  exact hfiles

end Omoplata
