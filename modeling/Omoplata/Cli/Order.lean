-- SUMMARY: What the order of a batch changes: the fold of two submissions, file by file.
import Omoplata.Cli.Author
import Omoplata.Cli.Fold

/-!
# The order of a batch

A reconciliation folds the changes of its submissions one after the other, so it folds each
file by itself: every change that has the file merges its text with what came out so far.
Two submissions give one tree in either order exactly where every file does. A file that the
line driver merges does unless both submissions have moved it from what they were begun on;
the structural driver puts the items it adds in the order it meets them.
-/

namespace Omoplata

/-! ## Two submissions -/

/-- The files a reconciliation writes. -/
def reconciledFiles (host : Host) (store : Store) (registry : QueueRegistry) (log : OpLog)
    (policy : QueuePolicy) (subs : List Submission) : Option Files :=
  (reconcileFold host store registry log policy.name subs).toOption.bind fun s => writeFiles s.acc

/-- The refs behind the last section of a landing, with its reconciliation. -/
def landedRefs (host : Host) (store : Store) (registry : QueueRegistry) (log : OpLog) (policy : QueuePolicy)
    (gates : QueueGates) (graph : ChangeGraph) (subs : List Submission) : Refs :=
  match reconcileCore host store registry log policy subs with
  | .error _ => log.refsNow
  | .ok (rec, _) =>
      match commitLanding ⟨policy, subs, gates, graph, rec⟩ log with
      | .error _ => log.refsNow
      | .ok (_, log) => log.refsNow

/-- The order of two submissions carries no meaning: they are reconciled to the same files in
    either, and landing them leaves the same refs. -/
structure OrderFree (host : Host) (store : Store) (registry : QueueRegistry) (log : OpLog)
    (policy : QueuePolicy) (a b : Submission) : Prop where
  files : reconciledFiles host store registry log policy [a, b] =
    reconciledFiles host store registry log policy [b, a]
  refs : ∀ gates graph, landedRefs host store registry log policy gates graph [a, b] =
    landedRefs host store registry log policy gates graph [b, a]

/-- Some change has a file. -/
def Brings (versions : List ChangeVersion) (path : Str) : Prop := ∃ v ∈ versions, v.texts[path]? ≠ none

/-- Some change moves a file from what it was begun on, or was begun on nothing known. -/
def Moves (versions : List ChangeVersion) (path : Str) : Prop :=
  ∃ v ∈ versions, ∃ version, v.texts[path]? = some version ∧
    (v.base.map fun base => base.textAt path) ≠ some version

/-- Both submissions move a file, or both have it and it does not go to the line driver. -/
def Contended (host : Host) (va vb : List ChangeVersion) (path : Str) : Prop :=
  if lineMerged host.tools path then Moves va path ∧ Moves vb path
  else Brings va path ∧ Brings vb path

/-- The driver takes a file to the same text in either order. -/
def Agrees (host : Host) (va vb : List ChangeVersion) (path text : Str) : Prop :=
  let ab := mergeTexts host path (va ++ vb) text
  let ba := mergeTexts host path (vb ++ va) text
  ab.isSome = ba.isSome ∧ (isControlPath path = false → ab = ba)

/-- The files of a fold, with the files it starts from. -/
def Holds (head : TextFiles) (versions : List ChangeVersion) (path : Str) : Prop :=
  head[path]? ≠ none ∨ Brings versions path

/-- Every contended file agrees, or no files are written in either order: a path runs through
    another, or the driver fails in both. -/
def Commutes (host : Host) (head : TextFiles) (va vb : List ChangeVersion) : Prop :=
  (∀ path, Contended host va vb path → Agrees host va vb path (head.textAt path)) ∨
    (∃ p q, Holds head (va ++ vb) p ∧ Holds head (va ++ vb) q ∧ p ++ ['/'] <+: q) ∨
    (∃ p, mergeTexts host p (va ++ vb) (head.textAt p) = none) ∧
      ∃ p, mergeTexts host p (vb ++ va) (head.textAt p) = none

/-- The order of two submissions commutes on what they bring and what the queue holds. -/
def BatchCommutes (host : Host) (store : Store) (registry : QueueRegistry) (log : OpLog)
    (policy : QueuePolicy) (a b : Submission) : Prop :=
  ∀ head va vb, materializeTrunk host store registry log.refsNow policy.name = .ok head →
    changeVersions host store registry log policy.name a.changes = .ok va →
    changeVersions host store registry log policy.name b.changes = .ok vb → Commutes host head va vb

section Orders

variable {host : Host} {store : Store} {registry : QueueRegistry} {log : OpLog}

theorem mergeTexts_append (path : Str) (va vb : List ChangeVersion) (text : Str) :
    mergeTexts host path (va ++ vb) text = (mergeTexts host path va text).bind (mergeTexts host path vb) :=
  List.foldlM_append

/-- Changes that do not move a file leave what the line driver merges. -/
theorem mergeTexts_of_not_moves {path : Str} (hline : lineMerged host.tools path = true)
    {versions : List ChangeVersion} (h : ¬ Moves versions path) (text : Str) :
    mergeTexts host path versions text = some text := by
  induction versions with
  | nil => rfl
  | cons v versions ih =>
      have hstep : mergeText host path text v = some text := by
        unfold mergeText
        cases hversion : v.texts[path]? with
        | none => rfl
        | some version =>
            have hbase : (v.base.map fun base => base.textAt path) = some version := by
              by_contra hne
              exact h ⟨v, List.mem_cons_self, version, hversion, hne⟩
            simp only [hbase, Option.getD_some, selectDriver_of_lineMerged hline, lineMerge_base_right]
            rfl
      unfold mergeTexts at ih ⊢
      rw [List.foldlM_cons, hstep]
      exact ih fun ⟨v', hv', hmoved⟩ => h ⟨v', List.mem_cons_of_mem _ hv', hmoved⟩

/-- A file that none of the changes has stays as it is. -/
theorem mergeTexts_of_not_brings {versions : List ChangeVersion} {path : Str} (h : ¬ Brings versions path)
    (text : Str) : mergeTexts host path versions text = some text := by
  induction versions with
  | nil => rfl
  | cons v versions ih =>
      have hstep : mergeText host path text v = some text := by
        unfold mergeText
        cases hversion : v.texts[path]? with
        | none => rfl
        | some version => exact absurd ⟨v, List.mem_cons_self, by simp [hversion]⟩ h
      unfold mergeTexts at ih ⊢
      rw [List.foldlM_cons, hstep]
      exact ih fun ⟨v', hv', hbrought⟩ => h ⟨v', List.mem_cons_of_mem _ hv', hbrought⟩

theorem Agrees.of_left {va vb : List ChangeVersion} {path : Str}
    (h : ∀ text, mergeTexts host path va text = some text) (text : Str) : Agrees host va vb path text := by
  have hsame : mergeTexts host path (va ++ vb) text = mergeTexts host path (vb ++ va) text := by
    rw [mergeTexts_append, mergeTexts_append, h, Option.bind_some]
    cases hvb : mergeTexts host path vb text with
    | none => rfl
    | some out => rw [Option.bind_some, h]
  exact ⟨congrArg Option.isSome hsame, fun _ => hsame⟩

theorem Agrees.symm {va vb : List ChangeVersion} {path text : Str} (h : Agrees host va vb path text) :
    Agrees host vb va path text :=
  ⟨h.1.symm, fun hcontrol => (h.2 hcontrol).symm⟩

theorem agrees_of_not_contended {va vb : List ChangeVersion} {path : Str} (h : ¬ Contended host va vb path)
    (text : Str) : Agrees host va vb path text := by
  unfold Contended at h
  cases hline : lineMerged host.tools path with
  | true =>
      rw [hline, if_pos rfl, not_and_or] at h
      rcases h with ha | hb
      · exact .of_left (mergeTexts_of_not_moves hline ha) text
      · exact (Agrees.of_left (mergeTexts_of_not_moves hline hb) text).symm
  | false =>
      rw [hline, if_neg Bool.false_ne_true, not_and_or] at h
      rcases h with ha | hb
      · exact .of_left (mergeTexts_of_not_brings ha) text
      · exact (Agrees.of_left (mergeTexts_of_not_brings hb) text).symm

theorem changeVersions_append {queue : Str} {as bs : List ChangeId} {versions : List ChangeVersion} :
    changeVersions host store registry log queue (as ++ bs) = .ok versions ↔
      ∃ va vb, changeVersions host store registry log queue as = .ok va ∧
        changeVersions host store registry log queue bs = .ok vb ∧ versions = va ++ vb := by
  unfold changeVersions
  rw [List.mapM_append]
  cases as.mapM (changeVersion host store registry log queue) with
  | error e => simp [bind, Except.bind]
  | ok va =>
      cases bs.mapM (changeVersion host store registry log queue) with
      | error e => simp [bind, Except.bind]
      | ok vb => simp [bind, Except.bind, pure, Except.pure, eq_comm]

/-- What a fold holds, and with which texts. -/
theorem getElem?_foldlM_foldVersion {head : TextFiles} {versions : List ChangeVersion} {s : FoldState}
    (h : versions.foldlM (foldVersion host) ⟨head, ∅⟩ = .ok s) (path : Str) :
    (Holds head versions path ↔ s.acc[path]? ≠ none) ∧
      (Holds head versions path → s.acc[path]? = mergeTexts host path versions (head.textAt path)) := by
  obtain ⟨htext, hnone⟩ := foldlM_foldVersion_ok h path
  have hholds : Holds head versions path ↔ s.acc[path]? ≠ none := by
    refine Iff.trans ?_ (not_congr hnone).symm
    unfold Holds Brings
    rw [not_and_or, or_comm]
    simp
  refine ⟨hholds, fun h => ?_⟩
  obtain ⟨text, hsome⟩ := Option.ne_none_iff_exists'.mp (hholds.mp h)
  rw [show mergeTexts host path versions (head.textAt path) = some (s.acc.textAt path) from htext, hsome,
    TextFiles.textAt, hsome, Option.getD_some]

/-- The files a reconciliation writes, file by file. -/
theorem reconciledFiles_eq_some_iff {policy : QueuePolicy} {subs : List Submission} {files : Files} :
    reconciledFiles host store registry log policy subs = some files ↔
      ∃ head versions, materializeTrunk host store registry log.refsNow policy.name = .ok head ∧
        changeVersions host store registry log policy.name (subs.flatMap Submission.changes) = .ok versions ∧
        (∀ path, (mergeTexts host path versions (head.textAt path)).isSome) ∧
        (∀ p q, Holds head versions p → Holds head versions q → ¬ p ++ ['/'] <+: q) ∧
        ∀ path, (LeftEmpty (Holds head versions) path → files[path]? = some .directory) ∧
          (isControlPath path = false → Holds head versions path →
            files[path]? = (mergeTexts host path versions (head.textAt path)).map Content.text) ∧
          (¬ LeftEmpty (Holds head versions) path → isControlPath path = true ∨ ¬ Holds head versions path →
            files[path]? = none) := by
  unfold reconciledFiles reconcileFold
  constructor
  · intro h
    cases hhead : materializeTrunk host store registry log.refsNow policy.name with
    | error e => simp [hhead, bind, Except.bind, Except.toOption] at h
    | ok head =>
        simp only [hhead, bind, Except.bind] at h
        cases hfold : (subs.flatMap Submission.changes).foldlM
            (reconcileChange host store registry log policy.name) ⟨head, ∅⟩ with
        | error e => simp [hfold, Except.toOption] at h
        | ok s =>
            rw [hfold] at h
            obtain ⟨hapart, hlookup⟩ := writeFiles_eq_some_iff.mp (show writeFiles s.acc = some files from h)
            obtain ⟨versions, hversions, hfold'⟩ := foldlM_reconcileChange_ok_iff.mp hfold
            have hholds := fun path => (getElem?_foldlM_foldVersion hfold' path).1
            have hempty : ∀ path, leftEmpty s.acc path = true ↔ LeftEmpty (Holds head versions) path := fun path =>
              leftEmpty_iff.trans (LeftEmpty.congr fun p => (hholds p).symm)
            have hapart' : ∀ p q, Holds head versions p → Holds head versions q → ¬ p ++ ['/'] <+: q :=
              fun p q hp hq => hapart p q ((hholds p).mp hp) ((hholds q).mp hq)
            refine ⟨head, versions, rfl, hversions, fun path => ?_, hapart', fun path => ⟨fun hleft => ?_,
              fun hcontrol hpath => ?_, fun hleft hnot => ?_⟩⟩
            · rw [show mergeTexts host path versions (head.textAt path) = some (s.acc.textAt path) from
                (foldlM_foldVersion_ok hfold' path).1]
              rfl
            · rw [hlookup, writtenAt, if_pos ((hempty path).mpr hleft)]
            · rw [hlookup, writtenAt, if_neg fun hleft => ((hempty path).mp hleft).not_holds hapart' hpath,
                hcontrol, (getElem?_foldlM_foldVersion hfold' path).2 hpath]
              rfl
            · rw [hlookup, writtenAt, if_neg ((hempty path).not.mpr hleft)]
              rcases hnot with hcontrol | hnot
              · rw [hcontrol]
                rfl
              · rw [not_not.mp ((hholds path).not.mp hnot), Option.map_none, ite_self]
  · rintro ⟨head, versions, hhead, hversions, hsome, hapart, hlookup⟩
    obtain ⟨s, hfold⟩ := @foldlM_foldVersion_isOk host versions ⟨head, ∅⟩ hsome
    have hfold' := foldlM_reconcileChange_ok_iff.mpr ⟨versions, hversions, hfold⟩
    have hholds := fun path => (getElem?_foldlM_foldVersion hfold path).1
    simp only [hhead, bind, Except.bind, hfold', Except.toOption, Option.bind_some]
    refine writeFiles_eq_some_iff.mpr ⟨fun p q hp hq => hapart p q ((hholds p).mpr hp) ((hholds q).mpr hq),
      fun path => ?_⟩
    obtain ⟨hdirectory, htext, hnone⟩ := hlookup path
    unfold writtenAt
    split
    · rename_i hleft
      exact hdirectory ((leftEmpty_iff.trans (LeftEmpty.congr fun p => (hholds p).symm)).mp hleft)
    · rename_i hleft
      rw [leftEmpty_iff, LeftEmpty.congr fun p => (hholds p).symm] at hleft
      by_cases hpath : Holds head versions path
      · split
        · rename_i hcontrol
          exact hnone hleft (.inl hcontrol)
        · rename_i hcontrol
          rw [htext (by simpa using hcontrol) hpath, (getElem?_foldlM_foldVersion hfold path).2 hpath]
      · rw [hnone hleft (.inr hpath), not_not.mp ((hholds path).not.mp hpath), Option.map_none, ite_self]

theorem holds_append_comm {head : TextFiles} {va vb : List ChangeVersion} {path : Str} :
    Holds head (va ++ vb) path ↔ Holds head (vb ++ va) path := by
  unfold Holds Brings
  simp only [List.mem_append, or_comm]

theorem Commutes.symm {head : TextFiles} {va vb : List ChangeVersion} (h : Commutes host head va vb) :
    Commutes host head vb va := by
  rcases h with hagree | ⟨p, q, hp, hq, hinside⟩ | ⟨hab, hba⟩
  · refine .inl fun path hcontended => (hagree path ?_).symm
    unfold Contended at hcontended ⊢
    rwa [and_comm, @and_comm (Brings va path)]
  · exact .inr (.inl ⟨p, q, holds_append_comm.mp hp, holds_append_comm.mp hq, hinside⟩)
  · exact .inr (.inr ⟨hba, hab⟩)

theorem BatchCommutes.symm {policy : QueuePolicy} {a b : Submission}
    (h : BatchCommutes host store registry log policy a b) :
    BatchCommutes host store registry log policy b a :=
  fun head va vb hhead ha hb => (h head vb va hhead hb ha).symm

theorem flatMap_changes_pair (a b : Submission) : [a, b].flatMap Submission.changes = a.changes ++ b.changes := by
  simp

/-- Where the order commutes, what one order writes the other writes. -/
theorem BatchCommutes.reconciledFiles_of {policy : QueuePolicy} {a b : Submission} {files : Files}
    (h : BatchCommutes host store registry log policy a b)
    (hfiles : reconciledFiles host store registry log policy [a, b] = some files) :
    reconciledFiles host store registry log policy [b, a] = some files := by
  obtain ⟨head, versions, hhead, hversions, hsome, hapart, hlookup⟩ := reconciledFiles_eq_some_iff.mp hfiles
  rw [flatMap_changes_pair] at hversions
  obtain ⟨va, vb, ha, hb, rfl⟩ := changeVersions_append.mp hversions
  have hagrees : ∀ path, Agrees host va vb path (head.textAt path) := by
    rcases h head va vb hhead ha hb with hagree | ⟨p, q, hp, hq, hinside⟩ | ⟨⟨p, hp⟩, -⟩
    · intro path
      by_cases hcontended : Contended host va vb path
      · exact hagree path hcontended
      · exact agrees_of_not_contended hcontended _
    · exact absurd hinside (hapart p q hp hq)
    · exact absurd (hsome p) (by simp [hp])
  refine reconciledFiles_eq_some_iff.mpr ⟨head, vb ++ va, hhead, ?_, fun path => ?_, fun p q hp hq => ?_,
    fun path => ⟨fun hleft => ?_, fun hcontrol hholds => ?_, fun hleft hnot => ?_⟩⟩
  · rw [flatMap_changes_pair]
    exact changeVersions_append.mpr ⟨vb, va, hb, ha, rfl⟩
  · exact (hagrees path).1 ▸ hsome path
  · exact hapart p q (holds_append_comm.mp hp) (holds_append_comm.mp hq)
  · exact (hlookup path).1 ((LeftEmpty.congr fun _ => holds_append_comm).mp hleft)
  · rw [← (hagrees path).2 hcontrol]
    exact (hlookup path).2.1 hcontrol (holds_append_comm.mp hholds)
  · exact (hlookup path).2.2 (fun hempty => hleft ((LeftEmpty.congr fun _ => holds_append_comm).mp hempty))
      (hnot.imp id fun hnot hholds => hnot (holds_append_comm.mp hholds))

/-- Where no files are written, a path runs through another or the driver fails. -/
theorem reconciledFiles_eq_none {policy : QueuePolicy} {a b : Submission} {head : TextFiles}
    {va vb : List ChangeVersion}
    (hhead : materializeTrunk host store registry log.refsNow policy.name = .ok head)
    (ha : changeVersions host store registry log policy.name a.changes = .ok va)
    (hb : changeVersions host store registry log policy.name b.changes = .ok vb)
    (hnone : reconciledFiles host store registry log policy [a, b] = none) :
    (∃ p q, Holds head (va ++ vb) p ∧ Holds head (va ++ vb) q ∧ p ++ ['/'] <+: q) ∨
      ∃ p, mergeTexts host p (va ++ vb) (head.textAt p) = none := by
  by_contra hnot
  obtain ⟨hapart, hmerged⟩ := not_or.mp hnot
  have hsome : ∀ path, (mergeTexts host path (va ++ vb) (head.textAt path)).isSome := fun path =>
    Option.isSome_iff_ne_none.mpr fun hpath => hmerged ⟨path, hpath⟩
  obtain ⟨s, hfold⟩ := @foldlM_foldVersion_isOk host (va ++ vb) ⟨head, ∅⟩ hsome
  obtain ⟨files, hfiles⟩ := exists_writeFiles fun p q hp hq hinside =>
    hapart ⟨p, q, (getElem?_foldlM_foldVersion hfold p).1.mpr hp,
      (getElem?_foldlM_foldVersion hfold q).1.mpr hq, hinside⟩
  have hversions := changeVersions_append.mpr ⟨va, vb, ha, hb, rfl⟩
  have hchanges := foldlM_reconcileChange_ok_iff.mpr ⟨va ++ vb, hversions, hfold⟩
  rw [← flatMap_changes_pair] at hchanges
  unfold reconciledFiles reconcileFold at hnone
  simp only [hhead, bind, Except.bind, hchanges, Except.toOption, Option.bind_some, hfiles,
    reduceCtorEq] at hnone

/-- Each file that a reconciliation of two submissions writes. -/
theorem reconciledFiles_merged {policy : QueuePolicy} {a b : Submission} {head : TextFiles}
    {va vb : List ChangeVersion} {files : Files}
    (hhead : materializeTrunk host store registry log.refsNow policy.name = .ok head)
    (ha : changeVersions host store registry log policy.name a.changes = .ok va)
    (hb : changeVersions host store registry log policy.name b.changes = .ok vb)
    (hfiles : reconciledFiles host store registry log policy [a, b] = some files) (path : Str) :
    (mergeTexts host path (va ++ vb) (head.textAt path)).isSome ∧
      (isControlPath path = false → Holds head (va ++ vb) path →
        files[path]? = (mergeTexts host path (va ++ vb) (head.textAt path)).map Content.text) := by
  obtain ⟨head', versions, hhead', hversions, hsome, -, hlookup⟩ := reconciledFiles_eq_some_iff.mp hfiles
  obtain rfl : head = head' := Except.ok.inj (hhead.symm.trans hhead')
  rw [flatMap_changes_pair] at hversions
  obtain rfl : va ++ vb = versions :=
    Except.ok.inj ((changeVersions_append.mpr ⟨va, vb, ha, hb, rfl⟩).symm.trans hversions)
  exact ⟨hsome path, (hlookup path).2.1⟩

/-- The files come out alike in either order exactly where the order commutes. -/
theorem reconciledFiles_swap_iff {policy : QueuePolicy} {a b : Submission} :
    reconciledFiles host store registry log policy [a, b] =
        reconciledFiles host store registry log policy [b, a] ↔
      BatchCommutes host store registry log policy a b := by
  constructor
  · intro h head va vb hhead ha hb
    cases hfiles : reconciledFiles host store registry log policy [a, b] with
    | none =>
        rcases reconciledFiles_eq_none hhead ha hb hfiles with hapart | hab
        · exact .inr (.inl hapart)
        · rcases reconciledFiles_eq_none hhead hb ha (h ▸ hfiles) with ⟨p, q, hp, hq, hinside⟩ | hba
          · exact .inr (.inl ⟨p, q, holds_append_comm.mp hp, holds_append_comm.mp hq, hinside⟩)
          · exact .inr (.inr ⟨hab, hba⟩)
    | some files =>
        refine .inl fun path _ => ?_
        obtain ⟨hab, htext⟩ := reconciledFiles_merged hhead ha hb hfiles path
        obtain ⟨hba, htext'⟩ := reconciledFiles_merged hhead hb ha (h ▸ hfiles) path
        refine ⟨hab.trans hba.symm, fun hcontrol => ?_⟩
        by_cases hholds : Holds head (va ++ vb) path
        · have hsame := (htext hcontrol hholds).symm.trans (htext' hcontrol (holds_append_comm.mp hholds))
          exact Option.map_injective (fun _ _ => Content.text.inj) hsame
        · rw [mergeTexts_of_not_brings fun hbrought => hholds (.inr hbrought),
            mergeTexts_of_not_brings fun hbrought => hholds (holds_append_comm.mpr (.inr hbrought))]
  · intro h
    refine Option.ext fun files => ⟨h.reconciledFiles_of, h.symm.reconciledFiles_of⟩

/-! ### The refs behind the landing -/

/-- A reconciliation writes files where it ends, and its tip is their tree. -/
theorem reconcileCore_files {policy : QueuePolicy} {subs : List Submission} {rec : Reconciliation}
    {store' : Store} (h : reconcileCore host store registry log policy subs = .ok (rec, store')) :
    ∃ files, reconciledFiles host store registry log policy subs = some files ∧ rec.tip = host.treeId files := by
  obtain ⟨s, files, hfold, hfiles, hrec, -⟩ := reconcileCore_ok_iff.mp h
  refine ⟨files, ?_, by rw [hrec, FoldState.report]⟩
  unfold reconciledFiles
  rw [hfold]
  exact hfiles

theorem reconcileCore_isOk {policy : QueuePolicy} {subs : List Submission} {files : Files}
    (h : reconciledFiles host store registry log policy subs = some files) :
    ∃ r, reconcileCore host store registry log policy subs = .ok r := by
  unfold reconciledFiles at h
  cases hfold : reconcileFold host store registry log policy.name subs with
  | error e => simp [hfold, Except.toOption] at h
  | ok s =>
      rw [hfold] at h
      exact ⟨_, reconcileCore_ok_iff.mpr ⟨s, files, hfold, h, rfl, rfl⟩⟩

/-- Two landings of the same submissions with the same tree leave the same refs, whatever
    their order. -/
theorem commitLanding_refs_eq {plan plan' : LandingPlan} {r r' : List LandResult × OpLog}
    (hpolicy : plan.policy = plan'.policy) (hgraph : plan.graph = plan'.graph)
    (htip : plan.reconciled.tip = plan'.reconciled.tip) (hsubs : ∀ sub, sub ∈ plan.subs ↔ sub ∈ plan'.subs)
    (h : commitLanding plan log = .ok r) (h' : commitLanding plan' log = .ok r') :
    r.2.refsNow = r'.2.refsNow := by
  obtain ⟨-, hset, hhead, hframe⟩ := commitLanding_ok (show _ = Except.ok (r.1, r.2) from h)
  obtain ⟨-, hset', hhead', hframe'⟩ := commitLanding_ok (show _ = Except.ok (r'.1, r'.2) from h')
  rw [← hpolicy] at hset' hhead' hframe'
  refine Std.ExtTreeMap.ext_getElem? fun name => ?_
  by_cases hreconciled : name = reconciledRef plan.policy.name
  · rw [hreconciled, hhead, hhead', htip]
  · by_cases hchange : ∃ sub ∈ plan.subs, ∃ c ∈ sub.changes, name = queueRef plan.policy.name c
    · obtain ⟨sub, hsub, c, hc, rfl⟩ := hchange
      rw [(hset sub hsub c hc).2, (hset' sub ((hsubs sub).mp hsub) c hc).2, hgraph]
    · rw [hframe name hreconciled fun sub hsub c hc hname => hchange ⟨sub, hsub, c, hc, hname⟩,
        hframe' name hreconciled fun sub hsub c hc hname => hchange ⟨sub, (hsubs sub).mpr hsub, c, hc, hname⟩]

theorem landedRefs_swap {policy : QueuePolicy} {a b : Submission}
    (h : reconciledFiles host store registry log policy [a, b] =
      reconciledFiles host store registry log policy [b, a]) (gates : QueueGates) (graph : ChangeGraph) :
    landedRefs host store registry log policy gates graph [a, b] =
      landedRefs host store registry log policy gates graph [b, a] := by
  have hsubs : ∀ sub : Submission, sub ∈ [a, b] ↔ sub ∈ [b, a] := fun _ => (List.Perm.swap b a []).mem_iff
  unfold landedRefs
  cases hab : reconcileCore host store registry log policy [a, b] with
  | error e =>
      cases hba : reconcileCore host store registry log policy [b, a] with
      | error e => rfl
      | ok r =>
          obtain ⟨files, hfiles, -⟩ := reconcileCore_files (show _ = Except.ok (r.1, r.2) from hba)
          obtain ⟨r', hr'⟩ := reconcileCore_isOk (h.trans hfiles)
          simp [hab] at hr'
  | ok r =>
      obtain ⟨files, hfiles, htip⟩ := reconcileCore_files (show _ = Except.ok (r.1, r.2) from hab)
      obtain ⟨r', hba⟩ := reconcileCore_isOk (h.symm.trans hfiles)
      obtain ⟨files', hfiles', htip'⟩ := reconcileCore_files (show _ = Except.ok (r'.1, r'.2) from hba)
      obtain rfl : files = files' := Option.some.inj (hfiles.symm.trans (h.trans hfiles'))
      have hok : (∃ x, commitLanding ⟨policy, [a, b], gates, graph, r.1⟩ log = .ok x) ↔
          ∃ x, commitLanding ⟨policy, [b, a], gates, graph, r'.1⟩ log = .ok x := by
        rw [commitLanding_isOk_iff, commitLanding_isOk_iff]
        exact forall_congr' fun sub => imp_congr_left (hsubs sub)
      simp only [hba]
      cases hland : commitLanding ⟨policy, [a, b], gates, graph, r.1⟩ log with
      | error e =>
          cases hland' : commitLanding ⟨policy, [b, a], gates, graph, r'.1⟩ log with
          | error e => rfl
          | ok x => simpa [hland] using hok.mpr ⟨x, hland'⟩
      | ok x =>
          obtain ⟨x', hland'⟩ := hok.mp ⟨x, hland⟩
          simp only [hland']
          exact @commitLanding_refs_eq log ⟨policy, [a, b], gates, graph, r.1⟩
            ⟨policy, [b, a], gates, graph, r'.1⟩ x x' rfl rfl (htip.trans htip'.symm) hsubs hland hland'

/-- The order of two submissions carries no meaning exactly where every file that both move,
    or that is not merged line by line, goes to the same text in either order, or where no
    tree is written in either. -/
theorem order_iff {policy : QueuePolicy} {a b : Submission} :
    OrderFree host store registry log policy a b ↔ BatchCommutes host store registry log policy a b :=
  ⟨fun h => reconciledFiles_swap_iff.mp h.files,
    fun h => ⟨reconciledFiles_swap_iff.mpr h, landedRefs_swap (reconciledFiles_swap_iff.mpr h)⟩⟩

end Orders

/-! ## Two authors of one new file -/

/-- A host whose grammar knows one function `a` and one function `b`. -/
def fnHost : Host :=
  { textHost with
    tools := ⟨tableGrammar
      [("fn a() {}".toList, [fnDefinition "a".toList ⟨0, 9⟩ "a".toList]),
        ("fn b() {}".toList, [fnDefinition "b".toList ⟨0, 9⟩ "b".toList])] (by decide), none⟩ }

/-- Two authors, each with a function in a file of the same name, and nothing landed. -/
def twoAuthors : Repo :=
  let file (text : String) : Files := (∅ : Files).insert "m.rs".toList (.text text.toList)
  let dirs := ((∅ : WorkingDirs).insert "d".toList (file "fn a() {}")).insert "e".toList (file "fn b() {}")
  let repo : Repo := { emptyRepo with
    workspaces := ⟨[⟨"a".toList, "d".toList, "ws/a".toList⟩, ⟨"b".toList, "e".toList, "ws/b".toList⟩]⟩
    dirs := dirs }
  repo.snapshotSection fnHost ["ws/a".toList, "ws/b".toList]

def firstAuthor : Submission := approvedSubmission "a".toList ["ws/a".toList]

def secondAuthor : Submission := approvedSubmission "b".toList ["ws/b".toList]

/-- Two submissions that touch no common definition come out in the order they are folded. -/
theorem batch_order_matters :
    ((readTips twoAuthors.log.refsNow [firstAuthor, secondAuthor]).bind fun read =>
        (observeBatchGates fnHost twoAuthors.store twoAuthors.queues twoAuthors.log.refsNow
          "trunk".toList read.2 .trunk)).toOption.map
      (fun gates => (firstOverlap gates.manifests).isNone && gates.manifests.all fun m => !m.2.isEmpty) = some true ∧
    ¬ OrderFree fnHost twoAuthors.store twoAuthors.queues twoAuthors.log .trunk firstAuthor secondAuthor := by
  refine ⟨by decide +kernel, fun h => ?_⟩
  have hfiles : reconciledFiles fnHost twoAuthors.store twoAuthors.queues twoAuthors.log .trunk
      [firstAuthor, secondAuthor] ≠ reconciledFiles fnHost twoAuthors.store twoAuthors.queues
        twoAuthors.log .trunk [secondAuthor, firstAuthor] := by decide +kernel
  exact hfiles h.files

end Omoplata
