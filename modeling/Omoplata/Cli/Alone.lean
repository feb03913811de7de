-- SUMMARY: What holds of a repository in which one author has worked and landed on one queue.
import Omoplata.Cli.Interleaving
import Omoplata.Cli.Trunk

/-!
# A repository with one author

The head of the queue is the tip that landed last, and the queue had no content when the
author's change was begun. So the change is folded over an empty content in every round.
-/

namespace Omoplata

/-- A directory of line texts: neither a file that is not text nor a directory with nothing in
    it is there, nothing stands under a control name, and no path runs through another. -/
structure LineTexts (files : Files) : Prop where
  text : ∀ path c, files[path]? = some c → isControlPath path = false ∧ ∃ version, c = .text version
  apart : ∀ p q, files[p]? ≠ none → files[q]? ≠ none → ¬ p ++ ['/'] <+: q

/-- A content with no path under a control name. -/
def Plain (content : TextFiles) : Prop := ∀ path : Str, content[path]? ≠ none → isControlPath path = false

/-- Wherever a head has lines over an empty base, the version has the same. -/
def Follows (head version : Str) : Prop :=
  ∀ s ∈ mergeCut (Doc.fromStr []) (Doc.fromStr head) (Doc.fromStr version),
    s.left = s.base ∨ s.left = s.right

/-- Over an empty base, the driver of a path takes the version over the head, and again over
    itself. -/
def Takes (host : Host) (path head version : Str) : Prop :=
  if lineMerged host.tools path then Follows head version
  else ∀ acc ∈ [head, version], ∃ out, selectDriver host.tools path ⟨[], acc, version, path⟩ = .ok out ∧
    out.merged = version ∧ out.conflicts = []

/-- A tip that only adds to a head: it keeps the files, and each driver takes its texts. -/
structure Grows (host : Host) (head : TextFiles) (files : Files) : Prop where
  keeps : ∀ path : Str, head[path]? ≠ none → files[path]? ≠ none
  takes : ∀ path version, files[path]? = some (.text version) → Takes host path (head.textAt path) version

/-- The files at the tip of a change, none where it has no tip. -/
def TipFiles (host : Host) (repo : Repo) (change : ChangeId) (files : Files) : Prop :=
  match repo.log.refsNow[change]? with
  | none => files = ∅
  | some tip => ∃ id, parseTip tip = .ok (some id) ∧ repo.store.read host.treeId id = .ok files

/-! ## Line texts -/

theorem LineTexts.getElem?_eq {files : Files} (h : LineTexts files) (path : Str) :
    files[path]? = (readTreeFiles files)[path]?.map .text := by
  rw [getElem?_readTreeFiles]
  cases hc : files[path]? with
  | none => rfl
  | some c =>
      obtain ⟨-, version, rfl⟩ := h.text path c hc
      rfl

theorem LineTexts.getElem? {files : Files} (h : LineTexts files) {path version : Str}
    (hversion : (readTreeFiles files)[path]? = some version) : files[path]? = some (.text version) := by
  rw [h.getElem?_eq, hversion, Option.map_some]

theorem LineTexts.plain {files : Files} (h : LineTexts files) : Plain (readTreeFiles files) := by
  intro path hsome
  obtain ⟨version, hversion⟩ := Option.ne_none_iff_exists'.mp hsome
  exact (h.text path _ (h.getElem? hversion)).1

/-- What writing out a content without control names gives is a directory of line texts. -/
theorem lineTexts_of_writeFiles {content : TextFiles} {files : Files} (hplain : Plain content)
    (h : writeFiles content = some files) : LineTexts files := by
  obtain ⟨hapart, hlookup⟩ := writeFiles_eq_some_iff.mp h
  have hfiles : ∀ path : Str, files[path]? = content[path]?.map .text := fun path => by
    rw [hlookup, writtenAt_of_plain hplain]
  have hcontent : ∀ path : Str, files[path]? ≠ none → content[path]? ≠ none := by
    intro path hsome hnone
    rw [hfiles, hnone] at hsome
    exact hsome rfl
  refine ⟨fun path c hc => ?_, fun p q hp hq => hapart p q (hcontent p hp) (hcontent q hq)⟩
  refine ⟨hplain path (hcontent path (hc ▸ Option.some_ne_none c)), ?_⟩
  rw [hfiles, Option.map_eq_some_iff] at hc
  obtain ⟨version, -, rfl⟩ := hc
  exact ⟨version, rfl⟩

/-- Line texts are the directories that writing their texts out gives back. -/
theorem lineTexts_iff {files : Files} : LineTexts files ↔ writeFiles (readTreeFiles files) = some files := by
  constructor
  · intro h
    refine writeFiles_eq_some_iff.mpr ⟨fun p q hp hq => h.apart p q ?_ ?_, fun path => ?_⟩
    · rw [h.getElem?_eq]
      simpa using hp
    · rw [h.getElem?_eq]
      simpa using hq
    · rw [writtenAt_of_plain h.plain, h.getElem?_eq]
  · intro h
    refine lineTexts_of_writeFiles (fun path hsome => ?_) h
    -- A text under a control name is not written, so it could not have been read back.
    rw [Bool.eq_false_iff]
    intro hcontrol
    have hwritten := (writeFiles_eq_some_iff.mp h).2 path
    rw [getElem?_readTreeFiles, hwritten, writtenAt, hcontrol] at hsome
    split at hsome <;> exact hsome rfl

theorem lineTexts_empty : LineTexts ∅ := ⟨by simp, by simp⟩

theorem readTreeFiles_empty : readTreeFiles ∅ = ∅ := Std.ExtTreeMap.ext_getElem? fun path => by
  rw [getElem?_readTreeFiles]
  simp

/-! ## What a fold writes -/

section Plains

variable {host : Host} {store : Store} {registry : QueueRegistry}

/-- What a loop keeps at each step, it keeps. -/
theorem foldlM_keeps {α β ε : Type} {P : β → Prop} {f : β → α → Except ε β}
    (hstep : ∀ b a b', P b → f b a = .ok b' → P b') {entries : List α} {b b' : β} (hb : P b)
    (h : entries.foldlM f b = .ok b') : P b' := by
  induction entries generalizing b with
  | nil => exact Except.ok.inj h ▸ hb
  | cons e entries ih =>
      rw [List.foldlM_cons] at h
      cases hfe : f b e with
      | error err => simp [hfe, bind, Except.bind] at h
      | ok b₁ =>
          rw [hfe] at h
          exact ih (hstep b e b₁ hb hfe) h

theorem Plain.insert {content : TextFiles} (h : Plain content) {path : Str} (hpath : isControlPath path = false)
    (text : Str) : Plain (content.insert path text) := by
  intro p hsome
  rw [BTreeMap.getElem?_insert] at hsome
  split at hsome
  · rename_i heq
    exact heq ▸ hpath
  · exact h p hsome

theorem Plain.foldl_insert {entries : List (Str × Str)} (hentries : ∀ e ∈ entries, isControlPath e.1 = false)
    {base : TextFiles} (hbase : Plain base) :
    Plain (entries.foldl (fun base (path, text) => base.insert path text) base) := by
  induction entries generalizing base with
  | nil => exact hbase
  | cons e entries ih =>
      obtain ⟨hhead, htail⟩ := List.forall_mem_cons.mp hentries
      exact ih htail (hbase.insert hhead e.2)

theorem Plain.overlay {base files : TextFiles} (hbase : Plain base) (hfiles : Plain files) :
    Plain (overlay base files) := by
  refine hbase.foldl_insert fun e he => hfiles e.1 ?_
  rw [Std.ExtTreeMap.mem_toList_iff_getElem?_eq_some.mp (show (e.1, e.2) ∈ files.toList from he)]
  exact Option.some_ne_none _

theorem plain_of_checkOut (hstored : ∀ (key : Str) files, store.trees[key]? = some files → LineTexts files)
    {id : ObjectId} {files : Files} (h : checkOut host store id = .ok files) : Plain (readTreeFiles files) := by
  unfold checkOut Store.read at h
  cases hfound : store.trees[id.toText]? with
  | none => simp [hfound, Except.mapError] at h
  | some found =>
      simp only [hfound] at h
      split at h
      · cases h
        exact (hstored _ _ hfound).plain
      · simp [Except.mapError] at h

/-- The content of a queue has no control names where no stored tree has any. -/
theorem plain_materializeTrunk
    (hstored : ∀ (key : Str) files, store.trees[key]? = some files → LineTexts files) {refs : Refs} {queue : Str}
    {content : TextFiles} (h : materializeTrunk host store registry refs queue = .ok content) :
    Plain content := by
  -- without a head the content is overlaid from the tips of the queue, one by one
  have hbase : materializeQueueBase host store registry refs queue none = .ok content → Plain content := by
    refine foldlM_keeps (fun base entry base' hplain hstep => ?_) (fun path hsome => absurd (by simp) hsome)
    dsimp only at hstep
    split at hstep
    · exact Except.ok.inj hstep ▸ hplain
    · split at hstep
      · exact Except.ok.inj hstep ▸ hplain
      · split at hstep
        · exact Except.ok.inj hstep ▸ hplain
        · cases htip : parseTip entry.2 with
          | error e => simp [htip, bind, Except.bind] at hstep
          | ok tip =>
              cases tip with
              | none =>
                  simp only [htip, bind, Except.bind, pure, Except.pure, Except.ok.injEq] at hstep
                  exact hstep ▸ hplain
              | some id =>
                  cases hout : checkOut host store id with
                  | error e => simp [htip, hout, bind, Except.bind] at hstep
                  | ok files =>
                      simp only [htip, hout, bind, Except.bind, pure, Except.pure, Except.ok.injEq] at hstep
                      exact hstep ▸ hplain.overlay (plain_of_checkOut hstored hout)
  unfold materializeTrunk at h
  cases hhead : refs[reconciledRef queue]? with
  | none =>
      simp only [hhead, bind, Except.bind, pure, Except.pure] at h
      exact hbase h
  | some tip =>
      cases hparse : parseTip tip with
      | error e => simp [hhead, hparse, bind, Except.bind] at h
      | ok head =>
          cases head with
          | none =>
              simp only [hhead, hparse, bind, Except.bind] at h
              exact hbase h
          | some id =>
              cases hout : checkOut host store id with
              | error e => simp [hhead, hparse, hout, bind, Except.bind] at h
              | ok files =>
                  simp only [hhead, hparse, hout, bind, Except.bind, pure, Except.pure, Except.ok.injEq] at h
                  exact h ▸ plain_of_checkOut hstored hout

theorem Plain.reconcileFiles {base versions : TextFiles} {s s' : FoldState} (hplain : Plain s.acc)
    (hversions : Plain versions)
    (h : versions.toList.foldlM (fun s (path, version) => reconcileFile host base s path version) s = .ok s') :
    Plain s'.acc := by
  intro path hsome
  have hpath := reconcileFiles_ok h path
  cases hversion : versions[path]? with
  | none =>
      simp only [hversion] at hpath
      exact hplain path (hpath.1 ▸ hsome)
  | some version => exact hversions path (hversion ▸ Option.some_ne_none version)

theorem plain_reconcileChange
    (hstored : ∀ (key : Str) files, store.trees[key]? = some files → LineTexts files) {log : OpLog} {queue : Str}
    {s s' : FoldState} {change : ChangeId} (hplain : Plain s.acc)
    (h : reconcileChange host store registry log queue s change = .ok s') : Plain s'.acc := by
  unfold reconcileChange at h
  cases htip : log.refsNow[change]? with
  | none =>
      simp only [htip, pure, Except.pure, Except.ok.injEq] at h
      exact h ▸ hplain
  | some tip =>
      cases hparse : parseTip tip with
      | error e => simp [htip, hparse, bind, Except.bind] at h
      | ok id =>
          cases id with
          | none =>
              simp only [htip, hparse, bind, Except.bind, pure, Except.pure, Except.ok.injEq] at h
              exact h ▸ hplain
          | some id =>
              cases hout : checkOut host store id with
              | error e => simp [htip, hparse, hout, bind, Except.bind] at h
              | ok files =>
                  have htexts := plain_of_checkOut hstored hout
                  simp only [htip, hparse, hout, bind, Except.bind] at h
                  -- The base is a text content of its own; only the loop writes.
                  cases hseq : changeFirstCommitSeq log change with
                  | none =>
                      simp only [hseq, pure, Except.pure] at h
                      exact hplain.reconcileFiles htexts h
                  | some seq =>
                      simp only [hseq] at h
                      cases hbase : materializeTrunk host store registry (log.refsAt seq) queue with
                      | error e => simp [hbase] at h
                      | ok base =>
                          simp only [hbase] at h
                          exact hplain.reconcileFiles htexts h

theorem plain_reconcileFold
    (hstored : ∀ (key : Str) files, store.trees[key]? = some files → LineTexts files) {log : OpLog} {queue : Str}
    {subs : List Submission} {s : FoldState} (h : reconcileFold host store registry log queue subs = .ok s) :
    Plain s.acc := by
  unfold reconcileFold at h
  cases htrunk : materializeTrunk host store registry log.refsNow queue with
  | error e => simp [htrunk, bind, Except.bind] at h
  | ok trunk =>
      simp only [htrunk, bind, Except.bind] at h
      exact @foldlM_keeps ChangeId FoldState CliError (fun s => Plain s.acc) _
        (fun s c s' hplain hstep => plain_reconcileChange hstored hplain hstep) _ ⟨trunk, ∅⟩ s
        (plain_materializeTrunk hstored htrunk) h

end Plains

/-! ## Taking a tip over nothing -/

theorem follows_of_empty (version : Str) : Follows [] version := fun s hs =>
  .inl ((isCut_mergeCut (Doc.fromStr []) (Doc.fromStr []) (Doc.fromStr version)).alike.1 rfl s hs)

theorem follows_same (version : Str) : Follows version version := fun s hs =>
  .inr ((isCut_mergeCut (Doc.fromStr []) (Doc.fromStr version) (Doc.fromStr version)).alike.2.2 rfl s hs)

/-- What is taken over a head is taken by the merge, over the head and over itself. -/
theorem Takes.mergeFile {host : Host} {path head version : Str} (h : Takes host path head version)
    {content : TextFiles} (hcontent : content.textAt path = head ∨ content.textAt path = version) :
    ∃ out, mergeFile host ∅ content path version = .ok out ∧ out.merged = version ∧ out.conflicts = [] := by
  have hbase : TextFiles.textAt ∅ path = [] := by simp [TextFiles.textAt]
  unfold Omoplata.mergeFile
  unfold Takes at h
  rw [hbase]
  cases hline : lineMerged host.tools path with
  | true =>
      rw [hline, if_pos rfl] at h
      have hfollows : Follows (content.textAt path) version := by
        rcases hcontent with hhead | hsame
        · exact hhead ▸ h
        · exact hsame ▸ follows_same _
      refine ⟨_, selectDriver_of_lineMerged hline _, ?_, ?_⟩
      · simp only [lineMerge, merge3_takes_right hfollows, Doc.toStr_fromStr]
      · simp only [lineMerge, merge3_takes_right hfollows]
  | false =>
      rw [hline, if_neg Bool.false_ne_true] at h
      exact h _ (by simpa using hcontent)

/-- Folding the texts of a tip over a content that they grow, over an empty base, gives them. -/
theorem Grows.foldFiles {host : Host} {head : TextFiles} {files : Files} (h : Grows host head files)
    (htexts : LineTexts files) {s : FoldState} (hs : s.acc = head ∨ s.acc = readTreeFiles files) :
    ∃ s', (readTreeFiles files).toList.foldlM
        (fun s (path, version) => reconcileFile host ∅ s path version) s = .ok s' ∧
      s'.acc = readTreeFiles files ∧ s'.conflicted = s.conflicted := by
  obtain ⟨s', hloop, hacc, hclean⟩ := @reconcileFiles_takes host ∅ (readTreeFiles files) s
    fun path version hversion => by
      refine (h.takes path version (htexts.getElem? hversion)).mergeFile ?_
      rcases hs with hhead | htip
      · exact .inl (by rw [hhead])
      · exact .inr (by rw [htip, TextFiles.textAt, hversion]; rfl)
  refine ⟨s', hloop, Std.ExtTreeMap.ext_getElem? fun path => ?_, hclean⟩
  rw [hacc path]
  cases hversion : (readTreeFiles files)[path]? with
  | some version => rfl
  | none =>
      have hnone : files[path]? = none := by
        cases hc : files[path]? with
        | none => rfl
        | some c =>
            rw [htexts.getElem?_eq, hversion] at hc
            cases hc
      rcases hs with hhead | htip
      · rw [hhead]
        by_contra hsome
        exact h.keeps path hsome hnone
      · rw [htip, hversion]
        rfl

/-! ## What a snapshot stores and records -/

/-- A store has grown by trees of a kind only. -/
structure Store.GrownBy (treeId : Files → ObjectId) (kind : Files → Prop) (store store' : Store) :
    Prop where
  keeps : store.Extends store'
  adds : ∀ (key : Str) found, store'.trees[key]? = some found →
    store.trees[key]? = some found ∨ key = (treeId found).toText ∧ kind found

section Snapshots

variable {treeId : Files → ObjectId} {dirs : WorkingDirs} {kind : Files → Prop}

theorem Store.GrownBy.refl (store : Store) : GrownBy treeId kind store store :=
  ⟨Store.Extends.refl store, fun _ _ h => .inl h⟩

theorem Store.GrownBy.write {store store' : Store} (h : GrownBy treeId kind store store') {files : Files}
    (hfiles : kind files) : GrownBy treeId kind store (store'.write treeId files).2 := by
  refine ⟨h.keeps.trans (Store.extends_write treeId store' files), fun key found hfound => ?_⟩
  rcases Store.getElem?_write treeId hfound with hold | ⟨hkey, rfl⟩
  · exact h.adds key found hold
  · exact .inr ⟨hkey, hfiles⟩

/-- A snapshot stores the tree of the directory, and the empty one to compare with. It records
    nothing, or the directory's tree as a commit. -/
theorem trySnapshot_spec (store : Store) (log : OpLog) (ws : Workspace) (hempty : kind ∅)
    (hdirs : ∀ files, dirs[ws.workingDir]? = some files → kind files) :
    let s := trySnapshot treeId dirs (store, log) ws
    Store.GrownBy treeId kind store s.1 ∧
      (s.2 = log ∨ ∃ files parent message, (∃ found, s.1.trees[(treeId files).toText]? = some found) ∧
        s.2 = log.append (.commit ws.name ws.change (treeId files).toText parent message) message nofun) := by
  intro s
  cases hdir : dirs[ws.workingDir]? with
  | none =>
      have hs : s = (store, log) := by
        simp [s, trySnapshot, autoSnapshot, isDirty, snapshot, hdir, bind, Except.bind]
      rw [hs]
      exact ⟨.refl store, .inl rfl⟩
  | some files =>
      have hfiles := hdirs files hdir
      -- whether it is dirty or not, the tree of the directory is stored
      obtain ⟨dirty, current, first, hdirty, hfirst⟩ : ∃ dirty current, ∃ first : Store,
          isDirty treeId dirs store ws.workingDir log.refsNow[ws.change]? = .ok ((dirty, current), first) ∧
          Store.GrownBy treeId kind store first := by
        cases htip : log.refsNow[ws.change]? with
        | none =>
            refine ⟨decide ((treeId files).toText ≠ (treeId ∅).toText), (treeId files).toText, _, ?_,
              ((Store.GrownBy.refl store).write hfiles).write hempty⟩
            simp only [isDirty, snapshot, hdir, bind, Except.bind, pure, Except.pure]
            rfl
        | some tip =>
            refine ⟨decide ((treeId files).toText ≠ tip), (treeId files).toText, _, ?_,
              (Store.GrownBy.refl store).write hfiles⟩
            simp only [isDirty, snapshot, hdir, bind, Except.bind, pure, Except.pure]
            rfl
      cases dirty with
      | false =>
          have hs : s = (first, log) := by
            simp [s, trySnapshot, autoSnapshot, hdirty, bind, Except.bind, pure, Except.pure]
          rw [hs]
          exact ⟨hfirst, .inl rfl⟩
      | true =>
          have hs : s = ((first.write treeId files).2,
              log.append (.commit ws.name ws.change (treeId files).toText log.refsNow[ws.change]?
                (some ("auto-snapshot workspace ".toList ++ ws.name)))
                (some ("auto-snapshot workspace ".toList ++ ws.name)) fun _ h => by cases h) := by
            simp only [s, trySnapshot, autoSnapshot, hdirty, snapshot, hdir, bind, Except.bind, pure,
              Except.pure, if_true]
            rfl
          rw [hs]
          exact ⟨hfirst.write hfiles, .inr ⟨files, _, _, Store.exists_getElem?_write treeId first files, rfl⟩⟩

end Snapshots

theorem observeLanding_grown (host : Host) {store : Store}
    (hstored : ∀ (key : Str) files, store.trees[key]? = some files → LineTexts files)
    (registry : QueueRegistry) (log : OpLog) (policy : QueuePolicy) (subs : List Submission) (graph : ChangeGraph)
    (subTips : List (SubmissionId × List ObjectId)) (refusal : Reconciliation → Str) :
    Store.GrownBy host.treeId LineTexts store
      (observeLanding host store registry log policy subs graph subTips refusal).2 := by
  unfold observeLanding
  cases observeBatchGates host store registry log.refsNow policy.name subTips policy with
  | error e => exact .refl store
  | ok batch =>
      cases hrec : reconcileCore host store registry log policy subs with
      | error e => exact .refl store
      | ok r =>
          obtain ⟨rec, grown⟩ := r
          obtain ⟨s, files, hfold, hfiles, -, rfl⟩ := reconcileCore_ok_iff.mp hrec
          have hgrown : Store.GrownBy host.treeId LineTexts store (store.write host.treeId files).2 :=
            (Store.GrownBy.refl store).write (lineTexts_of_writeFiles (plain_reconcileFold hstored hfold) hfiles)
          simp only
          split <;> exact hgrown

/-- Planning a landing stores at most the reconciled tree. -/
theorem planLanding_grown (host : Host) {store : Store}
    (hstored : ∀ (key : Str) files, store.trees[key]? = some files → LineTexts files)
    (registry : QueueRegistry) (policy : QueuePolicy) (subs : List Submission) (log : OpLog) :
    Store.GrownBy host.treeId LineTexts store (planLanding host store registry policy subs log).2 := by
  unfold planLanding
  cases readTips log.refsNow subs with
  | error e => exact .refl store
  | ok r => exact observeLanding_grown host hstored registry log policy subs r.1 r.2 _

/-- A plan has the tree that the reconciliation gives. -/
theorem planLanding_reconciled {host : Host} {store store' : Store} {registry : QueueRegistry}
    {policy : QueuePolicy} {subs : List Submission} {log : OpLog} {plan : LandingPlan} {files : Files}
    (h : planLanding host store registry policy subs log = (.ok plan, store'))
    (hgives : GivesTree host store registry log policy subs files) :
    plan.reconciled.tip = host.treeId files ∧ store' = (store.write host.treeId files).2 := by
  unfold planLanding at h
  split at h
  · simp at h
  · obtain ⟨-, -, -, -, hrec, -⟩ := observeLanding_ok h
    obtain ⟨s, files', hfold, hfiles', hreport, hstore⟩ := reconcileCore_ok_iff.mp hrec
    obtain ⟨s', hfold', hfiles, -⟩ := givesTree_iff.mp hgives
    obtain rfl : s = s' := Except.ok.inj (hfold.symm.trans hfold')
    obtain rfl : files' = files := Option.some.inj (hfiles'.symm.trans hfiles)
    rw [hreport]
    exact ⟨rfl, hstore⟩

/-! ## The first commit of a change -/

theorem changeFirstCommitSeq_of_sets {log log' : OpLog} (h : log.SetsRefs log') (change : ChangeId) :
    changeFirstCommitSeq log' change = changeFirstCommitSeq log change := by
  obtain ⟨tail, hops, hkinds⟩ := h.ops_eq
  unfold changeFirstCommitSeq
  rw [hops, List.findSome?_append]
  refine (congrArg _ (List.findSome?_eq_none_iff.mpr fun op hop => ?_)).trans Option.or_none
  obtain ⟨name, old, new, hkind⟩ := hkinds op hop
  rw [hkind]

theorem changeFirstCommitSeq_commit (log : OpLog) (workspace : Str) (change : ChangeId) (tree : CommitId)
    (parent : Option CommitId) (message note : Option Str) :
    changeFirstCommitSeq (log.append (.commit workspace change tree parent message) note nofun) change =
      (changeFirstCommitSeq log change).or (some log.nextSeq) := by
  unfold changeFirstCommitSeq OpLog.append OpLog.appendAt
  rw [List.findSome?_append]
  simp

/-! ## An empty trunk -/

/-- A loop that skips every entry. -/
theorem foldlM_skip {α β ε : Type} {f : α → β → Except ε α} {a : α} {entries : List β}
    (h : ∀ e ∈ entries, f a e = .ok a) : entries.foldlM f a = .ok a := by
  induction entries with
  | nil => rfl
  | cons e entries ih =>
      obtain ⟨he, hrest⟩ := List.forall_mem_cons.mp h
      rw [List.foldlM_cons, he]
      exact ih hrest

/-- A queue whose head is empty, or that has none and no public refs either, has no content. -/
theorem materializeTrunk_bare {host : Host} {store : Store} {registry : QueueRegistry} {refs : Refs}
    {queue : Str} (hpublic : ∀ name : Str, refs[name]? ≠ none → ¬ publicSpace <+: name)
    (hhead : ∀ tip, refs[reconciledRef queue]? = some tip →
      tip = (host.treeId ∅).toText ∧ store.read host.treeId (host.treeId ∅) = .ok ∅) :
    materializeTrunk host store registry refs queue = .ok ∅ := by
  unfold materializeTrunk
  cases htip : refs[reconciledRef queue]? with
  | some tip =>
      obtain ⟨rfl, hread⟩ := hhead tip htip
      simp only [parseTip_toText, checkOut, hread, readTreeFiles_empty, Except.mapError, bind, Except.bind, pure,
        Except.pure]
  | none =>
      simp only [bind, Except.bind, pure, Except.pure, materializeQueueBase]
      refine foldlM_skip fun e he => ?_
      have hget := Std.ExtTreeMap.mem_toList_iff_getElem?_eq_some.mp (show (e.1, e.2) ∈ refs.toList from he)
      have hskip : publicSpace.isPrefixOf e.1 = false := by
        rw [Bool.eq_false_iff, ne_eq, List.isPrefixOf_iff_prefix]
        exact hpublic e.1 (hget ▸ Option.some_ne_none _)
      simp only [hskip, reduceCtorEq, if_false, Bool.not_false, if_true]

/-! ## The repository of a lone author -/

/-- What holds of a repository in which only the author of one workspace has worked and landed,
    on one queue. -/
structure Alone (host : Host) (ws : Workspace) (queue : Str) (repo : Repo) : Prop where
  workspaces : repo.workspaces = ⟨[ws]⟩
  submissions : ∀ (id : SubmissionId) sub, repo.submissions[id]? = some sub → sub.changes = [ws.change]
  dirs : ∀ (dir : Str) files, repo.dirs[dir]? = some files → LineTexts files
  stored : ∀ (key : Str) files, repo.store.trees[key]? = some files →
    key = (host.treeId files).toText ∧ LineTexts files
  refs : ∀ (name : Str) tip, repo.log.refsNow[name]? = some tip → ∃ files, repo.store.trees[tip]? = some files
  names : ∀ name : Str, repo.log.refsNow[name]? ≠ none → publicSpace <+: name →
    name = queueRef queue ws.change
  head : repo.log.refsNow[reconciledRef queue]? = none ∧ repo.log.refsNow[queueRef queue ws.change]? = none ∨
    repo.log.refsNow[reconciledRef queue]? =
      some ((repo.log.refsNow[queueRef queue ws.change]?).getD (host.treeId ∅).toText)
  base : match changeFirstCommitSeq repo.log ws.change with
    | none => repo.log.refsNow[ws.change]? = none ∧ repo.log.refsNow[queueRef queue ws.change]? = none
    | some seq => seq < repo.log.nextSeq ∧ repo.log.refsNow[ws.change]? ≠ none ∧
        materializeTrunk host repo.store repo.queues (repo.log.refsAt seq) queue = .ok ∅

/-- The change of a new workspace is named after it. -/
def Workspace.IsFresh (ws : Workspace) : Prop := ws.change = "ws/".toList ++ ws.name

theorem Workspace.IsFresh.apart {ws : Workspace} (h : ws.IsFresh) (queue : Str) :
    ws.change ≠ reconciledRef queue ∧ ws.change ≠ queueRef queue ws.change ∧ ¬ publicSpace <+: ws.change := by
  have hspace : "ws/".toList = 'w' :: "s/".toList := by decide
  have hpublic : publicSpace.head? = some 'p' := by decide
  have hhead : ws.change.head? = some 'w' := by
    rw [h, hspace, List.cons_append, List.head?_cons]
  refine ⟨fun heq => ?_, fun heq => ?_, fun hprefix => ?_⟩
  · rw [heq, head?_reconciledRef] at hhead
    exact absurd hhead (by decide)
  · rw [heq, head?_queueRef] at hhead
    exact absurd hhead (by decide)
  · obtain ⟨rest, hrest⟩ := hprefix
    rw [← hrest, List.head?_append, hpublic, Option.some_or] at hhead
    exact absurd hhead (by decide)

theorem not_publicSpace_reconciledRef (queue : Str) : ¬ publicSpace <+: reconciledRef queue := by
  rintro ⟨rest, hrest⟩
  have hpublic : publicSpace.head? = some 'p' := by decide
  have hhead := head?_reconciledRef queue
  rw [← hrest, List.head?_append, hpublic, Option.some_or] at hhead
  exact absurd hhead (by decide)

namespace Alone

variable {host : Host} {ws : Workspace} {queue : Str} {repo : Repo}

/-- A ref is the id of a stored tree. -/
theorem read (h : Alone host ws queue repo) {name tip : Str}
    (htip : repo.log.refsNow[name]? = some tip) :
    ∃ files, tip = (host.treeId files).toText ∧ parseTip tip = .ok (some (host.treeId files)) ∧
      repo.store.read host.treeId (host.treeId files) = .ok files ∧ LineTexts files := by
  obtain ⟨files, hfiles⟩ := h.refs name tip htip
  obtain ⟨rfl, htexts⟩ := h.stored tip files hfiles
  refine ⟨files, rfl, parseTip_toText _, ?_, htexts⟩
  unfold Store.read
  simp only [hfiles, if_true]

/-- The store may grow by line texts. -/
theorem grow (h : Alone host ws queue repo) {store : Store}
    (hgrown : Store.GrownBy host.treeId LineTexts repo.store store) :
    Alone host ws queue { repo with store := store } where
  workspaces := h.workspaces
  submissions := h.submissions
  dirs := h.dirs
  stored key files hfiles := (hgrown.adds key files hfiles).elim (h.stored key files) id
  refs name tip htip := by
    obtain ⟨files, hfiles⟩ := h.refs name tip htip
    exact ⟨files, hgrown.keeps _ _ hfiles⟩
  names := h.names
  head := h.head
  base := by
    have hbase := h.base
    dsimp only
    cases hfirst : changeFirstCommitSeq repo.log ws.change with
    | none =>
        rw [hfirst] at hbase
        exact hbase
    | some seq =>
        rw [hfirst] at hbase
        obtain ⟨hseq, htip, hempty⟩ := hbase
        exact ⟨hseq, htip, stable_materializeTrunk host repo.queues _ _ hgrown.keeps hempty⟩

/-- Before anything has landed, the queue has no content. -/
theorem bare (h : Alone host ws queue repo)
    (hempty : ∀ files, host.treeId files = host.treeId ∅ → files = ∅)
    (hlanded : repo.log.refsNow[queueRef queue ws.change]? = none) {refs : Refs}
    (hrefs : ∀ name : Str, name = reconciledRef queue ∨ publicSpace <+: name →
      refs[name]? = repo.log.refsNow[name]?) :
    materializeTrunk host repo.store repo.queues refs queue = .ok ∅ := by
  refine materializeTrunk_bare (fun name hsome hpublic => ?_) fun tip htip => ?_
  · rw [hrefs name (.inr hpublic)] at hsome
    have hname := h.names name hsome hpublic
    rw [hname] at hsome
    exact hsome hlanded
  · rw [hrefs _ (.inl rfl)] at htip
    rcases h.head with ⟨hnone, -⟩ | hsome
    · rw [hnone] at htip
      cases htip
    · rw [hlanded, Option.getD_none, htip, Option.some.injEq] at hsome
      obtain ⟨files, heq, -, hread, -⟩ := h.read htip
      rw [hsome] at heq
      obtain rfl := hempty files (ObjectId.toText_injective heq.symm)
      exact ⟨hsome, hread⟩

/-- A commit of the change keeps to its author; the first finds a queue without content. -/
theorem commit (h : Alone host ws queue repo) (hfresh : ws.IsFresh)
    (hempty : ∀ files, host.treeId files = host.treeId ∅ → files = ∅) {tree : CommitId}
    (htree : ∃ found, repo.store.trees[tree]? = some found) (parent : Option CommitId) (message : Option Str) :
    Alone host ws queue
      { repo with log := repo.log.append (.commit ws.name ws.change tree parent message) message nofun } := by
  obtain ⟨hhead, hpublic, hspace⟩ := hfresh.apart queue
  have hrefs : ∀ name : Str,
      (repo.log.append (.commit ws.name ws.change tree parent message) message nofun).refsNow[name]? =
        if ws.change = name then some tree else repo.log.refsNow[name]? := by
    intro name
    rw [OpLog.append, OpLog.refsNow_appendAt repo.log rfl, OpKind.applyTo, BTreeMap.getElem?_insert]
  -- no commit of the workspace touches the head or what is published
  have hother : ∀ name : Str, name = reconciledRef queue ∨ publicSpace <+: name →
      (repo.log.append (.commit ws.name ws.change tree parent message) message nofun).refsNow[name]? =
        repo.log.refsNow[name]? := by
    intro name hname
    rw [hrefs, if_neg]
    rintro rfl
    exact hname.elim hhead hspace
  refine ⟨h.workspaces, h.submissions, h.dirs, h.stored, fun name tip htip => ?_, fun name hsome hname => ?_,
    ?_, ?_⟩
  · dsimp only at htip
    rw [hrefs] at htip
    split at htip
    · obtain rfl := Option.some.inj htip
      exact htree
    · exact h.refs name tip htip
  · dsimp only at hsome
    rw [hother name (.inr hname)] at hsome
    exact h.names name hsome hname
  · dsimp only
    rw [hother _ (.inl rfl), hrefs, if_neg hpublic]
    exact h.head
  · have hbase := h.base
    have hlast : (repo.log.append (.commit ws.name ws.change tree parent message) message nofun).nextSeq =
        repo.log.nextSeq + 1 := List.length_append
    dsimp only
    rw [changeFirstCommitSeq_commit]
    cases hfirst : changeFirstCommitSeq repo.log ws.change with
    | none =>
        rw [hfirst] at hbase
        refine ⟨?_, ?_, ?_⟩
        · rw [hlast]
          exact Nat.lt_succ_self _
        · rw [hrefs, if_pos rfl]
          exact Option.some_ne_none _
        · rw [OpLog.refsAt_of_nextSeq_le (Nat.le_of_eq hlast)]
          exact h.bare hempty hbase.2 hother
    | some seq =>
        rw [hfirst] at hbase
        obtain ⟨hseq, -, hbare⟩ := hbase
        refine ⟨?_, ?_, ?_⟩
        · rw [hlast]
          exact Nat.lt_succ_of_lt hseq
        · rw [hrefs, if_pos rfl]
          exact Option.some_ne_none _
        · have hops : (repo.log.append (.commit ws.name ws.change tree parent message) message nofun).ops =
              repo.log.ops ++ [⟨repo.log.nextSeq, .commit ws.name ws.change tree parent message, message,
                none⟩] := rfl
          rw [OpLog.refsAt_of_append hops hseq]
          exact hbare

theorem trySnapshot (h : Alone host ws queue repo) (hfresh : ws.IsFresh)
    (hempty : ∀ files, host.treeId files = host.treeId ∅ → files = ∅) :
    let s := Omoplata.trySnapshot host.treeId repo.dirs (repo.store, repo.log) ws
    Alone host ws queue { repo with store := s.1, log := s.2 } := by
  intro s
  obtain ⟨hgrown, hlog⟩ := @trySnapshot_spec host.treeId repo.dirs LineTexts repo.store repo.log ws
    lineTexts_empty fun files hfiles => h.dirs ws.workingDir files hfiles
  have hstored := h.grow hgrown
  rcases hlog with hsame | ⟨files, parent, message, htree, hcommit⟩
  · have hs : s.2 = repo.log := hsame
    rw [hs]
    exact hstored
  · have hs : s.2 = repo.log.append (.commit ws.name ws.change (host.treeId files).toText parent message)
        message nofun := hcommit
    rw [hs]
    exact hstored.commit hfresh hempty htree parent message

/-- Snapshots of the author's workspace keep to it. -/
theorem snapshotSection (h : Alone host ws queue repo) (hfresh : ws.IsFresh)
    (hempty : ∀ files, host.treeId files = host.treeId ∅ → files = ∅) (changes : List ChangeId) :
    Alone host ws queue (repo.snapshotSection host changes) := by
  have hloop : ∀ (workspaces : List Workspace) (s : Store × OpLog), (∀ w ∈ workspaces, w = ws) →
      Alone host ws queue { repo with store := s.1, log := s.2 } →
      let s' := workspaces.foldl (Omoplata.trySnapshot host.treeId repo.dirs) s
      Alone host ws queue { repo with store := s'.1, log := s'.2 } := by
    intro workspaces
    induction workspaces with
    | nil => exact fun s _ hs => hs
    | cons w workspaces ih =>
        intro s hws hs
        obtain rfl := hws w (by simp)
        exact ih _ (fun w' hw' => hws w' (List.mem_cons_of_mem _ hw')) (hs.trySnapshot hfresh hempty)
  refine hloop (workspacesOf repo.workspaces changes) (repo.store, repo.log) (fun w hw => ?_) h
  obtain ⟨c, -, hmem⟩ := List.mem_flatMap.mp hw
  rw [h.workspaces] at hmem
  exact List.mem_singleton.mp (List.mem_filter.mp hmem).1

/-- The queue has a content, which is empty as long as nothing has landed. -/
theorem content (h : Alone host ws queue repo)
    (hempty : ∀ files, host.treeId files = host.treeId ∅ → files = ∅) :
    ∃ head, materializeTrunk host repo.store repo.queues repo.log.refsNow queue = .ok head ∧
      (repo.log.refsNow[queueRef queue ws.change]? = none → head = ∅) := by
  cases hlanded : repo.log.refsNow[queueRef queue ws.change]? with
  | none => exact ⟨∅, h.bare hempty hlanded fun _ _ => rfl, fun _ => rfl⟩
  | some landed =>
      have hhead : repo.log.refsNow[reconciledRef queue]? = some landed := by
        rcases h.head with ⟨-, hnone⟩ | hsome
        · rw [hlanded] at hnone
          cases hnone
        · rw [hsome, hlanded, Option.getD_some]
      obtain ⟨files, -, hparse, hread, -⟩ := h.read hhead
      refine ⟨readTreeFiles files, ?_, nofun⟩
      unfold materializeTrunk
      simp only [hhead, hparse, checkOut, hread, Except.mapError, bind, Except.bind, pure, Except.pure]

/-- The tip of the change has files, which are line texts; without a tip nothing has landed. -/
theorem tipFiles (h : Alone host ws queue repo) :
    ∃ files, TipFiles host repo ws.change files ∧ LineTexts files := by
  unfold TipFiles
  cases htip : repo.log.refsNow[ws.change]? with
  | none => exact ⟨∅, rfl, lineTexts_empty⟩
  | some tip =>
      obtain ⟨files, -, hparse, hread, htexts⟩ := h.read htip
      exact ⟨files, ⟨_, hparse, hread⟩, htexts⟩

theorem not_landed (h : Alone host ws queue repo) (htip : repo.log.refsNow[ws.change]? = none) :
    repo.log.refsNow[queueRef queue ws.change]? = none := by
  have hbase := h.base
  cases hfirst : changeFirstCommitSeq repo.log ws.change with
  | none =>
      rw [hfirst] at hbase
      exact hbase.2
  | some seq =>
      rw [hfirst] at hbase
      exact absurd htip hbase.2.1

/-- Folding the change with a tip, over the empty content it was begun on. -/
theorem reconcileChange_eq (h : Alone host ws queue repo) {files : Files}
    (htip : repo.log.refsNow[ws.change]? ≠ none) (hfiles : TipFiles host repo ws.change files)
    (s : FoldState) :
    reconcileChange host repo.store repo.queues repo.log queue s ws.change =
      (readTreeFiles files).toList.foldlM
        (fun s (path, version) => reconcileFile host ∅ s path version) s := by
  unfold TipFiles at hfiles
  have hbase := h.base
  cases href : repo.log.refsNow[ws.change]? with
  | none => exact absurd href htip
  | some tip =>
      rw [href] at hfiles
      obtain ⟨id, hparse, hread⟩ := hfiles
      cases hfirst : changeFirstCommitSeq repo.log ws.change with
      | none =>
          rw [hfirst] at hbase
          exact absurd hbase.1 htip
      | some seq =>
          rw [hfirst] at hbase
          unfold reconcileChange
          simp only [href, hparse, checkOut, hread, hfirst, hbase.2.2, Except.mapError, bind, Except.bind]

/-- A landing whose tip grows the head reconciles to the files of the tip. -/
theorem reconciles (h : Alone host ws queue repo)
    (hempty : ∀ files, host.treeId files = host.treeId ∅ → files = ∅) {policy : QueuePolicy}
    {subs : List Submission} (hname : policy.name = queue) (hsubs : subs ≠ [])
    (hchanges : ∀ sub ∈ subs, sub.changes = [ws.change]) {files : Files}
    (hfiles : TipFiles host repo ws.change files) (htexts : LineTexts files)
    (hgrows : ∀ head, materializeTrunk host repo.store repo.queues repo.log.refsNow queue = .ok head →
      Grows host head files) :
    GivesTree host repo.store repo.queues repo.log policy subs files := by
  obtain ⟨head, hhead, hbare⟩ := h.content hempty
  have hall : ∀ c ∈ subs.flatMap Submission.changes, c = ws.change := by
    intro c hc
    obtain ⟨sub, hsub, hmem⟩ := List.mem_flatMap.mp hc
    rw [hchanges sub hsub] at hmem
    exact List.mem_singleton.mp hmem
  rw [givesTree_iff, reconcileFold, hname]
  simp only [hhead, bind, Except.bind]
  cases htip : repo.log.refsNow[ws.change]? with
  | none =>
      -- Without a tip nothing is folded, and nothing has landed.
      obtain rfl : files = ∅ := by
        unfold TipFiles at hfiles
        rwa [htip] at hfiles
      obtain rfl := hbare (h.not_landed htip)
      have hskip : ∀ (changes : List ChangeId) (s : FoldState), (∀ c ∈ changes, c = ws.change) →
          changes.foldlM (reconcileChange host repo.store repo.queues repo.log queue) s = .ok s := by
        intro changes
        induction changes with
        | nil => exact fun s _ => rfl
        | cons c changes ih =>
            intro s hcs
            obtain rfl := hcs c (by simp)
            have hstep : reconcileChange host repo.store repo.queues repo.log queue s ws.change = .ok s := by
              unfold reconcileChange
              simp only [htip, pure, Except.pure]
            rw [List.foldlM_cons, hstep]
            exact ih s fun c' hc' => hcs c' (List.mem_cons_of_mem _ hc')
      refine ⟨⟨∅, ∅⟩, hskip _ _ hall, ?_, rfl⟩
      exact readTreeFiles_empty ▸ lineTexts_iff.mp lineTexts_empty
  | some tip =>
      have hsome : repo.log.refsNow[ws.change]? ≠ none := by
        rw [htip]
        exact Option.some_ne_none _
      have hgrow := hgrows head hhead
      have hloop : ∀ (changes : List ChangeId) (s : FoldState), (∀ c ∈ changes, c = ws.change) →
          (s.acc = head ∧ changes ≠ [] ∨ s.acc = readTreeFiles files) →
          ∃ s', changes.foldlM (reconcileChange host repo.store repo.queues repo.log queue) s = .ok s' ∧
            s'.acc = readTreeFiles files ∧ s'.conflicted = s.conflicted := by
        intro changes
        induction changes with
        | nil => exact fun s _ hs => ⟨s, rfl, hs.resolve_left fun hne => hne.2 rfl, rfl⟩
        | cons c changes ih =>
            intro s hcs hs
            obtain rfl := hcs c (by simp)
            obtain ⟨s₁, hstep, hacc, hclean⟩ := hgrow.foldFiles htexts (hs.imp_left And.left)
            obtain ⟨s', hrest, hacc', hclean'⟩ :=
              ih s₁ (fun c' hc' => hcs c' (List.mem_cons_of_mem _ hc')) (.inr hacc)
            refine ⟨s', ?_, hacc', hclean'.trans hclean⟩
            rw [List.foldlM_cons, h.reconcileChange_eq hsome hfiles, hstep]
            exact hrest
      have hnonempty : subs.flatMap Submission.changes ≠ [] := by
        cases subs with
        | nil => exact absurd rfl hsubs
        | cons sub subs => simp [hchanges sub (by simp)]
      obtain ⟨s, hfold, hacc, hclean⟩ := hloop _ ⟨head, ∅⟩ hall (.inl ⟨rfl, hnonempty⟩)
      exact ⟨s, hfold, by rw [hacc]; exact lineTexts_iff.mp htexts, hclean⟩

/-- The tree of the change's files is its tip, and the empty tree without one. -/
theorem getD_tip (h : Alone host ws queue repo) {files : Files} (hfiles : TipFiles host repo ws.change files) :
    (repo.log.refsNow[ws.change]?).getD (host.treeId ∅).toText = (host.treeId files).toText := by
  unfold TipFiles at hfiles
  cases htip : repo.log.refsNow[ws.change]? with
  | none =>
      rw [htip] at hfiles
      rw [hfiles, Option.getD_none]
  | some tip =>
      rw [htip] at hfiles
      obtain ⟨id, hparse, hread⟩ := hfiles
      obtain ⟨files', rfl, hparse', hread', -⟩ := h.read htip
      obtain rfl : id = host.treeId files' := Option.some.inj (Except.ok.inj (hparse.symm.trans hparse'))
      obtain rfl : files = files' := Except.ok.inj (hread.symm.trans hread')
      rw [Option.getD_some]

/-- A landing that reconciles to the files of the tip keeps to the author, and leaves them as
    the head of the queue. -/
theorem commitLanding (h : Alone host ws queue repo) (hfresh : ws.IsFresh) {policy : QueuePolicy}
    {subs : List Submission} (hname : policy.name = queue) (hsubs : subs ≠ [])
    (hchanges : ∀ sub ∈ subs, sub.changes = [ws.change]) {files : Files}
    (hfiles : TipFiles host repo ws.change files)
    (hgives : GivesTree host repo.store repo.queues repo.log policy subs files) {plan : LandingPlan}
    {store : Store} (hplan : planLanding host repo.store repo.queues policy subs repo.log = (.ok plan, store))
    {results : List LandResult} {log : OpLog}
    (hcommit : Omoplata.commitLanding plan repo.log = .ok (results, log)) :
    Alone host ws queue { repo with store := store, log := log } ∧
      log.refsNow[reconciledRef queue]? = some (host.treeId files).toText := by
  obtain ⟨hhead, hpublic, hspace⟩ := hfresh.apart queue
  obtain ⟨hpolicy, hplansubs, htips⟩ := planLanding_ok hplan
  obtain ⟨htree, hstore⟩ := planLanding_reconciled hplan hgives
  obtain ⟨-, hset, hhead', hframe⟩ := commitLanding_ok hcommit
  rw [hpolicy, hplansubs, hname] at hset hframe
  rw [hpolicy, hname, htree] at hhead'
  have hgrown := planLanding_grown host (fun key files hkey => (h.stored key files hkey).2) repo.queues policy
    subs repo.log
  rw [hplan] at hgrown
  -- the landing publishes the tip the ref of the change has, so nothing is published behind it
  have hlanded : log.refsNow[queueRef queue ws.change]? = repo.log.refsNow[ws.change]? := by
    cases subs with
    | nil => exact absurd rfl hsubs
    | cons sub subs =>
        have hmem : ws.change ∈ sub.changes := by
          rw [hchanges sub (by simp)]
          exact List.mem_singleton_self _
        obtain ⟨hsome, href⟩ := hset sub (by simp) ws.change hmem
        rw [href, htips ws.change hsome]
  -- the head and the published change are the only refs that a landing sets
  have hother : ∀ name : Str, name ≠ reconciledRef queue → name ≠ queueRef queue ws.change →
      log.refsNow[name]? = repo.log.refsNow[name]? := by
    intro name hne hne'
    refine hframe name hne fun sub hsub c hc => ?_
    rw [hchanges sub hsub] at hc
    rw [List.mem_singleton.mp hc]
    exact hne'
  have hstored := h.grow hgrown
  refine ⟨⟨h.workspaces, h.submissions, h.dirs, hstored.stored, fun name tip htip => ?_,
    fun name hsome hname => ?_, ?_, ?_⟩, hhead'⟩
  · dsimp only at htip ⊢
    by_cases hrec : name = reconciledRef queue
    · rw [hrec, hhead', Option.some.injEq] at htip
      rw [← htip, hstore]
      exact Store.exists_getElem?_write host.treeId repo.store files
    · by_cases hpub : name = queueRef queue ws.change
      · rw [hpub, hlanded] at htip
        exact hstored.refs ws.change tip htip
      · rw [hother name hrec hpub] at htip
        exact hstored.refs name tip htip
  · dsimp only at hsome
    by_contra hpub
    have hrec : name ≠ reconciledRef queue := by
      rintro rfl
      exact not_publicSpace_reconciledRef queue hname
    rw [hother name hrec hpub] at hsome
    exact hpub (h.names name hsome hname)
  · refine .inr ?_
    dsimp only
    rw [hhead', hlanded, h.getD_tip hfiles]
  -- a landing records no commit of the change, so its first one is where it was
  · have hbase := hstored.base
    have hsets := commitLanding_sets hcommit
    obtain ⟨tail, hops, -⟩ := hsets.ops_eq
    dsimp only at hbase ⊢
    rw [changeFirstCommitSeq_of_sets hsets, hother _ hhead hpublic]
    cases hfirst : changeFirstCommitSeq repo.log ws.change with
    | none =>
        rw [hfirst] at hbase
        refine ⟨hbase.1, ?_⟩
        rw [hlanded]
        exact hbase.1
    | some seq =>
        rw [hfirst] at hbase
        obtain ⟨hseq, htip, hbare⟩ := hbase
        refine ⟨?_, htip, ?_⟩
        · unfold OpLog.nextSeq
          rw [hops, List.length_append]
          exact Nat.lt_add_right _ hseq
        · rw [OpLog.refsAt_of_append hops hseq]
          exact hbare

end Alone

end Omoplata
