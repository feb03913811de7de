-- SUMMARY: Rounds of edits and landings of a lone author, and which of them stay free of conflicts.
import Omoplata.Cli.Alone
import Omoplata.Cli.Approval

/-!
# A lone author

A change is reconciled over the content of the queue at its first commit, in every
round. An author who is alone began on an empty queue, so a file that has landed
once is merged as if both the head and the tip had added it. A round goes well
where it keeps every file that has landed and leaves its lines as they are.
-/

namespace Omoplata

/-- A landing of a change reconciles without a conflict to the files of its tip, and leaves
    them as the head of the queue. -/
def LandsTip (host : Host) (repo : Repo) (change : ChangeId) (ids : List SubmissionId) (queue : Str) :
    Prop :=
  ∀ policy subs, landRequest repo ids queue = .ok (policy, subs) →
    let first := repo.snapshotSection host (subs.flatMap Submission.changes)
    ∃ files, TipFiles host first change files ∧
      GivesTree host first.store first.queues first.log policy subs files ∧
      ∀ results after, cmdLand host repo ids queue = (.ok results, after) →
        after.log.refsNow[reconciledRef queue]? = some (host.treeId files).toText

/-! ## Rounds -/

namespace Review

variable (host : Host) (ws : Workspace) (queue : Str)

/-- An operation of the author of one workspace, who lands on one queue. -/
def ByAuthor : Action → Prop
  | .edit dir files => dir = ws.workingDir ∧ LineTexts files
  | .submit _ _ changes _ _ => changes = [ws.change]
  | .approve .. => True
  | .snapshot ws' => ws' = ws
  | .land ids queue' => ids ≠ [] ∧ queue' = queue

/-- A landing finds a tip that only adds to the head. -/
def GrowsAt (s : Review) : Action → Prop
  | .land ids queue => ∀ policy subs, landRequest s.repo ids queue = .ok (policy, subs) →
      let first := s.repo.snapshotSection host (subs.flatMap Submission.changes)
      ∀ head files, materializeTrunk host first.store first.queues first.log.refsNow queue = .ok head →
        TipFiles host first ws.change files → Grows host head files
  | _ => True

/-- One operation of a lone author that only adds to what has landed. -/
def Round (s s' : Review) : Prop :=
  ∃ a, ByAuthor ws queue a ∧ s.GrowsAt host ws a ∧ s' = s.step host a

/-- A new repository with one workspace, whose directory has files. -/
def begun (queues : QueueRegistry) (files : Files) : Review :=
  ⟨⟨⟨∅⟩, .new, queues, ⟨[ws]⟩, (∅ : WorkingDirs).insert ws.workingDir files, ∅⟩, fun _ => ∅⟩

variable {host ws queue} {s : Review}

theorem alone_begun (queues : QueueRegistry) {files : Files} (h : LineTexts files) :
    Alone host ws queue (begun ws queues files).repo where
  workspaces := rfl
  submissions id sub hsub := by simp [begun] at hsub
  dirs dir files' hfiles := by
    simp only [begun, BTreeMap.getElem?_insert] at hfiles
    split at hfiles
    · exact Option.some.inj hfiles ▸ h
    · simp at hfiles
  stored key files' hfiles := by simp [begun] at hfiles
  refs name tip htip := by simp [begun, OpLog.refsNow_new] at htip
  names name hname := by simp [begun, OpLog.refsNow_new] at hname
  head := by simp [begun, OpLog.refsNow_new]
  base := by
    have hnone : changeFirstCommitSeq OpLog.new ws.change = none := rfl
    simp [begun, hnone, OpLog.refsNow_new]

/-- Storing a submission of the change keeps to the author. -/
theorem alone_save {repo : Repo} (h : Alone host ws queue repo) {sub : Submission}
    (hsub : sub.changes = [ws.change]) : Alone host ws queue (repo.saveSubmission sub) where
  workspaces := h.workspaces
  submissions id sub' hsub' := by
    simp only [Repo.saveSubmission, BTreeMap.getElem?_insert] at hsub'
    split at hsub'
    · exact Option.some.inj hsub' ▸ hsub
    · exact h.submissions id sub' hsub'
  dirs := h.dirs
  stored := h.stored
  refs := h.refs
  names := h.names
  head := h.head
  base := h.base

/-- A landing whose tip grows the head lands it, and keeps to the author. -/
theorem alone_land (hempty : ∀ files, host.treeId files = host.treeId ∅ → files = ∅) (hfresh : ws.IsFresh)
    (h : Alone host ws queue s.repo) {ids : List SubmissionId} (hids : ids ≠ [])
    (hgrows : s.GrowsAt host ws (.land ids queue)) :
    Alone host ws queue (cmdLand host s.repo ids queue).2 ∧ LandsTip host s.repo ws.change ids queue := by
  -- both halves start from the first section, which leaves the workspace alone with its tip stored
  have hfirst : ∀ policy subs, landRequest s.repo ids queue = .ok (policy, subs) →
      let first := s.repo.snapshotSection host (subs.flatMap Submission.changes)
      Alone host ws queue first ∧ policy.name = queue ∧ subs ≠ [] ∧
        (∀ sub ∈ subs, sub.changes = [ws.change]) ∧
        ∃ files, TipFiles host first ws.change files ∧
          GivesTree host first.store first.queues first.log policy subs files := by
    intro policy subs hreq first
    obtain ⟨hres, hload⟩ := landRequest_ok hreq
    have hname := QueueRegistry.resolve_name hres
    have hsubs : subs ≠ [] := by
      rintro rfl
      exact hids (List.map_eq_nil_iff.mp hload)
    have hchanges : ∀ sub ∈ subs, sub.changes = [ws.change] := by
      intro sub hsub
      have hmem : some sub ∈ ids.map fun id => s.repo.submissions[id]? := by
        rw [hload]
        exact List.mem_map_of_mem hsub
      obtain ⟨id, -, hid⟩ := List.mem_map.mp hmem
      exact h.submissions id sub hid
    have halone : Alone host ws queue first := h.snapshotSection hfresh hempty _
    obtain ⟨files, hfiles, htexts⟩ := halone.tipFiles
    exact ⟨halone, hname, hsubs, hchanges, files, hfiles,
      halone.reconciles hempty hname hsubs hchanges hfiles htexts fun head hhead =>
        hgrows policy subs hreq head files hhead hfiles⟩
  constructor
  · rcases cmdLand_cases host s.repo ids queue with ⟨e, hland⟩ | ⟨policy, subs, hreq, hcases⟩
    · rw [hland]
      exact h
    · obtain ⟨halone, hname, hsubs, hchanges, files, hfiles, hgives⟩ := hfirst policy subs hreq
      -- a refused landing has still stored what its reconciliation wrote
      rcases hcases with ⟨e, store, hland⟩ | ⟨plan, store, results, log, hplan, hcommit, hland⟩
      · have hstore := @cmdLand_store host s.repo ids queue policy subs hreq
        rw [hland] at hstore ⊢
        refine halone.grow ?_
        have hgrown := planLanding_grown host (fun key files hkey => (halone.stored key files hkey).2)
          s.repo.queues policy subs
          (s.repo.snapshotSection host (subs.flatMap Submission.changes)).log
        rwa [← hstore] at hgrown
      · rw [hland]
        exact (halone.commitLanding hfresh hname hsubs hchanges hfiles hgives hplan hcommit).1
  · intro policy subs hreq first
    obtain ⟨halone, hname, hsubs, hchanges, files, hfiles, hgives⟩ := hfirst policy subs hreq
    refine ⟨files, hfiles, hgives, fun results after hland => ?_⟩
    rcases cmdLand_cases host s.repo ids queue with ⟨e, hfail⟩ | ⟨policy', subs', hreq', hcases⟩
    · rw [hfail] at hland
      cases hland
    · rw [hreq] at hreq'
      cases hreq'
      rcases hcases with ⟨e, store, hfail⟩ | ⟨plan, store, results', log, hplan, hcommit, hdone⟩
      · rw [hfail] at hland
        cases hland
      · rw [hdone] at hland
        cases hland
        exact (halone.commitLanding hfresh hname hsubs hchanges hfiles hgives hplan hcommit).2

theorem Round.alone (hempty : ∀ files, host.treeId files = host.treeId ∅ → files = ∅) (hfresh : ws.IsFresh)
    {s' : Review} (hround : Round host ws queue s s') (h : Alone host ws queue s.repo) :
    Alone host ws queue s'.repo := by
  obtain ⟨a, hauthor, hgrows, rfl⟩ := hround
  cases a with
  | edit dir files =>
      obtain ⟨rfl, htexts⟩ := hauthor
      refine ⟨h.workspaces, h.submissions, fun dir files' hfiles => ?_, h.stored, h.refs, h.names, h.head,
        h.base⟩
      simp only [step, BTreeMap.getElem?_insert] at hfiles
      split at hfiles
      · exact Option.some.inj hfiles ▸ htexts
      · exact h.dirs dir files' hfiles
  | submit id title changes author pending =>
      obtain rfl : changes = [ws.change] := hauthor
      have hfirst := h.snapshotSection hfresh hempty [ws.change]
      cases pending with
      | true => exact alone_save hfirst rfl
      | false => exact alone_save hfirst rfl
  | approve id reviewer =>
      cases hload : s.repo.loadSubmission id with
      | error e =>
          simp only [step, cmdApprove, hload]
          exact h
      | ok sub =>
          simp only [step, cmdApprove, hload]
          exact alone_save h (h.submissions id sub (loadSubmission_ok hload))
  | snapshot ws' =>
      obtain rfl : ws' = ws := hauthor
      have hsnap := h.trySnapshot hfresh hempty
      unfold trySnapshot at hsnap
      simp only [step, Repo.snapshotWorkspace]
      cases hauto : autoSnapshot host.treeId s.repo.dirs s.repo.store s.repo.log ws' with
      | error e => exact h
      | ok r =>
          rw [hauto] at hsnap
          exact hsnap
  | land ids queue' =>
      obtain ⟨hids, rfl⟩ := hauthor
      exact (alone_land hempty hfresh h hids hgrows).1

end Review

/-- A lone author never conflicts with themselves where they only add to what has landed: after
    any number of such rounds the head of the queue is the tip that landed last, and a landing
    that again only adds reconciles without a conflict and leaves its tip as the head. -/
theorem lone_author_lands (host : Host)
    (hempty : ∀ files, host.treeId files = host.treeId ∅ → files = ∅) (queues : QueueRegistry)
    (ws : Workspace) (hfresh : ws.IsFresh) (queue : Str) {files : Files} (hfiles : LineTexts files)
    {s : Review}
    (hrun : Relation.ReflTransGen (Review.Round host ws queue) (Review.begun ws queues files) s) :
    (s.repo.log.refsNow[reconciledRef queue]? = none ∧
          s.repo.log.refsNow[queueRef queue ws.change]? = none ∨
        s.repo.log.refsNow[reconciledRef queue]? =
          some ((s.repo.log.refsNow[queueRef queue ws.change]?).getD (host.treeId ∅).toText)) ∧
      ∀ ids, ids ≠ [] → s.GrowsAt host ws (.land ids queue) → LandsTip host s.repo ws.change ids queue := by
  have halone : Alone host ws queue s.repo := by
    induction hrun with
    | refl => exact Review.alone_begun queues hfiles
    | tail _ hround ih => exact hround.alone hempty hfresh ih
  exact ⟨halone.head, fun ids hids hgrows => (Review.alone_land hempty hfresh halone hids hgrows).2⟩

/-- A tip that leaves every file of the head as it is grows it, where its files go to the line
    driver. -/
theorem grows_of_unedited {host : Host} {head : TextFiles} {files : Files}
    (hlines : ∀ path : Str, files[path]? ≠ none → lineMerged host.tools path = true)
    (hkeeps : ∀ path text : Str, head[path]? = some text → files[path]? = some (.text text)) :
    Grows host head files := by
  refine ⟨fun path hsome => ?_, fun path version hversion => ?_⟩
  · obtain ⟨text, htext⟩ := Option.ne_none_iff_exists'.mp hsome
    rw [hkeeps path text htext]
    exact Option.some_ne_none _
  · have hline : lineMerged host.tools path = true := hlines path (by simp [hversion])
    unfold Takes TextFiles.textAt
    rw [if_pos hline]
    cases htext : head[path]? with
    | none => exact follows_of_empty version
    | some text =>
        obtain rfl : text = version := by
          simpa [hversion] using (hkeeps path text htext).symm
        exact follows_same text

/-! ## An author who edits what has landed -/

/-- A host that tells small trees apart by their paths and texts, and the empty one from all. -/
def textHost : Host :=
  { sampleHost with
    treeId := fun files =>
      if files.isEmpty then ⟨List.replicate 32 0, by simp⟩
      else
        ⟨1 :: List.replicate 31 (UInt8.ofNat (files.toList.map fun (path, c) =>
          path.length + ((c.readToString.getD []).map Char.toNat).sum).sum), by simp⟩ }

theorem textHost_empty (files : Files) (h : textHost.treeId files = textHost.treeId ∅) : files = ∅ := by
  unfold textHost at h
  dsimp only at h
  by_contra hne
  have hfiles : files.isEmpty = false := by
    rw [Bool.eq_false_iff, ne_eq, Std.ExtTreeMap.isEmpty_iff]
    exact hne
  rw [hfiles] at h
  have hdigest := congrArg (fun id => id.digest.head?) h
  exact absurd hdigest (by simp)

def oneWorkspace : Workspace := ⟨"w".toList, "d".toList, "ws/w".toList⟩

/-- A directory with the text `x` in one file, and with a second file beside it. -/
def firstFiles : Files := (∅ : Files).insert "a".toList (.text "x".toList)

def grownFiles : Files := firstFiles.insert "bb".toList (.text "y".toList)

def authorSubmission : Submission :=
  (Submission.new "s".toList [] ["ws/w".toList] "agent".toList).approve "auto-reviewer".toList

/-- The author's first landing, and an edit behind it. -/
def firstRound (files : Files) : List Action :=
  [.submit "s".toList [] ["ws/w".toList] none false, .land ["s".toList] "trunk".toList,
    .edit "d".toList files]

def afterRound (files : Files) : Review :=
  (firstRound files).foldl (Review.step textHost) (Review.begun oneWorkspace ⟨[]⟩ firstFiles)

/-- The author of one file who has landed it and edits it conflicts with themselves: both the
    landed text and the edit count as changes of the empty text the author began with. -/
theorem lone_author_conflicts :
    let edited := firstFiles.insert "a".toList (.text "y".toList)
    LineTexts firstFiles ∧ (∀ a ∈ firstRound edited, Review.ByAuthor oneWorkspace "trunk".toList a) ∧
      ¬ LandsTip textHost (afterRound edited).repo "ws/w".toList ["s".toList] "trunk".toList := by
  intro edited
  have hedited : LineTexts edited := by
    rw [lineTexts_iff]
    decide +kernel
  refine ⟨?_, ?_, fun hlands => ?_⟩
  · rw [lineTexts_iff]
    decide +kernel
  · intro a ha
    simp only [firstRound, List.mem_cons, List.not_mem_nil, or_false] at ha
    rcases ha with rfl | rfl | rfl
    · rfl
    · exact ⟨by simp, rfl⟩
    · exact ⟨rfl, hedited⟩
  · have hreq : landRequest (afterRound edited).repo ["s".toList] "trunk".toList =
        .ok (.trunk, [authorSubmission]) := by decide +kernel
    obtain ⟨files, -, ⟨s, -, -, hfold, -, hclean⟩, -⟩ := hlands _ _ hreq
    let first := (afterRound edited).repo.snapshotSection textHost ([authorSubmission].flatMap Submission.changes)
    have hconflicted : (reconcileFold textHost first.store first.queues first.log "trunk".toList
        [authorSubmission]).toOption.map (fun s => s.conflicted.toList) = some ["a".toList] := by
      decide +kernel
    have hsome := congrArg (fun r => r.toOption.map fun s => s.conflicted.toList) hfold
    have hlist : some s.conflicted.toList = some ["a".toList] := hsome.symm.trans hconflicted
    rw [hclean] at hlist
    exact absurd hlist (by decide +kernel)

theorem growsAt_sample {s : Review} {head : TextFiles} {files : Files}
    (hreq : landRequest s.repo ["s".toList] "trunk".toList = .ok (.trunk, [authorSubmission]))
    (hhead : let first := s.repo.snapshotSection textHost ["ws/w".toList]
      materializeTrunk textHost first.store first.queues first.log.refsNow "trunk".toList = .ok head)
    (htip : let first := s.repo.snapshotSection textHost ["ws/w".toList]
      first.log.refsNow["ws/w".toList]? = some (textHost.treeId files).toText ∧
        first.store.read textHost.treeId (textHost.treeId files) = .ok files)
    (hgrows : Grows textHost head files) :
    s.GrowsAt textHost oneWorkspace (.land ["s".toList] "trunk".toList) := by
  intro policy subs hreq' first head' files' hhead' hfiles'
  rw [hreq] at hreq'
  cases hreq'
  obtain rfl : head = head' := Except.ok.inj (hhead.symm.trans hhead')
  obtain ⟨href, hread⟩ := htip
  have hfirst : first = s.repo.snapshotSection textHost ["ws/w".toList] := rfl
  have hchange : oneWorkspace.change = "ws/w".toList := rfl
  unfold TipFiles at hfiles'
  rw [hfirst, hchange, href] at hfiles'
  obtain ⟨id, hparse, hread'⟩ := hfiles'
  rw [parseTip_toText] at hparse
  cases hparse
  obtain rfl : files = files' := Except.ok.inj (hread.symm.trans hread')
  exact hgrows

/-- A second landing that adds a file goes well. -/
theorem lone_author_lands_grown :
    LandsTip textHost (afterRound grownFiles).repo "ws/w".toList ["s".toList] "trunk".toList := by
  have hfirst : LineTexts firstFiles := by
    rw [lineTexts_iff]
    decide +kernel
  have hgrown : LineTexts grownFiles := by
    rw [lineTexts_iff]
    decide +kernel
  have hlines : ∀ path : Str, grownFiles[path]? ≠ none → lineMerged textHost.tools path = true := by
    intro path hsome
    have hkeys : ∀ path ∈ grownFiles.keys, lineMerged textHost.tools path = true := by decide +kernel
    exact hkeys path (Std.ExtTreeMap.mem_keys.mpr
      (Std.ExtTreeMap.mem_iff_isSome_getElem?.mpr (Option.isSome_iff_ne_none.mpr hsome)))
  have hsub : ∀ path : Str, firstFiles[path]? ≠ none → grownFiles[path]? = firstFiles[path]? := by
    intro path hsome
    unfold grownFiles
    rw [BTreeMap.getElem?_insert, if_neg]
    rintro rfl
    exact hsome (by decide +kernel)
  have hlanding : Review.GrowsAt textHost oneWorkspace
      (Review.step textHost (Review.begun oneWorkspace ⟨[]⟩ firstFiles)
        (.submit "s".toList [] ["ws/w".toList] none false)) (.land ["s".toList] "trunk".toList) := by
    refine @growsAt_sample _ ∅ firstFiles (by decide +kernel) (by decide +kernel) (by decide +kernel) ?_
    refine grows_of_unedited (fun path hsome => hlines path ?_) (by simp)
    rw [hsub path hsome]
    exact hsome
  have hagain : Review.GrowsAt textHost oneWorkspace (afterRound grownFiles)
      (.land ["s".toList] "trunk".toList) := by
    refine @growsAt_sample _ (readTreeFiles firstFiles) grownFiles (by decide +kernel) (by decide +kernel)
      (by decide +kernel) ?_
    refine grows_of_unedited hlines fun path text htext => ?_
    have hkept := hfirst.getElem? htext
    rw [hsub path (by simp [hkept]), hkept]
  have hfresh : oneWorkspace.IsFresh := by
    unfold Workspace.IsFresh
    decide
  refine (lone_author_lands textHost textHost_empty ⟨[]⟩ oneWorkspace hfresh "trunk".toList hfirst
    (.tail (.tail (.single ⟨.submit "s".toList [] ["ws/w".toList] none false, rfl, trivial, rfl⟩)
      ⟨.land ["s".toList] "trunk".toList, ⟨by simp, rfl⟩, hlanding, rfl⟩)
      ⟨.edit "d".toList grownFiles, ⟨rfl, hgrown⟩, trivial, rfl⟩)).2 ["s".toList] (by simp) hagain

end Omoplata
