-- SUMMARY: Runs of edits, reviews and landings, and when what is landed is what was approved.
import Omoplata.Cli.Gates

/-!
# What was approved

An approval is a flag on a submission, which names changes and not tips. A run
keeps beside the repository the refs at the time each approval was recorded. A
landing snapshots the workspaces of its changes before it reads their tips, so it
lands what was approved where no snapshot since has moved them.
-/

namespace Omoplata

/-- A repository with the refs each submission was approved at. -/
structure Review where
  repo : Repo
  approvedAt : SubmissionId → Refs

/-- An operation of a run. -/
inductive Action where
  | edit (dir : Str) (files : Files)
  | submit (id : SubmissionId) (title : Str) (changes : List ChangeId) (author : Option Str)
      (pending : Bool)
  | approve (id : SubmissionId) (reviewer : Option Str)
  | snapshot (ws : Workspace)
  | land (ids : List SubmissionId) (queue : Str)

namespace Review

variable (host : Host)

/-- Record an approval. -/
def record (s : Review) (id : SubmissionId) (repo : Repo) : Review :=
  ⟨repo, fun id' => if id' = id then repo.log.refsNow else s.approvedAt id'⟩

/-- What an operation does. -/
def step (s : Review) : Action → Review
  | .edit dir files => { s with repo := { s.repo with dirs := s.repo.dirs.insert dir files } }
  | .submit id title changes author pending =>
      let repo := cmdSubmit host s.repo id title changes author pending
      if pending then { s with repo := repo } else s.record id repo
  | .approve id reviewer =>
      match cmdApprove s.repo id reviewer with
      | (.ok (), repo) => s.record id repo
      | (.error _, repo) => { s with repo := repo }
  | .snapshot ws => { s with repo := (s.repo.snapshotWorkspace host ws).2 }
  | .land ids queue => { s with repo := (cmdLand host s.repo ids queue).2 }

/-- Whether a change belongs to an approved submission other than `id`. -/
def Held (s : Review) (id : Option SubmissionId) (c : ChangeId) : Prop :=
  ∃ id' sub, s.repo.submissions[id']? = some sub ∧ some id' ≠ id ∧ sub.isApproved = true ∧ c ∈ sub.changes

/-- The workspaces a snapshot finds dirty edit no change of an approved submission. -/
def Settled (s : Review) (id : Option SubmissionId) (workspaces : List Workspace) : Prop :=
  ∀ ws ∈ workspaces, s.Held id ws.change → ws.dirtyAt host.treeId s.repo.dirs s.repo.log.refsNow = false

/-- The changes of the submissions a landing names. -/
def landedChanges (s : Review) (ids : List SubmissionId) : List ChangeId :=
  (ids.filterMap fun id => s.repo.submissions[id]?).flatMap Submission.changes

/-- An operation disturbs no approval: its snapshots record nothing for a change of an
    approved submission, and no ref it lands is named like one. -/
def Undisturbed (s : Review) : Action → Prop
  | .edit .. => True
  | .submit id _ changes _ _ => s.Settled host (some id) (workspacesOf s.repo.workspaces changes)
  | .approve .. => True
  | .snapshot ws => s.Settled host none [ws]
  | .land ids queue =>
      s.Settled host none (workspacesOf s.repo.workspaces (s.landedChanges ids)) ∧
        ∀ c, s.Held none c → c ≠ reconciledRef queue ∧ ∀ c' ∈ s.landedChanges ids, c ≠ queueRef queue c'

/-- One operation of a run in which no approval is disturbed. -/
def Step (s s' : Review) : Prop := ∃ a, s.Undisturbed host a ∧ s' = s.step host a

/-- Every approved change is at the tip it was approved at. -/
structure Upheld (s : Review) : Prop where
  id_eq : ∀ (id : SubmissionId) (sub : Submission), s.repo.submissions[id]? = some sub → sub.id = id
  tip_eq : ∀ (id : SubmissionId) (sub : Submission), s.repo.submissions[id]? = some sub →
    sub.isApproved = true → ∀ c ∈ sub.changes, s.repo.log.refsNow[c]? = (s.approvedAt id)[c]?

variable {host} {s : Review}

/-- Snapshots that are settled leave the tips of approved changes. -/
theorem Settled.refs_snapshot {id : Option SubmissionId} {changes : List ChangeId} {c : ChangeId}
    (h : s.Settled host id (workspacesOf s.repo.workspaces changes)) (hc : s.Held id c) :
    (s.repo.snapshotSection host changes).log.refsNow[c]? = s.repo.log.refsNow[c]? :=
  foldl_trySnapshot_refs host.treeId s.repo.dirs fun ws hws hchange => h ws hws (hchange ▸ hc)

/-- Storing a submission under its id keeps the approvals of the others upheld. -/
theorem upheld_save (hid : ∀ (id : SubmissionId) (sub : Submission),
      s.repo.submissions[id]? = some sub → sub.id = id)
    {repo : Repo} {sub : Submission} {approvedAt : SubmissionId → Refs}
    (hsubs : repo.submissions = s.repo.submissions)
    (hnew : sub.isApproved = true → ∀ c ∈ sub.changes, repo.log.refsNow[c]? = (approvedAt sub.id)[c]?)
    (hold : ∀ (id : SubmissionId) (sub' : Submission), s.repo.submissions[id]? = some sub' → id ≠ sub.id →
      sub'.isApproved = true → ∀ c ∈ sub'.changes, repo.log.refsNow[c]? = (approvedAt id)[c]?) :
    Upheld ⟨repo.saveSubmission sub, approvedAt⟩ := by
  constructor
  · intro id sub' hsub'
    simp only [Repo.saveSubmission, BTreeMap.getElem?_insert, hsubs] at hsub'
    by_cases hsame : sub.id = id
    · rw [if_pos hsame, Option.some.injEq] at hsub'
      rw [← hsub', hsame]
    · rw [if_neg hsame] at hsub'
      exact hid id sub' hsub'
  · intro id sub' hsub' happroved c hc
    simp only [Repo.saveSubmission, BTreeMap.getElem?_insert, hsubs] at hsub'
    by_cases hsame : sub.id = id
    · rw [if_pos hsame, Option.some.injEq] at hsub'
      subst hsub' hsame
      exact hnew happroved c hc
    · rw [if_neg hsame] at hsub'
      exact hold id sub' hsub' (Ne.symm hsame) happroved c hc

theorem upheld_submit (h : s.Upheld) {id : SubmissionId} {title : Str} {changes : List ChangeId}
    {author : Option Str} {pending : Bool}
    (hok : s.Undisturbed host (.submit id title changes author pending)) :
    (s.step host (.submit id title changes author pending)).Upheld := by
  -- The approved submissions that stay are at tips the snapshots have not moved.
  have hold : ∀ (id' : SubmissionId) (sub' : Submission), s.repo.submissions[id']? = some sub' →
      id' ≠ id → sub'.isApproved = true → ∀ c ∈ sub'.changes,
        (s.repo.snapshotSection host changes).log.refsNow[c]? = (s.approvedAt id')[c]? := by
    intro id' sub' hsub' hne happroved c hc
    rw [Settled.refs_snapshot hok ⟨id', sub', hsub', by simpa using hne, happroved, hc⟩]
    exact h.tip_eq id' sub' hsub' happroved c hc
  cases pending with
  | true => exact upheld_save h.id_eq rfl (by simp [Submission.new, Submission.isApproved]) hold
  | false =>
      refine upheld_save h.id_eq rfl (fun _ c _ => ?_) fun id' sub' hsub' hne happroved c hc => ?_
      · simp [Submission.approve, Submission.new, cmdSubmit, Repo.saveSubmission]
      · have hother : id' ≠ id := hne
        rw [if_neg hother]
        exact hold id' sub' hsub' hother happroved c hc

theorem upheld_approve (h : s.Upheld) {id : SubmissionId} {reviewer : Option Str} :
    (s.step host (.approve id reviewer)).Upheld := by
  cases hload : s.repo.loadSubmission id with
  | error e =>
      simp only [step, cmdApprove, hload]
      exact ⟨h.id_eq, h.tip_eq⟩
  | ok sub =>
      obtain rfl := h.id_eq id sub (loadSubmission_ok hload)
      simp only [step, cmdApprove, hload]
      refine upheld_save h.id_eq rfl (fun _ c _ => ?_) fun id' sub' hsub' hne happroved c hc => ?_
      · simp [Submission.approve, Repo.saveSubmission]
      · simp only [Submission.approve] at hne
        rw [if_neg hne]
        exact h.tip_eq id' sub' hsub' happroved c hc

theorem upheld_snapshot (h : s.Upheld) {ws : Workspace} (hok : s.Undisturbed host (.snapshot ws)) :
    (s.step host (.snapshot ws)).Upheld := by
  cases hsnap : autoSnapshot host.treeId s.repo.dirs s.repo.store s.repo.log ws with
  | error e =>
      simp only [step, Repo.snapshotWorkspace, hsnap]
      exact ⟨h.id_eq, h.tip_eq⟩
  | ok r =>
      obtain ⟨r, store, log⟩ := r
      simp only [step, Repo.snapshotWorkspace, hsnap]
      refine ⟨h.id_eq, fun id sub hsub happroved c hc => ?_⟩
      have hrefs := @trySnapshot_refs host.treeId s.repo.dirs (s.repo.store, s.repo.log) ws c
        fun hchange => hok ws (by simp) (hchange ▸ ⟨id, sub, hsub, by simp, happroved, hc⟩)
      simp only [trySnapshot, hsnap] at hrefs
      exact hrefs.trans (h.tip_eq id sub hsub happroved c hc)

/-- The submissions of a landing are those of the changes it lands. -/
theorem landedChanges_eq {ids : List SubmissionId} {subs : List Submission}
    (h : ids.map (fun id => s.repo.submissions[id]?) = subs.map some) :
    s.landedChanges ids = subs.flatMap Submission.changes := by
  have hsubs : ids.filterMap (fun id => s.repo.submissions[id]?) = subs := by
    have hmap := congrArg (List.filterMap id) h
    simpa [List.filterMap_map] using hmap
  rw [landedChanges, hsubs]

theorem upheld_land (h : s.Upheld) {ids : List SubmissionId} {queue : Str}
    (hok : s.Undisturbed host (.land ids queue)) : (s.step host (.land ids queue)).Upheld := by
  rcases cmdLand_cases host s.repo ids queue with ⟨e, hland⟩ | ⟨policy, subs, hreq, hcases⟩
  · simp only [step, hland]
    exact ⟨h.id_eq, h.tip_eq⟩
  · obtain ⟨hres, hsubs⟩ := landRequest_ok hreq
    obtain ⟨hsettled, hnames⟩ := hok
    rw [landedChanges_eq hsubs] at hsettled hnames
    have hfirst : ∀ (id : SubmissionId) (sub : Submission), s.repo.submissions[id]? = some sub →
        sub.isApproved = true → ∀ c ∈ sub.changes,
          (s.repo.snapshotSection host (subs.flatMap Submission.changes)).log.refsNow[c]? =
            (s.approvedAt id)[c]? := by
      intro id sub hsub happroved c hc
      rw [Settled.refs_snapshot hsettled ⟨id, sub, hsub, by simp, happroved, hc⟩]
      exact h.tip_eq id sub hsub happroved c hc
    rcases hcases with ⟨e, store, hland⟩ | ⟨plan, store, results, log', hplan, hcommit, hland⟩
    · simp only [step, hland]
      exact ⟨h.id_eq, hfirst⟩
    · simp only [step, hland]
      refine ⟨h.id_eq, fun id sub hsub happroved c hc => ?_⟩
      obtain ⟨hpolicy, hplansubs, -⟩ := planLanding_ok hplan
      obtain ⟨-, -, -, hframe⟩ := commitLanding_ok hcommit
      rw [hpolicy, hplansubs, QueueRegistry.resolve_name hres] at hframe
      obtain ⟨hhead, hrefs⟩ := hnames c ⟨id, sub, hsub, by simp, happroved, hc⟩
      rw [← hfirst id sub hsub happroved c hc]
      exact hframe c hhead fun sub' hsub' c' hc' => hrefs c' (List.mem_flatMap.mpr ⟨sub', hsub', hc'⟩)

theorem Step.upheld {s' : Review} (h : Step host s s') (hs : s.Upheld) : s'.Upheld := by
  obtain ⟨a, hok, rfl⟩ := h
  cases a with
  | edit dir files => exact ⟨hs.id_eq, hs.tip_eq⟩
  | submit => exact upheld_submit hs hok
  | approve => exact upheld_approve hs
  | snapshot => exact upheld_snapshot hs hok
  | land => exact upheld_land hs hok

/-- A run that disturbs no approval keeps every approved change at its tip. -/
theorem upheld_of_run {s s' : Review} (h : Relation.ReflTransGen (Step host) s s') (hs : s.Upheld) :
    s'.Upheld := by
  induction h with
  | refl => exact hs
  | tail _ hstep ih => exact hstep.upheld ih

end Review

/-- What is landed is what was approved: after a run that disturbed no approval, a landing
    that disturbs none on a queue that requires approval sets the public ref of each
    change to the tip it had when its submission was approved. -/
theorem land_lands_approved (host : Host) (repo : Repo) (hfresh : repo.submissions = ∅)
    (approvedAt : SubmissionId → Refs) {s : Review}
    (hrun : Relation.ReflTransGen (Review.Step host) ⟨repo, approvedAt⟩ s) {ids : List SubmissionId}
    {queue : Str} (hok : s.Undisturbed host (.land ids queue)) {policy : QueuePolicy}
    (hpolicy : s.repo.queues.resolve queue = .ok policy) (happroval : policy.requireApproval = true)
    {results : List LandResult} {after : Repo}
    (hland : cmdLand host s.repo ids queue = (.ok results, after)) :
    ∀ id ∈ ids, ∃ sub, s.repo.submissions[id]? = some sub ∧ sub.isApproved = true ∧
      ∀ c ∈ sub.changes, after.log.refsNow[queueRef queue c]? = (s.approvedAt id)[c]? := by
  have hupheld : s.Upheld := Review.upheld_of_run hrun ⟨by simp [hfresh], by simp [hfresh]⟩
  rcases cmdLand_cases host s.repo ids queue with ⟨e, hrefused⟩ | ⟨policy', subs, hreq, hcases⟩
  · simp [hrefused] at hland
  · obtain ⟨hres, hsubs⟩ := landRequest_ok hreq
    obtain rfl : policy' = policy := Except.ok.inj (hres.symm.trans hpolicy)
    rcases hcases with ⟨e, store, hfailed⟩ | ⟨plan, store, results', log', hplan, hcommit, hdone⟩
    · simp [hfailed] at hland
    · rw [hdone, Prod.mk.injEq] at hland
      obtain ⟨-, rfl⟩ := hland
      obtain ⟨hplanpolicy, hplansubs, htips⟩ := planLanding_ok hplan
      obtain ⟨hpass, hset, -⟩ := commitLanding_ok hcommit
      rw [hplansubs, hplanpolicy] at hpass hset
      rw [QueueRegistry.resolve_name hres] at hset
      intro id hid
      have hmem : s.repo.submissions[id]? ∈ subs.map some := by
        rw [← hsubs]
        exact List.mem_map_of_mem hid
      obtain ⟨sub, hsub, hload⟩ := List.mem_map.mp hmem
      have happroved := (hpass sub hsub).approved happroval
      refine ⟨sub, hload.symm, happroved, fun c hc => ?_⟩
      obtain ⟨hsome, href⟩ := hset sub hsub c hc
      have hsettled := hok.1
      rw [Review.landedChanges_eq hsubs] at hsettled
      -- The landing reads the tip its own snapshots have left where it was.
      rw [href, htips c hsome,
        Review.Settled.refs_snapshot hsettled ⟨id, sub, hload.symm, by simp, happroved, hc⟩]
      exact hupheld.tip_eq id sub hload.symm happroved c hc

/-! ## An edit after the approval -/

/-- A repository with one workspace, whose directory holds one file. -/
def workspaceRepo : Repo :=
  { emptyRepo with
    workspaces := ⟨[⟨"w".toList, "d".toList, "ws/w".toList⟩]⟩
    dirs := (∅ : WorkingDirs).insert "d".toList (emptyFiles ["a".toList]) }

/-- Its workspace's change submitted and approved. -/
def approvedReview : Review :=
  Review.step sampleHost ⟨workspaceRepo, fun _ => ∅⟩
    (.submit "s".toList [] ["ws/w".toList] none false)

/-- A file added to the working directory after the approval lands under it: the landing
    snapshots the workspace. The submission carries no certificate. -/
theorem land_lands_later_edit :
    let edited := approvedReview.step sampleHost (.edit "d".toList (emptyFiles ["a".toList, "b".toList]))
    let after := cmdLand sampleHost edited.repo ["s".toList] "trunk".toList
    QueuePolicy.trunk.requireApproval = true ∧
      (edited.repo.submissions["s".toList]?.map Submission.approval) =
        some (.approved "auto-reviewer".toList []) ∧
      (edited.approvedAt "s".toList)["ws/w".toList]? =
        some (sampleHost.treeId (emptyFiles ["a".toList])).toText ∧
      after.1.toOption.isSome ∧
      after.2.log.refsNow["public/ws/w".toList]? =
        some (sampleHost.treeId (emptyFiles ["a".toList, "b".toList])).toText ∧
      sampleHost.treeId (emptyFiles ["a".toList]) ≠
        sampleHost.treeId (emptyFiles ["a".toList, "b".toList]) := by
  decide +kernel

/-- Without the edit the landing lands what was approved. -/
theorem land_lands_approved_unedited :
    ∃ sub, approvedReview.repo.submissions["s".toList]? = some sub ∧
      sub.isApproved = true ∧ ∀ c ∈ sub.changes,
        (cmdLand sampleHost approvedReview.repo ["s".toList] "trunk".toList).2.log.refsNow[
          queueRef "trunk".toList c]? = (approvedReview.approvedAt "s".toList)[c]? := by
  have hsubmit : Review.Undisturbed sampleHost ⟨workspaceRepo, fun _ => ∅⟩
      (.submit "s".toList [] ["ws/w".toList] none false) := by
    rintro ws - ⟨id, sub, hsub, -⟩
    simp [workspaceRepo, emptyRepo] at hsub
  have hheld : ∀ c, approvedReview.Held none c → c = "ws/w".toList := by
    rintro c ⟨id, sub, hsub, -, -, hc⟩
    have hsubs : approvedReview.repo.submissions = (∅ : BTreeMap SubmissionId Submission).insert "s".toList
        ((Submission.new "s".toList [] ["ws/w".toList] "agent".toList).approve
          "auto-reviewer".toList) := rfl
    rw [hsubs, BTreeMap.getElem?_insert] at hsub
    split at hsub
    · rw [Option.some.injEq] at hsub
      rw [← hsub] at hc
      exact List.mem_singleton.mp hc
    · simp at hsub
  have hclean : ∀ ws ∈ workspacesOf approvedReview.repo.workspaces
      (approvedReview.landedChanges ["s".toList]),
      ws.dirtyAt sampleHost.treeId approvedReview.repo.dirs approvedReview.repo.log.refsNow = false := by
    decide +kernel
  have hland : approvedReview.Undisturbed sampleHost (.land ["s".toList] "trunk".toList) := by
    refine ⟨fun ws hws _ => hclean ws hws, fun c hc => ?_⟩
    rw [hheld c hc]
    decide +kernel
  have hsome : (cmdLand sampleHost approvedReview.repo ["s".toList] "trunk".toList).1.toOption.isSome := by
    decide +kernel
  cases hresult : (cmdLand sampleHost approvedReview.repo ["s".toList] "trunk".toList).1 with
  | error e =>
      rw [hresult] at hsome
      exact absurd hsome (by simp [Except.toOption])
  | ok results =>
      exact land_lands_approved sampleHost workspaceRepo rfl (fun _ => ∅)
        (.single ⟨_, hsubmit, rfl⟩) hland
        (show approvedReview.repo.queues.resolve "trunk".toList = .ok .trunk from rfl) rfl
        (Prod.ext hresult rfl) "s".toList (by simp)

end Omoplata
