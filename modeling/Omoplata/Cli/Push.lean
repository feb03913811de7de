-- SUMMARY: What a push can change: only the refs it lands, and those only past the gates.
import Omoplata.Cli.Gates

/-!
# Pushing

The tips of a push and the changes of its submission are independent lists. Tips
are written as refs before any gate runs, under the names the client gives them;
for names outside the public and the reconciled space no push moves a ref of these
spaces but those it lands.
-/

namespace Omoplata

/-- The names of landed refs. -/
def Landed (name : Str) : Prop := publicSpace <+: name ∨ reconciledSpace <+: name

instance (name : Str) : Decidable (Landed name) := by unfold Landed; infer_instance

/-- Recording tips moves no other ref. -/
theorem refsNow_recordTips {tips : List (ChangeId × CommitId)} {name : Str}
    (h : ∀ t ∈ tips, t.1 ≠ name) (log : OpLog) :
    (recordTips tips log).refsNow[name]? = log.refsNow[name]? := by
  have hloop : ∀ (current : Refs) (log : OpLog),
      (tips.foldl (recordTip current) log).refsNow[name]? = log.refsNow[name]? := by
    intro current
    induction tips with
    | nil => exact fun _ => rfl
    | cons t tips ih =>
        intro log
        rw [List.foldl_cons, ih fun t' ht' => h t' (List.mem_cons_of_mem _ ht')]
        unfold recordTip
        split
        · rfl
        · rw [OpLog.getElem?_refsNow_setRef, if_neg (h t (by simp))]
  exact hloop log.refsNow log

/-- What the gates of a queue have checked of a push: the approval; a directory that holds
    the tips of all changes that it lands, free of conflict values on a strict queue and
    passed by the validator. -/
structure PushGates (host : Host) (store : Store) (policy : QueuePolicy) (payload : PushPayload) :
    Prop where
  approved : policy.requireApproval = true → payload.submission.isApproved = true
  observed : ∃ content : Files,
    (∀ t ∈ payload.tips, t.1 ∈ payload.submission.changes →
      ∃ (id : ObjectId) (files : Files) (dir : Str), parseTip t.2 = .ok (some id) ∧
        store.read host.treeId id = .ok files ∧ ∀ path c, files[path]? = some c → content[dir ++ path]? = some c) ∧
    (policy.allowCarried = false → ConflictFree host content) ∧
    ∀ cmd, policy.validate = some cmd → host.validator cmd content = .ok true

/-- The head a push may set: a tree written by the reconciliation, on a strict queue free
    of the conflict values it counts. -/
def ReconciledTo (host : Host) (policy : QueuePolicy) (tip : CommitId) : Prop :=
  ∃ content files, writeFiles content = some files ∧ tip = (host.treeId files).toText ∧
    (policy.allowCarried = false → CleanHead host content)

/-- The tips of the changes that a push lands are object ids. -/
def TipsAreIds (payload : PushPayload) : Prop :=
  ∀ t ∈ payload.tips, t.1 ∈ payload.submission.changes → ∃ id, parseTip t.2 = .ok (some id)

/-- The part of a push behind its first locked section. -/
theorem planPush_commit {host : Host} {store store' : Store} {registry : QueueRegistry}
    {policy : QueuePolicy} {payload : PushPayload} {log log' : OpLog} {plan : LandingPlan}
    {results : List LandResult} (hids : TipsAreIds payload)
    (hplan : planPush host store registry policy payload.submission payload.tips log = (.ok plan, store'))
    (hcommit : commitLanding plan log = .ok (results, log')) :
    PushGates host store policy payload ∧
      ∀ name, log'.refsNow[name]? = log.refsNow[name]? ∨
        (∃ c ∈ payload.submission.changes, name = queueRef policy.name c ∧
          ∃ tip, (c, tip) ∈ payload.tips ∧ log'.refsNow[name]? = some tip) ∨
        name = reconciledRef policy.name ∧
          ∃ tip, log'.refsNow[name]? = some tip ∧ ReconciledTo host policy tip := by
  unfold planPush at hplan
  split at hplan
  · simp at hplan
  · rename_i graph oids hfold
    obtain ⟨hpolicy, hsubs, hgraph, ⟨batch, hbatch, hgates⟩, hrec, hclean⟩ := observeLanding_ok hplan
    obtain ⟨hpass, hset, hhead, hframe⟩ := commitLanding_ok hcommit
    -- the gates are observed on a graph built from the payload alone
    obtain ⟨hsup, -, htips, hchange⟩ := foldlM_addTip_ok hfold
    obtain ⟨dir, hholds, hcarried, hvalidator⟩ := observeBatchGates_ok hbatch
    obtain ⟨content, files, hwrite, htip, hcount, -⟩ := reconcileCore_ok hrec
    rw [hpolicy, hsubs, List.forall_mem_singleton] at hpass
    rw [hpolicy, hsubs, List.forall_mem_singleton] at hset
    simp only [hsubs, List.forall_mem_singleton, hpolicy] at hframe
    rw [hpolicy] at hhead
    rw [hgates] at hpass
    refine ⟨⟨hpass.approved, dir, fun t ht hlands => ?_, fun hallow => ?_, fun cmd hcmd => ?_⟩,
      fun name => ?_⟩
    · -- A tip that is an object id is among those observed, at some position.
      obtain ⟨id, hid⟩ := hids t ht hlands
      obtain ⟨r, hr, hmem⟩ := htips (t.1, some t.2) (List.mem_map_of_mem ht) t.2 rfl
      obtain rfl : r = some id := Except.ok.inj (hr.symm.trans hid)
      obtain ⟨i, hi⟩ := List.mem_iff_getElem?.mp (hmem id rfl)
      obtain ⟨found, hread, hfiles⟩ := hholds (id, i) (List.mem_zipIdx_iff_getElem?.mpr hi)
      exact ⟨id, found, _, hid, hread, hfiles⟩
    · have hzero : batch.carriedValues = 0 := hpass.carried hallow
      rw [hzero] at hcarried
      exact observeCarried_zero hcarried
    · have hverdict : batch.validated = some true := hpass.validated (by rw [hcmd]; rfl)
      unfold runValidator at hvalidator
      simp only [hcmd] at hvalidator
      cases hrun : host.validator cmd dir with
      | error e => simp [hrun, Except.mapError, Except.map] at hvalidator
      | ok verdict =>
          simp only [hrun, Except.mapError, Except.map, Except.ok.injEq] at hvalidator
          rw [hverdict] at hvalidator
          rw [Option.some.inj hvalidator]
    · by_cases hname : ∃ c ∈ payload.submission.changes, name = queueRef policy.name c
      · obtain ⟨c, hc, rfl⟩ := hname
        obtain ⟨hsome, href⟩ := hset c hc
        rw [hgraph] at hsome href
        -- the graph of a payload has one revision for each tip, and no change of another name
        rcases hchange c with hnone | ⟨t, ht, hentry⟩
        · have hempty : graph.change c = none := hnone.trans (by simp [ChangeGraph.change, ChangeGraph.new])
          simp [hempty] at hsome
        · obtain ⟨⟨c', tip⟩, hpair, heq⟩ := List.mem_map.mp ht
          obtain ⟨rfl, rfl⟩ := Prod.mk.inj heq
          refine .inr (.inl ⟨c', hc, rfl, tip, hpair, ?_⟩)
          rw [href, ChangeGraph.tip_of_not_superseded hsup]
          exact congrArg (·.bind fun change => change.revisions.head?) hentry
      · by_cases hrecname : name = reconciledRef policy.name
        · subst hrecname
          refine .inr (.inr ⟨rfl, _, hhead, content, files, hwrite, by rw [htip], fun hallow => ?_⟩)
          exact countCarried_zero (hcount.symm.trans (hclean hallow))
        · exact .inl (hframe name hrecname fun c hc heq => hname ⟨c, hc, heq⟩)

/-- Observing and reconciling a push keeps what the store holds. -/
theorem extends_planPush {host : Host} {store store' : Store} {registry : QueueRegistry}
    {policy : QueuePolicy} {submission : Submission} {tips : List (ChangeId × CommitId)} {log : OpLog}
    {plan : LandingPlan}
    (h : planPush host store registry policy submission tips log = (.ok plan, store')) :
    store.Extends store' := by
  unfold planPush at h
  split at h
  · simp at h
  · obtain ⟨-, -, -, -, hrec, -⟩ := observeLanding_ok h
    obtain ⟨-, files, -, -, -, rfl⟩ := reconcileCore_ok hrec
    exact Store.extends_write host.treeId store files

theorem PushGates.mono {host : Host} {store store' : Store} {policy : QueuePolicy}
    {payload : PushPayload} (h : PushGates host store policy payload) (hext : store.Extends store') :
    PushGates host store' policy payload := by
  obtain ⟨content, hheld, hclean, hvalid⟩ := h.observed
  refine ⟨h.approved, content, fun t ht hlands => ?_, hclean, hvalid⟩
  obtain ⟨id, files, dir, hid, hread, hfiles⟩ := hheld t ht hlands
  exact ⟨id, files, dir, hid, hext.read host.treeId hread, hfiles⟩

theorem pushRequest_ok {repo : Repo} {queue : Str} {submission : Submission} {policy : QueuePolicy}
    (h : pushRequest repo queue submission = .ok policy) : repo.queues.resolve queue = .ok policy := by
  unfold pushRequest at h
  cases hres : repo.queues.resolve queue with
  | error e => simp [hres, liftWork, Except.mapError, bind, Except.bind] at h
  | ok policy' =>
      simp only [hres, liftWork, Except.mapError, bind, Except.bind] at h
      split at h
      · simp at h
      · simpa [pure, Except.pure] using h

/-- A push cannot bypass the gates: where it names no landed ref among its tips, and what it
    lands are objects, the only landed refs it moves are the public refs of its submission's
    changes and the reconciled head of its queue. It moves these only where it succeeds, past
    the gates. -/
theorem acceptPush_gated (host : Host) (repo : Repo) (payload : PushPayload)
    (hnames : ∀ t ∈ payload.tips, ¬ Landed t.1) (hids : TipsAreIds payload) (name : Str) (hname : Landed name) :
    let after := acceptPush host repo payload
    after.2.log.refsNow[name]? = repo.log.refsNow[name]? ∨
      ∃ message policy, after.1 = .ok message ∧ repo.queues.resolve payload.queue = .ok policy ∧
        PushGates host after.2.store policy payload ∧
        ((∃ c ∈ payload.submission.changes, name = queueRef payload.queue c ∧
            ∃ tip, (c, tip) ∈ payload.tips ∧ after.2.log.refsNow[name]? = some tip) ∨
          name = reconciledRef payload.queue ∧
            ∃ tip, after.2.log.refsNow[name]? = some tip ∧ ReconciledTo host policy tip) := by
  intro after
  have hrecorded : (recordTips payload.tips repo.log).refsNow[name]? = repo.log.refsNow[name]? :=
    refsNow_recordTips (fun t ht heq => hnames t ht (heq ▸ hname)) _
  unfold after acceptPush
  split
  · exact .inl rfl
  · rename_i store _
    unfold landPushed
    split
    · exact .inl rfl
    · rename_i policy hpolicy
      have hres := pushRequest_ok hpolicy
      dsimp only
      split
      · exact .inl hrecorded
      · rename_i plan store' hplan
        unfold Repo.mutateLocked
        cases hcommit : commitLanding plan (recordTips payload.tips repo.log) with
        | error e =>
            simp only [Repo.saveSubmission, hcommit, bind, Except.bind]
            exact .inl hrecorded
        | ok r =>
            obtain ⟨results, log'⟩ := r
            simp only [Repo.saveSubmission, hcommit, bind, Except.bind, pure, Except.pure]
            obtain ⟨hgates, hrefs⟩ := planPush_commit hids hplan hcommit
            have hext := extends_planPush hplan
            rcases hrefs name with hsame | hmoved
            · exact .inl (hsame.trans hrecorded)
            · rw [QueueRegistry.resolve_name hres] at hmoved
              exact .inr ⟨_, policy, rfl, hres, hgates.mono hext, hmoved⟩

/-! ## Two pushes -/

/-- A push that lands no change, with a tip named like a landed ref. -/
def strayPush : PushPayload :=
  ⟨"trunk".toList, approvedSubmission "s".toList [], [("public/victim".toList, "evil".toList)], []⟩

/-- A repository with a validated queue, whose head holds a file the validator refuses. -/
def badHeadRepo : Repo :=
  { emptyRepo with
    store := (Store.write sampleHost.treeId ⟨∅⟩ (emptyFiles ["bad".toList])).2
    log := OpLog.new.setRef (reconciledRef "q".toList)
      (some (sampleHost.treeId (emptyFiles ["bad".toList])).toText) none
    queues := ⟨[⟨"q".toList, none, some "check".toList, true, true⟩]⟩ }

/-- A push into that queue that adds another file. -/
def goodPush : PushPayload :=
  ⟨"q".toList, approvedSubmission "s".toList ["c".toList],
    [("c".toList, (sampleHost.treeId (emptyFiles ["a".toList])).toText)],
    [([], some [emptyFiles ["a".toList]])]⟩

/-- A tip named like a landed ref sets that ref, past every gate; and the validator runs on
    what is pushed, so the head can be set to a tree it refuses. -/
theorem acceptPush_not_gated :
    (let victim := "public/victim".toList
      let after := acceptPush sampleHost emptyRepo strayPush
      strayPush.submission.changes = [] ∧ victim ≠ reconciledRef strayPush.queue ∧
        emptyRepo.log.refsNow[victim]? = none ∧
        after.2.log.refsNow[victim]? = some "evil".toList) ∧
    (let head := emptyFiles ["a".toList, "bad".toList]
      let after := acceptPush sampleHost badHeadRepo goodPush
      badHeadRepo.log.refsNow[reconciledRef "q".toList]? ≠ some (sampleHost.treeId head).toText ∧
        after.2.log.refsNow[reconciledRef "q".toList]? = some (sampleHost.treeId head).toText ∧
        after.2.store.read sampleHost.treeId (sampleHost.treeId head) = .ok head ∧
        sampleHost.validator "check".toList head = .ok false) := by
  decide +kernel

/-- The second push has passed the gates of its queue on what it pushed. -/
theorem acceptPush_gated_goodPush :
    ∃ policy, badHeadRepo.queues.resolve "q".toList = .ok policy ∧
      PushGates sampleHost (acceptPush sampleHost badHeadRepo goodPush).2.store policy goodPush := by
  have hids : TipsAreIds goodPush := by
    intro t ht _
    rw [List.mem_singleton.mp ht]
    exact ⟨sampleHost.treeId (emptyFiles ["a".toList]), by decide +kernel⟩
  rcases acceptPush_gated sampleHost badHeadRepo goodPush (by decide +kernel) hids
      (reconciledRef "q".toList) (by decide +kernel) with hsame | ⟨_, policy, -, hres, hgates, -⟩
  · exact absurd hsame (by decide +kernel)
  · exact ⟨policy, hres, hgates⟩

end Omoplata
