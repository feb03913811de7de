-- SUMMARY: Submitting, approving, landing and pushing submissions.
import Omoplata.Cli.Repo

/-!
# Landing

A landing works in four steps: it checks the request, brings the log up to date in
a first locked section, observes the gates and reconciles on the log it then
reads, and sets the refs in a second locked section. `cmdLand` and `landPushed`
differ in what the first section writes and where the tips come from.

A command gives its result together with the repository it leaves, also when it
fails.
-/

namespace Omoplata

namespace Repo

/-- One locked section on the log, saved only where it succeeds. -/
def mutateLocked {α : Type} (repo : Repo) (f : OpLog → Except WorkError (α × OpLog)) :
    Except CliError α × Repo :=
  match f repo.log with
  | .ok (out, log) => (.ok out, { repo with log := log })
  | .error e => (.error (.work e), repo)

def saveSubmission (repo : Repo) (sub : Submission) : Repo :=
  { repo with submissions := repo.submissions.insert sub.id sub }

def loadSubmission (repo : Repo) (id : SubmissionId) : Except CliError Submission :=
  match repo.submissions[id]? with
  | some sub => .ok sub
  | none => .error (.bail (joinTexts ["submission ".toList, id, " not found".toList]))

/-- The section that snapshots the workspaces of `changes`, whatever fails in it. -/
def snapshotSection (host : Host) (repo : Repo) (changes : List ChangeId) : Repo :=
  let s := snapshotChanges host.treeId repo.dirs repo.workspaces changes (repo.store, repo.log)
  { repo with store := s.1, log := s.2 }

/-- The section that snapshots one workspace. -/
def snapshotWorkspace (host : Host) (repo : Repo) (ws : Workspace) : Except CliError Unit × Repo :=
  match autoSnapshot host.treeId repo.dirs repo.store repo.log ws with
  | .ok (_, store, log) => (.ok (), { repo with store := store, log := log })
  | .error e => (.error (.work e), repo)

end Repo

/-! ## Review -/

/-- `omo submit`: snapshot the workspaces of the changes and record the submission,
    approved unless it is `pending`. -/
def cmdSubmit (host : Host) (repo : Repo) (id : SubmissionId) (title : Str)
    (changes : List ChangeId) (author : Option Str) (pending : Bool) : Repo :=
  let repo := repo.snapshotSection host changes
  let sub := Submission.new id title changes (author.getD "agent".toList)
  repo.saveSubmission (if pending then sub else sub.approve "auto-reviewer".toList)

/-- `omo approve`. -/
def cmdApprove (repo : Repo) (id : SubmissionId) (reviewer : Option Str) : Except CliError Unit × Repo :=
  match repo.loadSubmission id with
  | .error e => (.error e, repo)
  | .ok sub => (.ok (), repo.saveSubmission (sub.approve (reviewer.getD "reviewer".toList)))

/-! ## The steps of a landing -/

/-- What a landing has observed and computed by the time it takes the lock again. -/
structure LandingPlan where
  policy : QueuePolicy
  subs : List Submission
  gates : QueueGates
  graph : ChangeGraph
  reconciled : Reconciliation

/-- Enter a change with its tip into the graph, and its tip into the tips to observe if it
    is an object id. -/
def addTip (s : ChangeGraph × List ObjectId) (entry : ChangeId × Option CommitId) :
    Except CliError (ChangeGraph × List ObjectId) :=
  match entry.2 with
  | none => pure (s.1.addChange (.draft entry.1), s.2)
  | some tip => do
      let id ← parseTip tip
      pure (s.1.addChange ⟨entry.1, [tip], .draft⟩, s.2 ++ id.toList)

/-- Observe the gates and reconcile. The reconciled tree is stored also where it is
    refused; `refusal` is the message for that. -/
def observeLanding (host : Host) (store : Store) (registry : QueueRegistry) (log : OpLog)
    (policy : QueuePolicy) (subs : List Submission) (graph : ChangeGraph)
    (subTips : List (SubmissionId × List ObjectId)) (refusal : Reconciliation → Str) :
    Except CliError LandingPlan × Store :=
  match observeBatchGates host store registry log.refsNow policy.name subTips policy with
  | .error e => (.error e, store)
  | .ok batch =>
      match reconcileCore host store registry log policy subs with
      | .error e => (.error e, store)
      | .ok (rec, store) =>
          if rec.carried > 0 && !policy.allowCarried then (.error (.bail (refusal rec)), store)
          else (.ok ⟨policy, subs, ⟨batch.carriedValues, batch.validated⟩, graph, rec⟩, store)

/-- Point the reconciled head of a queue at a tree. -/
def writeReconciledHead (log : OpLog) (queue : Str) (tip : ObjectId) : OpLog :=
  log.setRef (reconciledRef queue) (some tip.toText) none

/-- Land submissions one after the other. -/
def landAll (policy : QueuePolicy) (gates : QueueGates) :
    List Submission → ChangeGraph → OpLog → List LandResult →
      Except WorkError (List LandResult × ChangeGraph × OpLog)
  | [], g, log, out => .ok (out, g, log)
  | sub :: subs, g, log, out => do
      let (result, g, log) ← landSubmissionInQueue sub policy gates g log
      landAll policy gates subs g log (out ++ [result])

/-- The last section of a landing: land each submission, then advance the head. -/
def commitLanding (plan : LandingPlan) (log : OpLog) : Except WorkError (List LandResult × OpLog) := do
  let (results, _, log) ← landAll plan.policy plan.gates plan.subs plan.graph log []
  pure (results, writeReconciledHead log plan.policy.name plan.reconciled.tip)

def commaSeparated (texts : List Str) : Str := List.intercalate ", ".toList texts

def notApprovedText (sub : Submission) (policy : QueuePolicy) : Str :=
  joinTexts ["submission ".toList, sub.id, " is not approved (queue ".toList, policy.name, ")".toList]

/-! ## Landing local submissions -/

/-- Resolve the queue, load the submissions and check their approval. -/
def landRequest (repo : Repo) (ids : List SubmissionId) (queue : Str) :
    Except CliError (QueuePolicy × List Submission) := do
  let policy ← liftWork (repo.queues.resolve queue)
  let subs ← ids.mapM repo.loadSubmission
  match subs.find? fun sub => policy.requireApproval && !sub.isApproved with
  | some sub => .error (.bail (notApprovedText sub policy))
  | none => pure (policy, subs)

/-- Enter the tips of a submission's changes, as the refs have them. -/
def readTip (refs : Refs) (s : ChangeGraph × List (SubmissionId × List ObjectId))
    (sub : Submission) : Except CliError (ChangeGraph × List (SubmissionId × List ObjectId)) := do
  let (g, tips) ← (sub.changes.map fun c => (c, refs[c]?)).foldlM addTip (s.1, [])
  pure (g, s.2 ++ [(sub.id, tips)])

/-- Read the tips of the submissions' changes off the refs. -/
def readTips (refs : Refs) (subs : List Submission) :
    Except CliError (ChangeGraph × List (SubmissionId × List ObjectId)) :=
  subs.foldlM (readTip refs) (ChangeGraph.new, [])

/-- Observe the gates of a local landing and reconcile, on the log it has read. -/
def planLanding (host : Host) (store : Store) (registry : QueueRegistry) (policy : QueuePolicy)
    (subs : List Submission) (log : OpLog) : Except CliError LandingPlan × Store :=
  match readTips log.refsNow subs with
  | .error e => (.error e, store)
  | .ok (graph, subTips) =>
      observeLanding host store registry log policy subs graph subTips fun rec =>
        joinTexts ["queue ".toList, policy.name, " refuses carried conflict values (".toList,
          Nat.toDigits 10 rec.carried, " after reconciling the landing); land on a permissive queue or resolve the conflicting definition(s) first: ".toList,
          commaSeparated rec.conflicted]

/-- `omo land`. -/
def cmdLand (host : Host) (repo : Repo) (ids : List SubmissionId) (queue : Str) :
    Except CliError (List LandResult) × Repo :=
  match landRequest repo ids queue with
  | .error e => (.error e, repo)
  | .ok (policy, subs) =>
      let repo := repo.snapshotSection host (subs.flatMap Submission.changes)
      match planLanding host repo.store repo.queues policy subs repo.log with
      | (.error e, store) => (.error e, { repo with store := store })
      | (.ok plan, store) => { repo with store := store }.mutateLocked (commitLanding plan)

/-! ## Landing pushed submissions -/

/-- Record a tip, unless the refs the section started from have it. -/
def recordTip (current : Refs) (log : OpLog) (t : ChangeId × CommitId) : OpLog :=
  if current[t.1]? = some t.2 then log else log.setRef t.1 (some t.2) none

/-- The first section of a pushed landing: record the tips. -/
def recordTips (tips : List (ChangeId × CommitId)) (log : OpLog) : OpLog :=
  tips.foldl (recordTip log.refsNow) log

/-- Resolve the queue and check the submission's approval. -/
def pushRequest (repo : Repo) (queue : Str) (submission : Submission) :
    Except CliError QueuePolicy := do
  let policy ← liftWork (repo.queues.resolve queue)
  if policy.requireApproval && !submission.isApproved then
    .error (.bail (notApprovedText submission policy))
  else pure policy

/-- Observe the gates of a pushed landing and reconcile, on the log it has read. -/
def planPush (host : Host) (store : Store) (registry : QueueRegistry) (policy : QueuePolicy)
    (submission : Submission) (tips : List (ChangeId × CommitId)) (log : OpLog) :
    Except CliError LandingPlan × Store :=
  match (tips.map fun t => (t.1, some t.2)).foldlM addTip (ChangeGraph.new, []) with
  | .error e => (.error e, store)
  | .ok (graph, oids) =>
      observeLanding host store registry log policy [submission] graph [(submission.id, oids)]
        fun rec =>
          joinTexts ["queue ".toList, policy.name, " refuses carried conflict values (".toList,
            Nat.toDigits 10 rec.carried, " after reconciling the push): ".toList,
            commaSeparated rec.conflicted]

/-- The message of a pushed landing. -/
def pushMessage (plan : LandingPlan) (results : List LandResult) : Str :=
  joinTexts [(results.head?.map LandResult.message).getD [], " (reconciled/".toList, plan.policy.name,
    " advanced to ".toList, plan.reconciled.tip.toText, ")".toList]

/-- Land a pushed submission, whose objects are in the store. -/
def landPushed (host : Host) (repo : Repo) (queue : Str) (submission : Submission)
    (tips : List (ChangeId × CommitId)) : Except CliError Str × Repo :=
  match pushRequest repo queue submission with
  | .error e => (.error e, repo)
  | .ok policy =>
      let repo := { repo with log := recordTips tips repo.log }
      match planPush host repo.store repo.queues policy submission tips repo.log with
      | (.error e, store) => (.error e, { repo with store := store })
      | (.ok plan, store) =>
          let repo := { repo with store := store }.saveSubmission submission
          repo.mutateLocked fun log => do
            let (results, log) ← commitLanding plan log
            pure (pushMessage plan results, log)

/-- The body of a push. An object stands for the trees it completes in the store that
    receives it, or for nothing if it does not decode. -/
structure PushPayload where
  queue : Str
  submission : Submission
  tips : List (Str × Str)
  objects : List (Str × Option (List Files))

/-- Store the objects of a push, up to the first that does not decode. -/
def receiveObjects (host : Host) : List (Str × Option (List Files)) → Store → Except CliError Unit × Store
  | [], store => (.ok (), store)
  | (_, none) :: _, store => (.error (.bail "decoding object".toList), store)
  | (_, some trees) :: rest, store =>
      receiveObjects host rest (trees.foldl (fun store files => (store.write host.treeId files).2) store)

/-- The server's side of a push. -/
def acceptPush (host : Host) (repo : Repo) (payload : PushPayload) : Except CliError Str × Repo :=
  match receiveObjects host payload.objects repo.store with
  | (.error e, store) => (.error e, { repo with store := store })
  | (.ok (), store) =>
      landPushed host { repo with store := store } payload.queue payload.submission payload.tips

/-! ## What a landing writes -/

theorem landAll_ok {policy : QueuePolicy} {gates : QueueGates} {subs : List Submission}
    {g g' : ChangeGraph} {log log' : OpLog} {out out' : List LandResult}
    (h : landAll policy gates subs g log out = .ok (out', g', log')) :
    (∀ sub ∈ subs, GatesPass policy gates sub) ∧
      (∀ sub ∈ subs, ∀ c ∈ sub.changes, (g.change c).isSome ∧
        log'.refsNow[queueRef policy.name c]? = g.tip c) ∧
      ∀ name, (∀ sub ∈ subs, ∀ c ∈ sub.changes, name ≠ queueRef policy.name c) →
        log'.refsNow[name]? = log.refsNow[name]? := by
  induction subs generalizing g log out with
  | nil =>
      obtain ⟨-, rfl, rfl⟩ : out = out' ∧ g = g' ∧ log = log' := by simpa [landAll] using h
      simp
  | cons sub subs ih =>
      unfold landAll at h
      cases hsub : landSubmissionInQueue sub policy gates g log with
      | error e => simp [hsub, bind, Except.bind] at h
      | ok r =>
          obtain ⟨result, g₁, log₁⟩ := r
          simp only [hsub, bind, Except.bind] at h
          obtain ⟨hpass, landed, hland⟩ := landSubmissionInQueue_ok hsub
          obtain ⟨hg₁, hset₁, hframe₁⟩ := landChanges_ok hland
          obtain ⟨hpasses, hset, hframe⟩ := ih h
          refine ⟨?_, ?_, ?_⟩
          · simpa using ⟨hpass, hpasses⟩
          · intro sub' hsub' c hc
            by_cases hlater : ∃ s ∈ subs, c ∈ s.changes
            · obtain ⟨s, hs, hcs⟩ := hlater
              rw [← (hg₁ c).1, ← (hg₁ c).2]
              exact hset s hs c hcs
            · have hother : ∀ s ∈ subs, ∀ c' ∈ s.changes,
                  queueRef policy.name c ≠ queueRef policy.name c' := by
                rintro s hs c' hc' heq
                exact hlater ⟨s, hs, queueRef_injective policy.name heq ▸ hc'⟩
              rcases List.mem_cons.mp hsub' with rfl | hin
              · rw [hframe _ hother]
                exact hset₁ c hc
              · exact absurd ⟨sub', hin, hc⟩ hlater
          · intro name hname
            rw [hframe name fun s hs => hname s (List.mem_cons_of_mem _ hs),
              hframe₁ name (hname sub (by simp))]

theorem landChanges_sets {policy : QueuePolicy} {ids landed landed' : List ChangeId} {g g' : ChangeGraph}
    {log log' : OpLog} (h : landChanges policy ids g log landed = .ok (landed', g', log')) :
    log.SetsRefs log' := by
  induction ids generalizing g log landed with
  | nil =>
      obtain ⟨-, -, rfl⟩ : landed = landed' ∧ g = g' ∧ log = log' := by simpa [landChanges] using h
      exact .refl
  | cons id ids ih =>
      unfold landChanges at h
      cases hc : g.change id with
      | none => simp [hc] at h
      | some change =>
          simp only [hc] at h
          cases hpub : publishChange g id change with
          | error e => simp [hpub, bind, Except.bind] at h
          | ok g₁ =>
              simp only [hpub, bind, Except.bind] at h
              exact .head ⟨_, _, _, rfl⟩ (ih h)

theorem landAll_sets {policy : QueuePolicy} {gates : QueueGates} {subs : List Submission}
    {g g' : ChangeGraph} {log log' : OpLog} {out out' : List LandResult}
    (h : landAll policy gates subs g log out = .ok (out', g', log')) : log.SetsRefs log' := by
  induction subs generalizing g log out with
  | nil =>
      obtain ⟨-, -, rfl⟩ : out = out' ∧ g = g' ∧ log = log' := by simpa [landAll] using h
      exact .refl
  | cons sub subs ih =>
      unfold landAll at h
      cases hsub : landSubmissionInQueue sub policy gates g log with
      | error e => simp [hsub, bind, Except.bind] at h
      | ok r =>
          obtain ⟨result, g₁, log₁⟩ := r
          simp only [hsub, bind, Except.bind] at h
          obtain ⟨-, landed, hland⟩ := landSubmissionInQueue_ok hsub
          exact (landChanges_sets hland).trans (ih h)

/-- The last section of a landing does nothing but set refs. -/
theorem commitLanding_sets {plan : LandingPlan} {log log' : OpLog} {results : List LandResult}
    (h : commitLanding plan log = .ok (results, log')) : log.SetsRefs log' := by
  unfold commitLanding at h
  cases hall : landAll plan.policy plan.gates plan.subs plan.graph log [] with
  | error e => simp [hall, bind, Except.bind] at h
  | ok r =>
      obtain ⟨out, g', log₁⟩ := r
      simp only [hall, bind, Except.bind, pure, Except.pure, Except.ok.injEq, Prod.mk.injEq] at h
      obtain ⟨-, rfl⟩ := h
      exact (landAll_sets hall).tail ⟨_, _, _, rfl⟩

theorem head?_queueRef (queue : Str) (c : ChangeId) : (queueRef queue c).head? = some 'p' := by
  have hspace : "public/".toList = 'p' :: "ublic/".toList := by decide
  unfold queueRef
  split <;> simp only [hspace, List.cons_append, List.head?_cons]

theorem head?_reconciledRef (queue : Str) : (reconciledRef queue).head? = some 'r' := by
  have hspace : reconciledSpace = 'r' :: "econciled/".toList := by decide
  rw [reconciledRef, hspace, List.cons_append, List.head?_cons]

theorem reconciledRef_ne_queueRef (queue queue' : Str) (c : ChangeId) :
    reconciledRef queue ≠ queueRef queue' c := by
  intro h
  have hhead := congrArg List.head? h
  rw [head?_reconciledRef, head?_queueRef] at hhead
  exact absurd hhead (by decide)

/-- The last section of a landing: every submission has passed the gates, the changes are
    public at their tips, the head is the reconciled tree, and no other ref has moved. -/
theorem commitLanding_ok {plan : LandingPlan} {log log' : OpLog} {results : List LandResult}
    (h : commitLanding plan log = .ok (results, log')) :
    (∀ sub ∈ plan.subs, GatesPass plan.policy plan.gates sub) ∧
      (∀ sub ∈ plan.subs, ∀ c ∈ sub.changes, (plan.graph.change c).isSome ∧
        log'.refsNow[queueRef plan.policy.name c]? = plan.graph.tip c) ∧
      log'.refsNow[reconciledRef plan.policy.name]? = some plan.reconciled.tip.toText ∧
      ∀ name, name ≠ reconciledRef plan.policy.name →
        (∀ sub ∈ plan.subs, ∀ c ∈ sub.changes, name ≠ queueRef plan.policy.name c) →
          log'.refsNow[name]? = log.refsNow[name]? := by
  unfold commitLanding at h
  cases hall : landAll plan.policy plan.gates plan.subs plan.graph log [] with
  | error e => simp [hall, bind, Except.bind] at h
  | ok r =>
      obtain ⟨out, g', log₁⟩ := r
      simp only [hall, bind, Except.bind, pure, Except.pure, Except.ok.injEq, Prod.mk.injEq] at h
      obtain ⟨-, rfl⟩ := h
      obtain ⟨hpass, hset, hframe⟩ := landAll_ok hall
      unfold writeReconciledHead
      refine ⟨hpass, fun sub hsub c hc => ?_, ?_, fun name hhead hname => ?_⟩
      · rw [OpLog.getElem?_refsNow_setRef, if_neg (reconciledRef_ne_queueRef _ _ _)]
        exact hset sub hsub c hc
      · rw [OpLog.getElem?_refsNow_setRef, if_pos rfl]
      · rw [OpLog.getElem?_refsNow_setRef, if_neg (Ne.symm hhead)]
        exact hframe name hname

end Omoplata
