-- SUMMARY: What a push or a backport that fails leaves behind in the refs and the submissions.
import Omoplata.Cli.Backport
import Omoplata.Cli.Push

/-!
# Refusals

A push writes its tips as refs before any gate runs and its submission before the last
section; a backport writes its certificates before the gates. So an operation that fails
leaves refs and submissions alone where it fails before these writes, or where what they
write is there already.
-/

namespace Omoplata

/-- The refs and the stored submissions are as before. -/
def Unchanged (repo repo' : Repo) : Prop :=
  repo'.log.refsNow = repo.log.refsNow ∧ repo'.submissions = repo.submissions

/-! ## Pushing -/

theorem recordTip_eq_self {current : Refs} {log : OpLog} {t : ChangeId × CommitId}
    (h : current[t.1]? = some t.2) : recordTip current log t = log := by
  unfold recordTip
  rw [if_pos h]

/-- Recording tips that the refs have already leaves the log. -/
theorem recordTips_eq_self {tips : List (ChangeId × CommitId)} {log : OpLog}
    (h : ∀ t ∈ tips, log.refsNow[t.1]? = some t.2) : recordTips tips log = log := by
  unfold recordTips
  generalize log.refsNow = current at h
  induction tips with
  | nil => rfl
  | cons t tips ih =>
      rw [List.foldl_cons, recordTip_eq_self (h t (by simp))]
      exact ih fun t' ht' => h t' (List.mem_cons_of_mem _ ht')

/-- Of the tips recorded under a name, a new one stays. -/
theorem refsNow_foldl_recordTip {current : Refs} {name : Str} {tips : List (ChangeId × CommitId)}
    (log : OpLog) (h : ∃ t ∈ tips, t.1 = name ∧ current[name]? ≠ some t.2) :
    ∃ tip, (tips.foldl (recordTip current) log).refsNow[name]? = some tip ∧
      current[name]? ≠ some tip := by
  induction tips using List.reverseRecOn with
  | nil => simp at h
  | append_singleton tips t ih =>
      rw [List.foldl_append, List.foldl_cons, List.foldl_nil]
      by_cases hrecorded : current[t.1]? = some t.2
      · rw [recordTip_eq_self hrecorded]
        obtain ⟨t', ht', hname, hnew⟩ := h
        rcases List.mem_append.mp ht' with hin | hlast
        · exact ih ⟨t', hin, hname, hnew⟩
        · obtain rfl := List.mem_singleton.mp hlast
          exact absurd (hname ▸ hrecorded) hnew
      · unfold recordTip
        rw [if_neg hrecorded, OpLog.getElem?_refsNow_setRef]
        by_cases hname : t.1 = name
        · rw [if_pos hname]
          exact ⟨t.2, rfl, hname ▸ hrecorded⟩
        · rw [if_neg hname]
          obtain ⟨t', ht', hname', hnew⟩ := h
          rcases List.mem_append.mp ht' with hin | hlast
          · exact ih ⟨t', hin, hname', hnew⟩
          · obtain rfl := List.mem_singleton.mp hlast
            exact absurd hname' hname

/-- Recording tips moves no ref exactly where the refs have them already. -/
theorem refsNow_recordTips_eq_iff {tips : List (ChangeId × CommitId)} {log : OpLog} :
    (recordTips tips log).refsNow = log.refsNow ↔ ∀ t ∈ tips, log.refsNow[t.1]? = some t.2 := by
  constructor
  · intro h t ht
    by_contra hnew
    obtain ⟨tip, hset, hne⟩ := refsNow_foldl_recordTip log ⟨t, ht, rfl, hnew⟩
    unfold recordTips at h
    rw [h] at hset
    exact hne hset
  · intro h
    rw [recordTips_eq_self h]

/-- Where a push that fails leaves the refs and the submissions: the queue resolves and the
    approval is there only if the refs have its tips, and the submission is stored as it is
    or the push fails before it is stored. -/
def PushLeaves (host : Host) (repo : Repo) (queue : Str) (submission : Submission)
    (tips : List (ChangeId × CommitId)) : Prop :=
  ∀ policy, pushRequest repo queue submission = .ok policy →
    (∀ t ∈ tips, repo.log.refsNow[t.1]? = some t.2) ∧
      (repo.submissions[submission.id]? = some submission ∨
        ∃ e, (planPush host repo.store repo.queues policy submission tips repo.log).1 = .error e)

theorem landPushed_unchanged_iff {host : Host} {repo : Repo} {queue : Str} {submission : Submission}
    {tips : List (ChangeId × CommitId)} {e : CliError}
    (h : (landPushed host repo queue submission tips).1 = .error e) :
    Unchanged repo (landPushed host repo queue submission tips).2 ↔
      PushLeaves host repo queue submission tips := by
  unfold PushLeaves
  unfold landPushed at h ⊢
  cases hreq : pushRequest repo queue submission with
  | error e => simp [Unchanged]
  | ok policy =>
      simp only [hreq, Except.ok.injEq, forall_eq'] at h ⊢
      cases hplan : planPush host repo.store repo.queues policy submission tips
          (recordTips tips repo.log) with
      | mk plan store =>
          cases plan with
          | error e' =>
              -- the tips are refs already, so a refused plan leaves the repository only if they were there before
              simp only [Unchanged, and_true, refsNow_recordTips_eq_iff]
              refine ⟨fun htips => ⟨htips, .inr ⟨e', ?_⟩⟩, fun hleaves => hleaves.1⟩
              rw [← recordTips_eq_self htips]
              exact congrArg Prod.fst hplan
          | ok plan =>
              simp only [hplan, Repo.mutateLocked] at h ⊢
              cases hcommit : commitLanding plan (recordTips tips repo.log) with
              | ok r => simp [Repo.saveSubmission, hcommit, bind, Except.bind, pure, Except.pure] at h
              | error e' =>
                  simp only [Repo.saveSubmission, hcommit, bind, Except.bind, Unchanged,
                    -- a landing that fails behind its plan has saved the submission
                    refsNow_recordTips_eq_iff, BTreeMap.insert_eq_self_iff]
                  refine and_congr_right fun htips => ⟨.inl, fun hstored => ?_⟩
                  refine hstored.resolve_right ?_
                  rintro ⟨e'', hfail⟩
                  rw [← recordTips_eq_self htips, hplan] at hfail
                  cases hfail

/-! ## Backporting -/

/-- Where a backport that fails leaves the refs and the submissions: it saves its submission
    only if that is stored with its certificates already. -/
def BackportLeaves (host : Host) (repo : Repo) (id : SubmissionId) (queue : Str) : Prop :=
  ∀ request, backportRequest host repo id queue = .ok request →
    repo.submissions[request.sub.id]? = some request.sub

theorem cmdBackport_unchanged_iff {host : Host} {repo : Repo} {id : SubmissionId} {queue : Str}
    {e : CliError} (h : (cmdBackport host repo id queue).1 = .error e) :
    Unchanged repo (cmdBackport host repo id queue).2 ↔ BackportLeaves host repo id queue := by
  unfold BackportLeaves
  unfold cmdBackport at h ⊢
  cases hreq : backportRequest host repo id queue with
  | error e => simp [Unchanged]
  | ok request =>
      simp only [hreq, Except.ok.injEq, forall_eq', ← BTreeMap.insert_eq_self_iff] at h ⊢
      split
      · simp [Unchanged, Repo.saveSubmission]
      · rename_i batch hbatch
        simp only [hbatch, Repo.mutateLocked] at h ⊢
        cases hland : landSubmissionInQueue request.sub request.policy
            ⟨batch.carriedValues, batch.validated⟩ request.graph (repo.saveSubmission request.sub).log with
        | ok r => simp [hland, bind, Except.bind, pure, Except.pure] at h
        | error e' => simp [bind, Except.bind, Unchanged, Repo.saveSubmission]

theorem length_certify {host : Host} {store : Store} {registry : QueueRegistry} {refs : Refs}
    {reviewer : Str} {changes : List ChangeId} {s s' : Certified}
    (h : changes.foldlM (certify host store registry refs reviewer) s = .ok s') :
    s'.certificates.length = s.certificates.length + changes.length := by
  induction changes generalizing s with
  | nil =>
      obtain rfl : s = s' := by simpa [pure, Except.pure] using h
      rfl
  | cons change changes ih =>
      rw [List.foldlM_cons] at h
      cases hstep : certify host store registry refs reviewer s change with
      | error e => simp [hstep, bind, Except.bind] at h
      | ok s₁ =>
          simp only [hstep, bind, Except.bind] at h
          have hone : s₁.certificates.length = s.certificates.length + 1 := by
            unfold certify at hstep
            split at hstep
            · cases hstep
            · split at hstep
              · cases hstep
              · rename_i tip _ _ sourceQueue landedTip _
                cases hwitness : carryWitness host store registry refs sourceQueue change landedTip tip with
                | error e => simp [hwitness, bind, Except.bind] at hstep
                | ok witness =>
                    cases htip : addTip (s.graph, s.tips) (change, some tip) with
                    | error e => simp [hwitness, htip, bind, Except.bind] at hstep
                    | ok r =>
                        simp only [hwitness, htip, bind, Except.bind, pure, Except.pure,
                          Except.ok.injEq] at hstep
                        rw [← hstep, List.length_append, List.length_singleton]
          rw [ih h, hone, List.length_cons]
          omega

theorem foldl_addCertificate {sub : Submission} {reviewer : Str} {certificates : List ApprovalCertificate}
    (h : sub.approval = .approved reviewer certificates) (more : List ApprovalCertificate) :
    more.foldl Submission.addCertificate sub =
      { sub with approval := .approved reviewer (certificates ++ more) } := by
  induction more generalizing sub certificates with
  | nil =>
      rw [List.append_nil, ← h]
      rfl
  | cons cert more ih =>
      have hone : sub.addCertificate cert =
          { sub with approval := .approved reviewer (certificates ++ [cert]) } := by
        unfold Submission.addCertificate
        rw [h]
      rw [List.foldl_cons, hone, ih rfl, List.append_assoc]
      rfl

/-- A backport of a submission that is stored under its id leaves it where it has no changes,
    or where the request is refused. -/
theorem backportLeaves_iff {host : Host} {repo : Repo} {queue : Str} {sub : Submission}
    (hstored : repo.submissions[sub.id]? = some sub) :
    BackportLeaves host repo sub.id queue ↔
      sub.changes = [] ∨ ∃ e, backportRequest host repo sub.id queue = .error e := by
  unfold BackportLeaves
  cases hreq : backportRequest host repo sub.id queue with
  | error e => simp
  | ok request =>
      simp only [Except.ok.injEq, forall_eq', reduceCtorEq, exists_false, or_false]
      unfold backportRequest at hreq
      cases hpolicy : liftWork (repo.queues.resolve queue) with
      | error e => simp [hpolicy, bind, Except.bind] at hreq
      | ok policy =>
          simp only [hpolicy, Repo.loadSubmission, hstored, bind, Except.bind] at hreq
          split at hreq
          · rename_i reviewer certificates happroval
            cases hfold : sub.changes.foldlM
                (certify host repo.store repo.queues repo.log.refsNow reviewer) ⟨[], .new, []⟩ with
            | error e => simp [hfold] at hreq
            | ok certified =>
                simp only [hfold, pure, Except.pure, Except.ok.injEq] at hreq
                subst hreq
                have hlength := length_certify hfold
                simp only [foldl_addCertificate happroval, hstored, Option.some.injEq]
                constructor
                · intro heq
                  have hcerts := congrArg Submission.approval heq
                  rw [happroval] at hcerts
                  simp only [Approval.approved.injEq, true_and, List.self_eq_append_right] at hcerts
                  rw [hcerts] at hlength
                  exact List.length_eq_zero_iff.mp (by simpa using hlength.symm)
                · intro hchanges
                  rw [hchanges] at hlength
                  simp only [List.length_eq_zero_iff.mp hlength, List.append_nil, ← happroval]
          · cases hreq

/-! ## Both -/

/-- A push or a backport that fails leaves the refs and every stored submission exactly
    where what it writes before it fails is there already. -/
theorem refused_unchanged_iff (host : Host) (repo : Repo) :
    (∀ queue submission tips, (∃ e, (landPushed host repo queue submission tips).1 = .error e) →
      (Unchanged repo (landPushed host repo queue submission tips).2 ↔
        PushLeaves host repo queue submission tips)) ∧
    ∀ id queue, (∃ e, (cmdBackport host repo id queue).1 = .error e) →
      (Unchanged repo (cmdBackport host repo id queue).2 ↔ BackportLeaves host repo id queue) := by
  refine ⟨fun queue submission tips h => ?_, fun id queue h => ?_⟩
  · obtain ⟨e, he⟩ := h
    exact landPushed_unchanged_iff he
  · obtain ⟨e, he⟩ := h
    exact cmdBackport_unchanged_iff he

/-- A repository with a file its validated queue refuses, landed on the trunk for an approved
    submission. -/
def landedBadRepo : Repo :=
  let tip := (sampleHost.treeId (emptyFiles ["bad".toList])).toText
  { badHeadRepo with
    log := (OpLog.new.setRef "c".toList (some tip) none).setRef "public/c".toList (some tip) none
    submissions := (∅ : BTreeMap SubmissionId Submission).insert "s".toList
      (approvedSubmission "s".toList ["c".toList]) }

/-- The validator refuses a pushed file: its ref is set and the submission is stored. It
    refuses a backported one: the submission has one certificate more. -/
theorem refused_changes :
    (let sub := approvedSubmission "s".toList ["c".toList]
      let tip := (sampleHost.treeId (emptyFiles ["bad".toList])).toText
      let after := landPushed sampleHost badHeadRepo "q".toList sub [("c".toList, tip)]
      after.1.toOption = none ∧
        badHeadRepo.log.refsNow["c".toList]? = none ∧ after.2.log.refsNow["c".toList]? = some tip ∧
        badHeadRepo.submissions["s".toList]? = none ∧ after.2.submissions["s".toList]? = some sub) ∧
    (let before := landedBadRepo
      let after := cmdBackport sampleHost before "s".toList "q".toList
      after.1.toOption = none ∧
        before.submissions["s".toList]? = some (approvedSubmission "s".toList ["c".toList]) ∧
        after.2.submissions["s".toList]? ≠ before.submissions["s".toList]?) := by
  decide +kernel

end Omoplata
