-- SUMMARY: Landings that overlap: their steps as optimistic transactions, and when they are serializable.
import Omoplata.Cli.Kept
import Omoplata.Lib.Optimistic

/-!
# Overlapping landings

Local and pushed landings are transactions on the log over the object store. What a
landing plans on the log it has read is not checked again when it sets the head, so
the head is that of a serial run where no commit overtakes another.
-/

namespace Omoplata

/-! ## Reading a growing store -/

instance : Preorder Store where
  le := Store.Extends
  le_refl := Store.Extends.refl
  le_trans _ _ _ := Store.Extends.trans

/-- A result read off a store stays when the store grows. -/
def Stable {ε α : Type} (f : Store → Except ε α) : Prop :=
  ∀ ⦃store store' : Store⦄ ⦃a : α⦄, store ≤ store' → f store = .ok a → f store' = .ok a

namespace Stable

variable {ε α β : Type}

theorem const (x : Except ε α) : Stable fun _ => x := fun _ _ _ _ h => h

theorem bind {f : Store → Except ε α} {g : α → Store → Except ε β} (hf : Stable f)
    (hg : ∀ a, Stable (g a)) : Stable fun store => f store >>= fun a => g a store := by
  intro store store' b hle h
  cases ha : f store with
  | error e => simp [ha, Bind.bind, Except.bind] at h
  | ok a =>
      simp only [ha, hf hle ha, Bind.bind, Except.bind] at h ⊢
      exact hg a hle h

theorem ite {c : Prop} [Decidable c] {f g : Store → Except ε α} (hf : Stable f) (hg : Stable g) :
    Stable fun store => if c then f store else g store := by
  by_cases hc : c
  · simpa only [hc, if_true] using hf
  · simpa only [hc, if_false] using hg

theorem foldlM {step : Store → β → α → Except ε β} (h : ∀ b a, Stable fun store => step store b a)
    (l : List α) (b : β) : Stable fun store => l.foldlM (step store) b := by
  induction l generalizing b with
  | nil => exact const _
  | cons a l ih =>
      simp only [List.foldlM_cons]
      exact bind (h b a) ih

end Stable

section Reading

variable (host : Host) (registry : QueueRegistry)

theorem stable_checkOut (id : ObjectId) : Stable fun store => checkOut host store id := by
  intro store store' files hle h
  simp only [checkOut] at h ⊢
  cases hread : store.read host.treeId id with
  | error e => simp [hread, Except.mapError] at h
  | ok found => rwa [Store.Extends.read host.treeId hle hread, ← hread]

theorem stable_materializeQueueBase (refs : Refs) (queue : Str) (exclude : Option Str) :
    Stable fun store => materializeQueueBase host store registry refs queue exclude := by
  unfold materializeQueueBase
  refine Stable.foldlM (fun base entry => ?_) _ _
  obtain ⟨name, commit⟩ := entry
  refine .ite (.const _) (.ite (.const _) (.ite (.const _) (.bind (.const _) fun r => ?_)))
  cases r with
  | none => exact .const _
  | some id => exact .bind (stable_checkOut host id) fun files => .const _

theorem stable_materializeTrunk (refs : Refs) (queue : Str) :
    Stable fun store => materializeTrunk host store registry refs queue := by
  unfold materializeTrunk
  cases refs[reconciledRef queue]? with
  | none => exact stable_materializeQueueBase host registry refs queue none
  | some tip =>
      refine .bind (.const _) fun head => ?_
      cases head with
      | none => exact stable_materializeQueueBase host registry refs queue none
      | some id => exact .bind (stable_checkOut host id) fun files => .const _

theorem stable_reconcileChange (log : OpLog) (queue : Str) (s : FoldState) (change : ChangeId) :
    Stable fun store => reconcileChange host store registry log queue s change := by
  unfold reconcileChange
  cases log.refsNow[change]? with
  | none => exact .const _
  | some tip =>
      refine .bind (.const _) fun r => ?_
      cases r with
      | none => exact .const _
      | some id =>
          refine .bind (stable_checkOut host id) fun files => ?_
          cases changeFirstCommitSeq log change with
          | none => exact .const _
          | some seq =>
              exact .bind (stable_materializeTrunk host registry _ queue) fun base => .const _

/-- What a reconciliation finds, without the store it leaves. -/
theorem stable_reconcileCore (log : OpLog) (policy : QueuePolicy) (subs : List Submission) :
    Stable fun store => (reconcileCore host store registry log policy subs).map Prod.fst := by
  -- What follows the fold does not read the store.
  obtain ⟨finish, hcore⟩ : ∃ finish : FoldState → Except CliError Reconciliation, ∀ store,
      (reconcileCore host store registry log policy subs).map Prod.fst =
        materializeTrunk host store registry log.refsNow policy.name >>= fun acc =>
          (subs.flatMap Submission.changes).foldlM
            (reconcileChange host store registry log policy.name) ⟨acc, ∅⟩ >>= finish := by
    refine ⟨fun s => (writeFiles s.acc).elim (.error (.work (.io "out".toList))) fun files =>
      .ok ⟨host.treeId files, s.acc.size, countCarried host s.acc, s.conflicted.toList⟩, ?_⟩
    intro store
    unfold reconcileCore
    cases materializeTrunk host store registry log.refsNow policy.name with
    | error e => rfl
    | ok acc =>
        simp only [bind, Except.bind]
        cases (subs.flatMap Submission.changes).foldlM
            (reconcileChange host store registry log policy.name) ⟨acc, ∅⟩ with
        | error e => rfl
        | ok s =>
            simp only
            cases writeFiles s.acc <;> rfl
  simp only [hcore]
  refine .bind (stable_materializeTrunk host registry _ _) fun acc => ?_
  have hfold := Stable.foldlM (stable_reconcileChange host registry log policy.name)
    (subs.flatMap Submission.changes) ⟨acc, ∅⟩
  exact hfold.bind (g := fun s _ => finish s) fun s => .const _

theorem stable_observeBatchGates (refs : Refs) (queue : Str)
    (subTips : List (SubmissionId × List ObjectId)) (policy : QueuePolicy) :
    Stable fun store => observeBatchGates host store registry refs queue subTips policy := by
  have htip : ∀ submission s tip, Stable fun store => observeTip host store submission s tip :=
    fun submission s tip => .bind (stable_checkOut host tip.1) fun files => .const _
  have hmanifest : ∀ base s sub, Stable fun store => observeManifest host store base s sub :=
    fun base s sub => .bind (Stable.foldlM (htip sub.1) sub.2.zipIdx (s.1, ∅)) fun r => .const _
  unfold observeBatchGates
  refine .bind (stable_materializeQueueBase host registry refs queue none) fun base => ?_
  have hall := Stable.foldlM (hmanifest base) subTips (∅, [])
  refine hall.bind (g := fun s _ => do
    let carriedValues ← observeCarried host s.1
    let validated ← runValidator host policy s.1
    pure (BatchGates.mk s.2 carriedValues validated)) fun s => .const _

/-- What a landing observes stays when the store grows, and observing only grows it. -/
theorem observeLanding_mono {store store' : Store} {log : OpLog} {policy : QueuePolicy}
    {subs : List Submission} {graph : ChangeGraph} {subTips : List (SubmissionId × List ObjectId)}
    {refusal : Reconciliation → Str} {plan : LandingPlan} (hle : store ≤ store')
    (h : (observeLanding host store registry log policy subs graph subTips refusal).1 = .ok plan) :
    (observeLanding host store' registry log policy subs graph subTips refusal).1 = .ok plan := by
  unfold observeLanding at h ⊢
  cases hgates : observeBatchGates host store registry log.refsNow policy.name subTips policy with
  | error e => simp [hgates] at h
  | ok batch =>
      have hgates' := stable_observeBatchGates host registry _ _ _ _ hle hgates
      cases hcore : reconcileCore host store registry log policy subs with
      | error e => simp [hgates, hcore] at h
      | ok r =>
          obtain ⟨rec, grown⟩ := r
          have hcore' := stable_reconcileCore host registry log policy subs hle (a := rec)
            (by simp [hcore, Except.map])
          cases hlarge : reconcileCore host store' registry log policy subs with
          | error e => simp [hlarge, Except.map] at hcore'
          | ok r' =>
              obtain ⟨rec', grown'⟩ := r'
              obtain rfl : rec' = rec := by simpa [hlarge, Except.map] using hcore'
              simp only [hgates, hcore] at h
              simp only [hgates']
              split at h
              · simp at h
              · rename_i hrefused
                rw [if_neg hrefused]
                exact h

theorem le_observeLanding (store : Store) (log : OpLog) (policy : QueuePolicy)
    (subs : List Submission) (graph : ChangeGraph) (subTips : List (SubmissionId × List ObjectId))
    (refusal : Reconciliation → Str) :
    store ≤ (observeLanding host store registry log policy subs graph subTips refusal).2 := by
  unfold observeLanding
  cases observeBatchGates host store registry log.refsNow policy.name subTips policy with
  | error e => exact le_rfl
  | ok batch =>
      cases hcore : reconcileCore host store registry log policy subs with
      | error e => exact le_rfl
      | ok r =>
          have hgrow : store ≤ r.2 := by
            obtain ⟨content, files, -, -, -, hwritten⟩ := reconcileCore_ok hcore
            exact hwritten ▸ Store.extends_write host.treeId store files
          simp only
          split <;> exact hgrow

end Reading

/-! ## Snapshots -/

section Snapshots

variable (treeId : Files → ObjectId) (dirs : WorkingDirs)

/-- What a snapshot records does not depend on the store, which only grows. -/
theorem trySnapshot_eq (log : OpLog) (ws : Workspace) :
    ∃ (log' : OpLog) (grown : Store → Store), (∀ store, store ≤ grown store) ∧
      ∀ store, trySnapshot treeId dirs (store, log) ws = (grown store, log') := by
  have hwrite : ∀ (store : Store) files, store ≤ (store.write treeId files).2 :=
    fun store files => Store.extends_write treeId store files
  unfold trySnapshot
  cases hdir : dirs[ws.workingDir]? with
  | none =>
      exact ⟨log, id, fun _ => le_rfl, fun _ => by
        simp [autoSnapshot, isDirty, snapshot, hdir, bind, Except.bind]⟩
  | some files =>
      obtain ⟨dirty, current, first, hfirst, hdirty⟩ : ∃ dirty current, ∃ first : Store → Store,
          (∀ store, store ≤ first store) ∧ ∀ store,
            isDirty treeId dirs store ws.workingDir log.refsNow[ws.change]? =
              .ok ((dirty, current), first store) := by
        cases htip : log.refsNow[ws.change]? with
        | none =>
            exact ⟨decide ((treeId files).toText ≠ (treeId ∅).toText), (treeId files).toText,
              fun store => ((store.write treeId files).2.write treeId ∅).2,
              fun store => (hwrite _ _).trans (hwrite _ _), fun store => by
                simp only [isDirty, snapshot, hdir, bind, Except.bind, pure, Except.pure]; rfl⟩
        | some tip =>
            exact ⟨decide ((treeId files).toText ≠ tip), (treeId files).toText,
              fun store => (store.write treeId files).2, fun store => hwrite _ _,
              fun store => by
                simp only [isDirty, snapshot, hdir, bind, Except.bind, pure, Except.pure]; rfl⟩
      cases dirty with
      | false =>
          exact ⟨log, first, hfirst, fun store => by
            simp [autoSnapshot, hdirty, bind, Except.bind, pure, Except.pure]⟩
      | true =>
          exact ⟨log.append (.commit ws.name ws.change (treeId files).toText log.refsNow[ws.change]?
              (some ("auto-snapshot workspace ".toList ++ ws.name)))
              (some ("auto-snapshot workspace ".toList ++ ws.name)) nofun,
            fun store => ((first store).write treeId files).2,
            fun store => (hfirst store).trans (hwrite _ _), fun store => by
              simp only [autoSnapshot, hdirty, snapshot, hdir, bind, Except.bind, pure, Except.pure,
                if_true]
              rfl⟩

theorem snapshotChanges_eq (reg : WorkspaceRegistry) (changes : List ChangeId) (log : OpLog) :
    ∃ (log' : OpLog) (grown : Store → Store), (∀ store, store ≤ grown store) ∧
      ∀ store, snapshotChanges treeId dirs reg changes (store, log) = (grown store, log') := by
  unfold snapshotChanges
  induction workspacesOf reg changes generalizing log with
  | nil => exact ⟨log, id, fun _ => le_rfl, fun _ => rfl⟩
  | cons ws workspaces ih =>
      obtain ⟨log₁, first, hfirst, heq₁⟩ := trySnapshot_eq treeId dirs log ws
      obtain ⟨log', rest, hrest, heq⟩ := ih log₁
      refine ⟨log', rest ∘ first, fun store => (hfirst store).trans (hrest _), fun store => ?_⟩
      rw [List.foldl_cons, heq₁, heq]
      rfl

end Snapshots

/-! ## Landings -/

/-- A landing whose request has been checked. -/
inductive Landing where
  | submitted (subs : List Submission)
  | pushed (submission : Submission) (tips : List (ChangeId × CommitId))

namespace Landing

section

variable (host : Host) (repo : Repo) (policy : QueuePolicy)

/-- The first locked section: snapshot the workspaces, or record the tips. -/
def enter (store : Store) (log : OpLog) : Landing → Store × OpLog
  | .submitted subs =>
      snapshotChanges host.treeId repo.dirs repo.workspaces (subs.flatMap Submission.changes) (store, log)
  | .pushed _ tips => (store, recordTips tips log)

/-- Observe the gates and reconcile, on the log that was read. -/
def plan (store : Store) (log : OpLog) : Landing → Except CliError LandingPlan × Store
  | .submitted subs => planLanding host store repo.queues policy subs log
  | .pushed submission tips => planPush host store repo.queues policy submission tips log

theorem enter_eq (landing : Landing) (log : OpLog) :
    ∃ (log' : OpLog) (grown : Store → Store), (∀ store, store ≤ grown store) ∧
      ∀ store, landing.enter host repo store log = (grown store, log') := by
  cases landing with
  | submitted subs => exact snapshotChanges_eq host.treeId repo.dirs repo.workspaces _ log
  | pushed submission tips => exact ⟨recordTips tips log, id, fun _ => le_rfl, fun _ => rfl⟩

theorem plan_mono (landing : Landing) {store store' : Store} {log : OpLog} {plan : LandingPlan}
    (hle : store ≤ store') (h : (landing.plan host repo policy store log).1 = .ok plan) :
    (landing.plan host repo policy store' log).1 = .ok plan := by
  cases landing with
  | submitted subs =>
      simp only [Landing.plan, planLanding] at h ⊢
      cases htips : readTips log.refsNow subs with
      | error e => simp [htips] at h
      | ok r =>
          simp only [htips] at h ⊢
          exact observeLanding_mono host repo.queues hle h
  | pushed submission tips =>
      simp only [Landing.plan, planPush] at h ⊢
      cases htips : (tips.map fun t => (t.1, some t.2)).foldlM addTip (ChangeGraph.new, []) with
      | error e => simp [htips] at h
      | ok r =>
          simp only [htips] at h ⊢
          exact observeLanding_mono host repo.queues hle h

theorem le_plan (landing : Landing) (store : Store) (log : OpLog) :
    store ≤ (landing.plan host repo policy store log).2 := by
  cases landing with
  | submitted subs =>
      simp only [Landing.plan, planLanding]
      cases readTips log.refsNow subs with
      | error e => exact le_rfl
      | ok r => exact le_observeLanding host repo.queues _ _ _ _ _ _ _
  | pushed submission tips =>
      simp only [Landing.plan, planPush]
      cases (tips.map fun t => (t.1, some t.2)).foldlM addTip (ChangeGraph.new, []) with
      | error e => exact le_rfl
      | ok r => exact le_observeLanding host repo.queues _ _ _ _ _ _ _

/-- A landing as a transaction on the log, over the store. -/
def transaction (landing : Landing) : Transaction Store OpLog LandingPlan where
  enter store log := landing.enter host repo store log
  plan store log := ((landing.plan host repo policy store log).1.toOption,
    (landing.plan host repo policy store log).2)
  commit plan log := (commitLanding plan log).toOption.map Prod.snd
  enter_congr store store' log := by
    obtain ⟨log', grown, -, heq⟩ := landing.enter_eq host repo log
    rw [heq, heq]
  le_enter store log := by
    obtain ⟨log', grown, hgrow, heq⟩ := landing.enter_eq host repo log
    rw [heq]
    exact hgrow store
  le_plan store log := landing.le_plan host repo policy store log
  plan_mono hle h := by
    simp only [Codec.toOption_eq_some] at h ⊢
    exact landing.plan_mono host repo policy hle h

/-- What a command leaves of the store and the log, if it succeeds. -/
def outcome {α : Type} (r : Except CliError α × Repo) : Option (Store × OpLog) :=
  r.1.toOption.map fun _ => (r.2.store, r.2.log)

/-- `omo land` is the transaction of its submissions. -/
theorem run_submitted {ids : List SubmissionId} {queue : Str} {subs : List Submission}
    (hreq : landRequest repo ids queue = .ok (policy, subs)) :
    ((submitted subs).transaction host repo policy).run (repo.store, repo.log) =
      outcome (cmdLand host repo ids queue) := by
  unfold Transaction.run cmdLand
  simp only [hreq, transaction, Landing.enter, Landing.plan, Repo.snapshotSection]
  generalize snapshotChanges host.treeId repo.dirs repo.workspaces
    (subs.flatMap Submission.changes) (repo.store, repo.log) = entered
  cases hplan : planLanding host entered.1 repo.queues policy subs entered.2 with
  | mk made store =>
      cases made with
      | error e => rfl
      | ok plan =>
          simp only [Except.toOption, Repo.mutateLocked]
          cases commitLanding plan entered.2 <;> rfl

/-- A pushed landing is the transaction of its submission and tips. -/
theorem run_pushed {queue : Str} {submission : Submission} {tips : List (ChangeId × CommitId)}
    (hreq : pushRequest repo queue submission = .ok policy) :
    ((pushed submission tips).transaction host repo policy).run (repo.store, repo.log) =
      outcome (landPushed host repo queue submission tips) := by
  unfold Transaction.run landPushed
  simp only [hreq, transaction, Landing.enter, Landing.plan]
  cases hplan : planPush host repo.store repo.queues policy submission tips
      (recordTips tips repo.log) with
  | mk made store =>
      cases made with
      | error e => rfl
      | ok plan =>
          simp only [Except.toOption, Repo.mutateLocked, Repo.saveSubmission]
          cases commitLanding plan (recordTips tips repo.log) <;> rfl

end

end Landing

namespace Landing

def subs : Landing → List Submission
  | .submitted subs => subs
  | .pushed submission _ => [submission]

/-- A landing that does not set the head of a queue in its first section: no workspace edits a
    change of this name, and no tip is pushed under it. -/
def SparesHead (repo : Repo) (queue : Str) : Landing → Prop
  | .submitted _ => ∀ ws ∈ repo.workspaces.workspaces, ws.change ≠ reconciledRef queue
  | .pushed _ tips => ∀ t ∈ tips, t.1 ≠ reconciledRef queue

section

variable {host : Host} {repo : Repo} {policy : QueuePolicy} {landing : Landing} {path : Str} {x : Line}

theorem enter_head (h : landing.SparesHead repo policy.name) (store : Store) (log : OpLog) :
    (landing.enter host repo store log).2.refsNow[reconciledRef policy.name]? =
      log.refsNow[reconciledRef policy.name]? := by
  cases landing with
  | submitted subs =>
      refine foldl_trySnapshot_refs host.treeId repo.dirs fun ws hws hchange => ?_
      obtain ⟨c, -, hin⟩ := List.mem_flatMap.mp hws
      exact absurd hchange (h ws (List.mem_filter.mp hin).1)
  | pushed submission tips => exact refsNow_recordTips h log

/-- What a landing has planned is what it reconciles. -/
theorem plan_reconciled {store : Store} {log : OpLog} {plan : LandingPlan}
    (h : (landing.plan host repo policy store log).1 = .ok plan) :
    plan.policy = policy ∧ reconcileCore host store repo.queues log policy landing.subs =
      .ok (plan.reconciled, (landing.plan host repo policy store log).2) := by
  have hobserved : ∀ {graph subTips refusal},
      (observeLanding host store repo.queues log policy landing.subs graph subTips refusal).1 = .ok plan →
      plan.policy = policy ∧ reconcileCore host store repo.queues log policy landing.subs = .ok (plan.reconciled,
        (observeLanding host store repo.queues log policy landing.subs graph subTips refusal).2) := by
    intro graph subTips refusal hmade
    obtain ⟨hpolicy, -, -, -, hcore, -⟩ := observeLanding_ok (Prod.ext hmade rfl)
    exact ⟨hpolicy, hcore⟩
  cases landing with
  | submitted subs =>
      simp only [Landing.plan, planLanding] at h ⊢
      cases htips : readTips log.refsNow subs with
      | error e => simp [htips] at h
      | ok r =>
          simp only [htips] at h ⊢
          exact hobserved h
  | pushed submission tips =>
      simp only [Landing.plan, planPush] at h ⊢
      cases htips : (tips.map fun t => (t.1, some t.2)).foldlM addTip (ChangeGraph.new, []) with
      | error e => simp [htips] at h
      | ok r =>
          simp only [htips] at h ⊢
          exact hobserved h

/-- A commit leaves the lines of the head that the landing has read, and those that it adds. -/
theorem commit_keeps {made store : Store} {log log' : OpLog} {plan : LandingPlan} {results : List LandResult}
    (hplan : (landing.plan host repo policy made log).1 = .ok plan)
    (hle : (landing.plan host repo policy made log).2 ≤ store) (hcommit : commitLanding plan log = .ok (results, log'))
    (hspares : SparesLine host repo.queues policy.name store log landing.subs path x)
    (hcontrol : isControlPath path = false)
    (h : InHead host store log.refsNow policy.name path x ∨
      AddsLine host repo.queues policy.name store log landing.subs path x) :
    InHead host store log'.refsNow policy.name path x := by
  obtain ⟨rfl, hmade⟩ := plan_reconciled hplan
  -- The landing would reconcile to the same on the store as it is now.
  have hcore := stable_reconcileCore host repo.queues log plan.policy landing.subs
    ((landing.le_plan host repo plan.policy made log).trans hle) (a := plan.reconciled) (by simp [hmade, Except.map])
  obtain ⟨⟨rec, store'⟩, hcore, rfl⟩ := Codec.map_eq_ok.mp hcore
  obtain ⟨files, hid, hx, hfound⟩ := reconcileCore_keeps hcore hspares hcontrol h
  -- What it has stored is still there.
  have hstored : ∃ found, store.trees[plan.reconciled.tip.toText]? = some found := by
    obtain ⟨s, written, -, -, hrec, hgrown⟩ := reconcileCore_ok_iff.mp hmade
    obtain ⟨found, hget⟩ := Store.exists_getElem?_write host.treeId made written
    rw [hrec]
    exact ⟨found, hle _ _ (hgrown ▸ hget)⟩
  obtain ⟨found, hget⟩ := hstored
  obtain rfl := hfound found hget
  refine ⟨plan.reconciled.tip, found, (commitLanding_ok hcommit).2.2.1, ?_, hx⟩
  unfold checkOut Store.read
  simp only [hget, hid, if_true]
  rfl

end

end Landing

section

variable {host : Host} {repo : Repo} {policy : QueuePolicy} {ι : Type} [DecidableEq ι] {landings : ι → Landing}
  {path : Str} {x : Line}

/-- The landings as transactions on one queue. -/
def transactions (host : Host) (repo : Repo) (policy : QueuePolicy) (landings : ι → Landing) (i : ι) :
    Transaction Store OpLog LandingPlan :=
  (landings i).transaction host repo policy

theorem InHead.mono {store store' : Store} {refs refs' : Refs} (h : InHead host store refs policy.name path x)
    (hle : store ≤ store') (hrefs : refs'[reconciledRef policy.name]? = refs[reconciledRef policy.name]?) :
    InHead host store' refs' policy.name path x := by
  obtain ⟨tip, files, hhead, hfiles, hx⟩ := h
  exact ⟨tip, files, hrefs.trans hhead, stable_checkOut host tip hle hfiles, hx⟩

/-- The landing that commits at a state spares a line of the head. -/
def SparesAt (host : Host) (repo : Repo) (policy : QueuePolicy) (landings : ι → Landing) (path : Str) (x : Line)
    (s : System Store OpLog LandingPlan ι) (i : ι) (seen : OpLog) : Prop :=
  SparesLine host repo.queues policy.name s.resource seen (landings i).subs path x

/-- The landing that commits at a state adds a line to the head. -/
def AddsAt (host : Host) (repo : Repo) (policy : QueuePolicy) (landings : ι → Landing) (path : Str) (x : Line)
    (s : System Store OpLog LandingPlan ι) (i : ι) (seen : OpLog) : Prop :=
  AddsLine host repo.queues policy.name s.resource seen (landings i).subs path x

omit [DecidableEq ι] in
/-- A commit that overtakes none leaves the lines of the head, and those that its landing adds. -/
theorem step_commit_keeps {s : System Store OpLog LandingPlan ι} {i : ι} {seen : OpLog} {plan : LandingPlan}
    (hs : s.Serializable (transactions host repo policy landings) repo.log)
    (hok : s.Undisturbed (transactions host repo policy landings) i) (hplanned : s.progress i = .planned seen plan)
    (hspares : SparesAt host repo policy landings path x s i seen) (hcontrol : isControlPath path = false)
    (h : InHead host s.resource s.shared.refsNow policy.name path x ∨
      AddsAt host repo policy landings path x s i seen) {log' : OpLog}
    (hcommit : (transactions host repo policy landings i).commit plan s.shared = some log') :
    InHead host s.resource log'.refsNow policy.name path x := by
  obtain ⟨hshared, -⟩ := hok seen plan hplanned
  obtain ⟨made, hmade, hle⟩ := hs.plan_eq i seen plan hplanned
  rw [hshared] at hcommit h
  obtain ⟨⟨results, log''⟩, hcommitted, rfl⟩ := Option.map_eq_some_iff.mp hcommit
  exact Landing.commit_keeps (Codec.toOption_eq_some.mp hmade) hle (Codec.toOption_eq_some.mp hcommitted)
    hspares hcontrol h

/-- A step leaves the lines of the head, if what commits spares them. -/
theorem step_keeps_line {s : System Store OpLog LandingPlan ι} {i : ι}
    (hs : s.Serializable (transactions host repo policy landings) repo.log)
    (hok : s.Undisturbed (transactions host repo policy landings) i)
    (hspares : ∀ seen plan, s.progress i = .planned seen plan → SparesAt host repo policy landings path x s i seen)
    (hcontrol : isControlPath path = false) (hhead : (landings i).SparesHead repo policy.name)
    (h : InHead host s.resource s.shared.refsNow policy.name path x) :
    InHead host (s.step (transactions host repo policy landings) i).resource
      (s.step (transactions host repo policy landings) i).shared.refsNow policy.name path x := by
  unfold System.step
  cases hi : s.progress i with
  | ready =>
      exact h.mono ((transactions host repo policy landings i).le_enter _ _) (Landing.enter_head hhead _ _)
  | entered => exact h
  -- a plan only adds to the store
  | read seen =>
      have hgrow := (transactions host repo policy landings i).le_plan s.resource seen
      cases hplan : (transactions host repo policy landings i).plan s.resource seen with
      | mk made store =>
          simp only [hplan] at hgrow ⊢
          cases made with
          | none => exact h.mono hgrow rfl
          | some plan => exact h.mono hgrow rfl
  | planned seen plan =>
      cases hcommit : (transactions host repo policy landings i).commit plan s.shared with
      | none =>
          simp only [hcommit]
          exact h
      | some log' =>
          simp only [hcommit]
          -- the one step that moves the head
          exact step_commit_keeps hs hok hi (hspares seen plan hi) hcontrol (.inl h) hcommit
  | done => exact h
  | failed => exact h

end

/-- A repository with the changes `a` and `b`, each a tree with one file. -/
def twoChanges : Repo :=
  { emptyRepo with
    store := ((emptyRepo.store.write sampleHost.treeId (emptyFiles ["a".toList])).2.write
      sampleHost.treeId (emptyFiles ["bb".toList])).2
    log := ((OpLog.new.setRef "a".toList (some (sampleHost.treeId (emptyFiles ["a".toList])).toText) none).setRef
      "b".toList (some (sampleHost.treeId (emptyFiles ["bb".toList])).toText) none) }

/-- One landing for each change. -/
def twoLandings (i : Fin 2) : Transaction Store OpLog LandingPlan :=
  (Landing.submitted [approvedSubmission "s".toList [if i = 0 then "a".toList else "b".toList]]).transaction
    sampleHost twoChanges .trunk

/-- A directory with one file. -/
def oneFile (path text : Str) : Files := (∅ : Files).insert path (.text text)

/-- A repository with the changes `a` and `b`, begun on an empty trunk, each with one line in a
    file of its own. -/
def twoEdits : Repo :=
  { emptyRepo with
    store := ((emptyRepo.store.write sampleHost.treeId (oneFile "a".toList "x".toList)).2.write
      sampleHost.treeId (oneFile "bb".toList "y".toList)).2
    log := (OpLog.new.append (.commit "v".toList "a".toList
      (sampleHost.treeId (oneFile "a".toList "x".toList)).toText none none) none nofun).append (.commit "w".toList
        "b".toList (sampleHost.treeId (oneFile "bb".toList "y".toList)).toText none none) none nofun }

/-- One landing for each change. -/
def landingOf (i : Fin 2) : Landing :=
  .submitted [approvedSubmission "s".toList [if i = 0 then "a".toList else "b".toList]]

end Omoplata
