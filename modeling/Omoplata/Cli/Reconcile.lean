-- SUMMARY: The fold of a reconciliation, the reconcile command, and when each operation gets past its gates.
import Omoplata.Cli.Push

/-!
# Reconciling

A reconciliation folds the changes of submissions onto the content of a queue and
stores the result. Landing and pushing do it between their two sections, the
reconcile command by itself.
-/

namespace Omoplata

/-- The merged content and the conflicted paths of a reconciliation. -/
def reconcileFold (host : Host) (store : Store) (registry : QueueRegistry) (log : OpLog)
    (queue : Str) (subs : List Submission) : Except CliError FoldState := do
  let acc ← materializeTrunk host store registry log.refsNow queue
  (subs.flatMap Submission.changes).foldlM (reconcileChange host store registry log queue) ⟨acc, ∅⟩

/-- What a reconciliation reports of its fold. -/
def FoldState.report (host : Host) (s : FoldState) (tip : ObjectId) : Reconciliation :=
  ⟨tip, s.acc.size, countCarried host s.acc, s.conflicted.toList⟩

theorem reconcileCore_ok_iff {host : Host} {store store' : Store} {registry : QueueRegistry}
    {log : OpLog} {policy : QueuePolicy} {subs : List Submission} {rec : Reconciliation} :
    reconcileCore host store registry log policy subs = .ok (rec, store') ↔
      ∃ s files, reconcileFold host store registry log policy.name subs = .ok s ∧
        writeFiles s.acc = some files ∧ rec = s.report host (host.treeId files) ∧
        store' = (store.write host.treeId files).2 := by
  unfold reconcileCore reconcileFold FoldState.report
  cases hacc : materializeTrunk host store registry log.refsNow policy.name with
  | error e => simp [bind, Except.bind]
  | ok acc =>
      simp only [bind, Except.bind]
      cases hfold : (subs.flatMap Submission.changes).foldlM
          (reconcileChange host store registry log policy.name) ⟨acc, ∅⟩ with
      | error e => simp
      | ok s =>
          cases hfiles : writeFiles s.acc with
          | none => simp [hfiles]
          | some files =>
              simp only [hfiles, pure, Except.pure, Store.write, Except.ok.injEq, Prod.mk.injEq]
              constructor
              · rintro ⟨hrec, hstore⟩
                exact ⟨s, files, rfl, hfiles, hrec.symm, hstore.symm⟩
              · rintro ⟨s', files', rfl, hfiles', hrec, hstore⟩
                obtain rfl : files = files' := Option.some.inj (hfiles.symm.trans hfiles')
                exact ⟨hrec.symm, hstore.symm⟩

/-! ## The files of one change -/

/-- The driver's merge of one file of a change. -/
def mergeFile (host : Host) (base acc : TextFiles) (path version : Str) :
    Except DriverError DriverOutput :=
  selectDriver host.tools path ⟨base.textAt path, acc.textAt path, version, path⟩

theorem reconcileFile_ok {host : Host} {base : TextFiles} {s s' : FoldState} {path version : Str}
    (h : reconcileFile host base s path version = .ok s') :
    ∃ out, mergeFile host base s.acc path version = .ok out ∧ s'.acc = s.acc.insert path out.merged ∧
      ∀ p, p ∈ s'.conflicted ↔ p ∈ s.conflicted ∨ path = p ∧ out.conflicts ≠ [] := by
  unfold reconcileFile at h
  unfold mergeFile
  cases hout : selectDriver host.tools path ⟨base.textAt path, s.acc.textAt path, version, path⟩ with
  | error e => simp [hout, Except.mapError, bind, Except.bind] at h
  | ok out =>
      simp only [hout, Except.mapError, bind, Except.bind, pure, Except.pure, Except.ok.injEq] at h
      subst h
      refine ⟨out, rfl, rfl, fun p => ?_⟩
      cases hconflicts : out.conflicts with
      | nil => simp
      | cons c cs =>
          simp only [List.isEmpty_cons, Bool.false_eq_true, if_false, Std.ExtTreeSet.mem_insert,
            Std.compare_eq_iff_eq, ne_eq, reduceCtorEq, not_false_eq_true, and_true]
          exact or_comm

theorem textAt_insert_of_ne {files : TextFiles} {path p text : Str} (h : path ≠ p) :
    TextFiles.textAt (files.insert path text) p = files.textAt p := by
  unfold TextFiles.textAt
  rw [BTreeMap.getElem?_insert, if_neg h]

/-- The loop over the files of a change: each is merged once, with what the loop started
    from, and the other files stay. -/
theorem reconcileFiles_ok {host : Host} {base versions : TextFiles} {s s' : FoldState}
    (h : versions.toList.foldlM (fun s (path, version) => reconcileFile host base s path version) s =
      .ok s') (p : Str) :
    match versions[p]? with
    | none => s'.acc[p]? = s.acc[p]? ∧ (p ∈ s'.conflicted ↔ p ∈ s.conflicted)
    | some version => ∃ out, mergeFile host base s.acc p version = .ok out ∧
        s'.acc[p]? = some out.merged ∧ (p ∈ s'.conflicted ↔ p ∈ s.conflicted ∨ out.conflicts ≠ []) := by
  have hloop : ∀ (entries : List (Str × Str)) (s : FoldState),
      entries.Pairwise (fun e f => e.1 ≠ f.1) →
      entries.foldlM (fun s (path, version) => reconcileFile host base s path version) s = .ok s' →
      ((∀ e ∈ entries, e.1 ≠ p) → s'.acc[p]? = s.acc[p]? ∧ (p ∈ s'.conflicted ↔ p ∈ s.conflicted)) ∧
      ∀ version, (p, version) ∈ entries → ∃ out, mergeFile host base s.acc p version = .ok out ∧
        s'.acc[p]? = some out.merged ∧ (p ∈ s'.conflicted ↔ p ∈ s.conflicted ∨ out.conflicts ≠ []) := by
    intro entries
    induction entries with
    | nil =>
        intro s _ hs
        obtain rfl : s = s' := by simpa [pure, Except.pure] using hs
        simp
    | cons e entries ih =>
        intro s hdistinct hs
        obtain ⟨hhead, htail⟩ := List.pairwise_cons.mp hdistinct
        rw [List.foldlM_cons] at hs
        cases hstep : reconcileFile host base s e.1 e.2 with
        | error err => simp [hstep, bind, Except.bind] at hs
        | ok s₁ =>
            simp only [hstep, bind, Except.bind] at hs
            obtain ⟨hother, hmerged⟩ := ih s₁ htail hs
            obtain ⟨out, hout, hacc, hconflicted⟩ := reconcileFile_ok hstep
            constructor
            · intro hnot
              obtain ⟨hsame, hset⟩ := hother fun f hf => hnot f (List.mem_cons_of_mem _ hf)
              have hne : e.1 ≠ p := hnot e List.mem_cons_self
              refine ⟨by rw [hsame, hacc, BTreeMap.getElem?_insert, if_neg hne], ?_⟩
              rw [hset, hconflicted p]
              simp [hne]
            · intro version hmem
              rcases List.mem_cons.mp hmem with rfl | hin
              · -- The entries still to come have other paths.
                obtain ⟨hsame, hset⟩ := hother fun f hf => (hhead f hf).symm
                refine ⟨out, hout, by rw [hsame, hacc, BTreeMap.getElem?_insert, if_pos rfl], ?_⟩
                rw [hset, hconflicted]
                simp
              · have hne : e.1 ≠ p := hhead _ hin
                obtain ⟨out', hout', hset, hconf⟩ := hmerged version hin
                refine ⟨out', ?_, hset, ?_⟩
                · unfold mergeFile at hout' ⊢
                  rwa [hacc, textAt_insert_of_ne hne] at hout'
                · rw [hconf, hconflicted p]
                  simp [hne]
  have hdistinct : versions.toList.Pairwise fun e f => e.1 ≠ f.1 :=
    versions.distinct_keys_toList.imp fun hne heq => hne (Std.compare_eq_iff_eq.mpr heq)
  obtain ⟨hother, hmerged⟩ := hloop versions.toList s hdistinct h
  cases hp : versions[p]? with
  | none =>
      refine hother fun e he heq => ?_
      have hmem := Std.ExtTreeMap.mem_toList_iff_getElem?_eq_some.mp (show (e.1, e.2) ∈ versions.toList from he)
      rw [heq, hp] at hmem
      cases hmem
  | some version => exact hmerged version (Std.ExtTreeMap.mem_toList_iff_getElem?_eq_some.mpr hp)

/-- The loop goes through where every merge does. -/
theorem reconcileFiles_isOk {host : Host} {base versions : TextFiles} {s : FoldState}
    (h : ∀ p version, versions[p]? = some version → ∃ out, mergeFile host base s.acc p version = .ok out) :
    ∃ s', versions.toList.foldlM (fun s (path, version) => reconcileFile host base s path version) s =
      .ok s' := by
  have hloop : ∀ (entries : List (Str × Str)) (s : FoldState),
      entries.Pairwise (fun e f => e.1 ≠ f.1) →
      (∀ e ∈ entries, ∃ out, mergeFile host base s.acc e.1 e.2 = .ok out) →
      ∃ s', entries.foldlM (fun s (path, version) => reconcileFile host base s path version) s = .ok s' := by
    intro entries
    induction entries with
    | nil => exact fun s _ _ => ⟨s, rfl⟩
    | cons e entries ih =>
        intro s hdistinct hok
        obtain ⟨hhead, htail⟩ := List.pairwise_cons.mp hdistinct
        obtain ⟨out, hout⟩ := hok e List.mem_cons_self
        rw [List.foldlM_cons]
        unfold mergeFile at hout
        simp only [reconcileFile, hout, Except.mapError, bind, Except.bind, pure, Except.pure]
        refine ih _ htail fun f hf => ?_
        obtain ⟨out', hout'⟩ := hok f (List.mem_cons_of_mem _ hf)
        refine ⟨out', ?_⟩
        unfold mergeFile at hout' ⊢
        dsimp only
        rw [textAt_insert_of_ne (hhead f hf)]
        exact hout'
  refine hloop versions.toList s ?_ fun e he => ?_
  · exact versions.distinct_keys_toList.imp fun hne heq => hne (Std.compare_eq_iff_eq.mpr heq)
  · exact h e.1 e.2 (Std.ExtTreeMap.mem_toList_iff_getElem?_eq_some.mp he)

/-- Where every merge takes the change's text without a conflict, the loop lays the texts
    over the content. -/
theorem reconcileFiles_takes {host : Host} {base versions : TextFiles} {s : FoldState}
    (h : ∀ path version, versions[path]? = some version →
      ∃ out, mergeFile host base s.acc path version = .ok out ∧ out.merged = version ∧
        out.conflicts = []) :
    ∃ s', versions.toList.foldlM (fun s (path, version) => reconcileFile host base s path version) s =
        .ok s' ∧
      (∀ p : Str, s'.acc[p]? = (versions[p]?).or s.acc[p]?) ∧ s'.conflicted = s.conflicted := by
  obtain ⟨s', hs⟩ := @reconcileFiles_isOk host base versions s fun path version hversion => by
    obtain ⟨out, hout, -, -⟩ := h path version hversion
    exact ⟨out, hout⟩
  have hpath : ∀ p : Str, s'.acc[p]? = (versions[p]?).or s.acc[p]? ∧
      (p ∈ s'.conflicted ↔ p ∈ s.conflicted) := by
    intro p
    have hloop := reconcileFiles_ok hs p
    cases hversion : versions[p]? with
    | none =>
        simp only [hversion] at hloop
        exact hloop
    | some version =>
        simp only [hversion] at hloop
        obtain ⟨out, hout, hset, hconf⟩ := hloop
        obtain ⟨out', hout', hmerged, hclean⟩ := h p version hversion
        obtain rfl : out' = out := Except.ok.inj (hout'.symm.trans hout)
        exact ⟨by rw [hset, hmerged]; rfl, by simpa [hclean] using hconf⟩
  exact ⟨s', hs, fun p => (hpath p).1, Std.ExtTreeSet.ext_mem fun p => (hpath p).2⟩

/-! ## The command -/

/-- Resolve the queue and load the submissions. -/
def reconcileRequest (repo : Repo) (ids : List SubmissionId) (queue : Str) :
    Except CliError (QueuePolicy × List Submission) := do
  let policy ← liftWork (repo.queues.resolve queue)
  let subs ← ids.mapM repo.loadSubmission
  pure (policy, subs)

def reconcileRefusedText (policy : QueuePolicy) (rec : Reconciliation) : Str :=
  joinTexts ["queue ".toList, policy.name, " refuses carried conflict values (".toList,
    Nat.toDigits 10 rec.carried, " present after reconciliation); ".toList,
    "reconcile against a permissive queue or resolve the conflicts first".toList]

/-- `omo reconcile`. The reconciled tree is stored also where it is refused. -/
def cmdReconcile (host : Host) (repo : Repo) (ids : List SubmissionId) (queue : Str) :
    Except CliError Reconciliation × Repo :=
  match reconcileRequest repo ids queue with
  | .error e => (.error e, repo)
  | .ok (policy, subs) =>
      match reconcileCore host repo.store repo.queues repo.log policy subs with
      | .error e => (.error e, repo)
      | .ok (rec, store) =>
          let repo := { repo with store := store }
          if rec.carried > 0 && !policy.allowCarried then
            (.error (.bail (reconcileRefusedText policy rec)), repo)
          else repo.mutateLocked fun log =>
            pure (rec, writeReconciledHead log policy.name rec.tip)

/-! ## Past the gates -/

/-- Changes that the graph knows all land. -/
theorem landChanges_isOk {policy : QueuePolicy} {ids : List ChangeId} {g : ChangeGraph}
    (h : ∀ c ∈ ids, (g.change c).isSome) (log : OpLog) (landed : List ChangeId) :
    ∃ r, landChanges policy ids g log landed = .ok r := by
  induction ids generalizing g log landed with
  | nil => exact ⟨_, rfl⟩
  | cons id ids ih =>
      obtain ⟨change, hchange⟩ := Option.isSome_iff_exists.mp (h id (by simp))
      obtain ⟨g', hg'⟩ := publishChange_isOk hchange
      unfold landChanges
      simp only [hchange, hg', bind, Except.bind]
      refine ih (fun c hc => ?_) _ _
      rw [(publishChange_ok hg' c).2]
      exact h c (List.mem_cons_of_mem _ hc)

theorem landSubmissionInQueue_isOk {submission : Submission} {policy : QueuePolicy}
    {gates : QueueGates} {g : ChangeGraph} (hpass : GatesPass policy gates submission)
    (hknown : ∀ c ∈ submission.changes, (g.change c).isSome) (log : OpLog) :
    ∃ r, landSubmissionInQueue submission policy gates g log = .ok r := by
  obtain ⟨⟨landed, g', log'⟩, hland⟩ :
      ∃ r, landChanges policy submission.changes g log [] = .ok r := landChanges_isOk hknown log []
  obtain ⟨happroved, hcarried, hvalidated⟩ := gatesPass_iff.mp hpass
  unfold landSubmissionInQueue
  simp only [happroved, hcarried, hvalidated, Bool.false_eq_true, if_false, hland, bind, Except.bind]
  exact ⟨_, rfl⟩

/-- Submissions all land where each passes the gates and the graph knows its changes. -/
theorem landAll_isOk_iff {policy : QueuePolicy} {gates : QueueGates} {subs : List Submission}
    {g : ChangeGraph} {log : OpLog} {out : List LandResult} :
    (∃ r, landAll policy gates subs g log out = .ok r) ↔
      ∀ sub ∈ subs, GatesPass policy gates sub ∧ ∀ c ∈ sub.changes, (g.change c).isSome := by
  constructor
  · rintro ⟨⟨out', g', log'⟩, h⟩ sub hsub
    obtain ⟨hpass, hset, -⟩ := landAll_ok h
    exact ⟨hpass sub hsub, fun c hc => (hset sub hsub c hc).1⟩
  · intro h
    induction subs generalizing g log out with
    | nil => exact ⟨_, rfl⟩
    | cons sub subs ih =>
        obtain ⟨hpass, hknown⟩ := h sub (by simp)
        obtain ⟨⟨result, g₁, log₁⟩, hland⟩ := landSubmissionInQueue_isOk hpass hknown log
        obtain ⟨-, landed, hchanges⟩ := landSubmissionInQueue_ok hland
        unfold landAll
        simp only [hland, bind, Except.bind]
        refine ih fun sub' hsub' => ?_
        obtain ⟨hpass', hknown'⟩ := h sub' (List.mem_cons_of_mem _ hsub')
        refine ⟨hpass', fun c hc => ?_⟩
        rw [((landChanges_ok hchanges).1 c).2]
        exact hknown' c hc

theorem commitLanding_isOk_iff {plan : LandingPlan} {log : OpLog} :
    (∃ r, commitLanding plan log = .ok r) ↔
      ∀ sub ∈ plan.subs, GatesPass plan.policy plan.gates sub ∧
        ∀ c ∈ sub.changes, (plan.graph.change c).isSome := by
  refine Iff.trans ?_ (@landAll_isOk_iff plan.policy plan.gates plan.subs plan.graph log [])
  unfold commitLanding
  cases landAll plan.policy plan.gates plan.subs plan.graph log [] with
  | error e => simp [bind, Except.bind]
  | ok r => simp [bind, Except.bind, pure, Except.pure]

/-- The gates of a landing let it through, what the reconciliation carries apart: the facts
    about its tips can be observed, every submission passes on them, and the graph knows
    its changes. -/
def GatesLet (host : Host) (store : Store) (registry : QueueRegistry) (refs : Refs)
    (policy : QueuePolicy) (subs : List Submission) (graph : ChangeGraph)
    (subTips : List (SubmissionId × List ObjectId)) : Prop :=
  ∃ batch, observeBatchGates host store registry refs policy.name subTips policy = .ok batch ∧
    ∀ sub ∈ subs, GatesPass policy ⟨batch.carriedValues, batch.validated⟩ sub ∧
      ∀ c ∈ sub.changes, (graph.change c).isSome

/-- A plan is made and committed on a strict queue exactly where the gates let it through
    and the reconciled content counts no conflict value. -/
theorem observeLanding_commit_iff {host : Host} {store : Store} {registry : QueueRegistry}
    {log : OpLog} {policy : QueuePolicy} {subs : List Submission} {graph : ChangeGraph}
    {subTips : List (SubmissionId × List ObjectId)} {refusal : Reconciliation → Str}
    (hstrict : policy.allowCarried = false) :
    (∃ plan store', observeLanding host store registry log policy subs graph subTips refusal =
        (.ok plan, store') ∧ ∃ r, commitLanding plan log = .ok r) ↔
      GatesLet host store registry log.refsNow policy subs graph subTips ∧
        ∃ s files, reconcileFold host store registry log policy.name subs = .ok s ∧
          writeFiles s.acc = some files ∧ countCarried host s.acc = 0 := by
  constructor
  · rintro ⟨plan, store', hplan, hcommit⟩
    obtain ⟨hpolicy, hsubs, hgraph, ⟨batch, hbatch, hgates⟩, hrec, hclean⟩ := observeLanding_ok hplan
    rw [commitLanding_isOk_iff, hpolicy, hsubs, hgraph, hgates] at hcommit
    obtain ⟨s, files, hfold, hfiles, hreport, -⟩ := reconcileCore_ok_iff.mp hrec
    have hzero := hclean hstrict
    rw [hreport] at hzero
    exact ⟨⟨batch, hbatch, hcommit⟩, s, files, hfold, hfiles, hzero⟩
  · rintro ⟨⟨batch, hbatch, hpass⟩, s, files, hfold, hfiles, hzero⟩
    have hrec := reconcileCore_ok_iff.mpr ⟨s, files, hfold, hfiles, rfl, rfl⟩
    refine ⟨⟨policy, subs, ⟨batch.carriedValues, batch.validated⟩, graph,
      s.report host (host.treeId files)⟩, (store.write host.treeId files).2, ?_,
      commitLanding_isOk_iff.mpr hpass⟩
    unfold observeLanding
    simp only [hbatch, hrec, FoldState.report, hzero, gt_iff_lt, Nat.lt_irrefl, decide_false,
      Bool.false_and, Bool.false_eq_true, if_false]

end Omoplata
