-- SUMMARY: What keeps conflicts out of a strict queue, and what its gate does not count.
import Omoplata.Cli.Reconcile
import Omoplata.Cli.Refusal

/-!
# Strict queues

A queue whose policy does not allow carried values refuses a reconciled tree with
conflict values. These are counted in its Rust files, and in those only whose markers
are well formed. So a strict queue stays free of conflicts where whatever conflicts come
along with one value that is counted, or where another gate refuses.
-/

namespace Omoplata

/-! ## The operations -/

/-- The operations that move the content of a queue. -/
inductive QueueOp where
  | land (ids : List SubmissionId) (queue : Str)
  | push (queue : Str) (submission : Submission) (tips : List (ChangeId × CommitId))
  | reconcile (ids : List SubmissionId) (queue : Str)

namespace QueueOp

/-- The queue and the submissions an operation is about, unless its request is refused. -/
def request (repo : Repo) : QueueOp → Except CliError (QueuePolicy × List Submission)
  | land ids queue => landRequest repo ids queue
  | push queue submission _ =>
      (pushRequest repo queue submission).map fun policy => (policy, [submission])
  | reconcile ids queue => reconcileRequest repo ids queue

/-- The repository the operation reconciles on: what its first locked section leaves. -/
def first (host : Host) (repo : Repo) (subs : List Submission) : QueueOp → Repo
  | land .. => repo.snapshotSection host (subs.flatMap Submission.changes)
  | push _ _ tips => { repo with log := recordTips tips repo.log }
  | reconcile .. => repo

def run (host : Host) (repo : Repo) : QueueOp → Except CliError Unit × Repo
  | land ids queue => ((cmdLand host repo ids queue).1.map fun _ => (), (cmdLand host repo ids queue).2)
  | push queue submission tips =>
      ((landPushed host repo queue submission tips).1.map fun _ => (),
        (landPushed host repo queue submission tips).2)
  | reconcile ids queue =>
      ((cmdReconcile host repo ids queue).1.map fun _ => (), (cmdReconcile host repo ids queue).2)

/-- The gates on the submissions themselves. The reconcile command has none. -/
def Lets (host : Host) (first : Repo) (policy : QueuePolicy) (subs : List Submission) : QueueOp → Prop
  | land .. => ∃ graph subTips, readTips first.log.refsNow subs = .ok (graph, subTips) ∧
      GatesLet host first.store first.queues first.log.refsNow policy subs graph subTips
  | push _ submission tips => ∃ graph oids,
      (tips.map fun t => (t.1, some t.2)).foldlM addTip (ChangeGraph.new, []) = .ok (graph, oids) ∧
      GatesLet host first.store first.queues first.log.refsNow policy subs graph [(submission.id, oids)]
  | reconcile .. => True

/-- The content of the queue the operation starts from, and the fold it stores. -/
def Folds (host : Host) (first : Repo) (policy : QueuePolicy) (subs : List Submission)
    (head : TextFiles) (s : FoldState) : Prop :=
  materializeTrunk host first.store first.queues first.log.refsNow policy.name = .ok head ∧
    reconcileFold host first.store first.queues first.log policy.name subs = .ok s

end QueueOp

/-! ## Past the gates -/

/-- An operation on a strict queue goes through exactly where its gates let it and its
    reconciled content counts no conflict value. -/
structure GoesThrough (host : Host) (first : Repo) (policy : QueuePolicy) (subs : List Submission)
    (op : QueueOp) : Prop where
  lets : op.Lets host first policy subs
  uncounted : ∃ s files, reconcileFold host first.store first.queues first.log policy.name subs = .ok s ∧
    writeFiles s.acc = some files ∧ countCarried host s.acc = 0

theorem isOk_map_iff {ε α β : Type} {x : Except ε α} {f : α → β} :
    (∃ r, x.map f = .ok r) ↔ ∃ r, x = .ok r := by
  cases x <;> simp [Except.map]

theorem isError_map_iff {ε α β : Type} {x : Except ε α} {f : α → β} :
    (∃ e, x.map f = .error e) ↔ ∃ e, x = .error e := by
  cases x <;> simp [Except.map]

/-- The last section of an operation, behind a plan it may not have got to: it goes through
    exactly where the plan is made and committed, and else leaves the log. -/
theorem mutateLocked_plan {α : Type} (first : Repo) (plan : Except CliError LandingPlan × Store)
    (save : Store → Repo) (hsave : ∀ store, (save store).log = first.log)
    (commit : LandingPlan → OpLog → Except WorkError (α × OpLog))
    (hcommit : ∀ plan log, (∃ r, commit plan log = .ok r) ↔ ∃ r, commitLanding plan log = .ok r) :
    let out : Except CliError α × Repo :=
      match plan with
      | (.error e, store) => (.error e, { first with store := store })
      | (.ok plan, store) => (save store).mutateLocked (commit plan)
    ((∃ r, out.1 = .ok r) ↔
        ∃ made store, plan = (.ok made, store) ∧ ∃ r, commitLanding made first.log = .ok r) ∧
      ((∃ e, out.1 = .error e) → out.2.log = first.log) := by
  obtain ⟨plan, store⟩ := plan
  cases plan with
  | error e => simp
  | ok made =>
      simp only [Repo.mutateLocked, Prod.mk.injEq, Except.ok.injEq, hsave]
      cases hrun : commit made first.log with
      | error e =>
          have hnone : ¬ ∃ r, commitLanding made first.log = .ok r := by
            rw [← hcommit, hrun]
            simp
          simpa [hsave] using hnone
      | ok r =>
          have hsome := (hcommit made first.log).mp ⟨r, hrun⟩
          simpa using hsome

/-- A plan that is observed behind what has been read goes through where both do. -/
theorem planned_iff {τ : Type} {read : Except CliError (ChangeGraph × τ)} {planned : Except CliError LandingPlan × Store}
    {log : OpLog} {lets : ChangeGraph → τ → Prop} {counts : Prop}
    (herror : ∀ e, read = .error e → planned.1 = .error e)
    (hok : ∀ graph tips, read = .ok (graph, tips) →
      ((∃ made store, planned = (.ok made, store) ∧ ∃ r, commitLanding made log = .ok r) ↔ lets graph tips ∧ counts)) :
    (∃ made store, planned = (.ok made, store) ∧ ∃ r, commitLanding made log = .ok r) ↔
      (∃ graph tips, read = .ok (graph, tips) ∧ lets graph tips) ∧ counts := by
  cases hread : read with
  | error e =>
      refine ⟨fun ⟨made, store, hplanned, _⟩ => ?_, by simp⟩
      have herr := herror e hread
      rw [hplanned] at herr
      cases herr
  | ok r =>
      obtain ⟨graph, tips⟩ := r
      refine (hok graph tips hread).trans (and_congr_left' ⟨fun hlets => ⟨graph, tips, rfl, hlets⟩, ?_⟩)
      rintro ⟨graph', tips', heq, hlets⟩
      cases heq
      exact hlets

theorem goesThrough_iff {host : Host} {first : Repo} {policy : QueuePolicy} {subs : List Submission} {op : QueueOp} :
    GoesThrough host first policy subs op ↔ op.Lets host first policy subs ∧
      ∃ s files, reconcileFold host first.store first.queues first.log policy.name subs = .ok s ∧
        writeFiles s.acc = some files ∧ countCarried host s.acc = 0 :=
  ⟨fun h => ⟨h.lets, h.uncounted⟩, fun h => ⟨h.1, h.2⟩⟩

theorem run_land {host : Host} {repo : Repo} {ids : List SubmissionId} {queue : Str}
    {policy : QueuePolicy} {subs : List Submission} (hreq : landRequest repo ids queue = .ok (policy, subs))
    (hstrict : policy.allowCarried = false) :
    let op := QueueOp.land ids queue
    ((∃ r, (op.run host repo).1 = .ok r) ↔ GoesThrough host (op.first host repo subs) policy subs op) ∧
      ((∃ e, (op.run host repo).1 = .error e) → (op.run host repo).2.log = (op.first host repo subs).log) := by
  simp only [QueueOp.run, QueueOp.first, isOk_map_iff, isError_map_iff]
  unfold cmdLand
  simp only [hreq]
  generalize repo.snapshotSection host (subs.flatMap Submission.changes) = first
  obtain ⟨hthrough, hlog⟩ := mutateLocked_plan first
    (planLanding host first.store first.queues policy subs first.log)
    (fun store => { first with store := store }) (fun _ => rfl) commitLanding fun _ _ => Iff.rfl
  rw [goesThrough_iff]
  refine ⟨hthrough.trans (planned_iff (fun e he => ?_) fun graph subTips hread => ?_), hlog⟩
  · rw [planLanding, he]
  · rw [planLanding, hread]
    exact observeLanding_commit_iff hstrict

theorem run_push {host : Host} {repo : Repo} {queue : Str} {submission : Submission}
    {tips : List (ChangeId × CommitId)} {policy : QueuePolicy}
    (hreq : pushRequest repo queue submission = .ok policy) (hstrict : policy.allowCarried = false) :
    let op := QueueOp.push queue submission tips
    let subs := [submission]
    ((∃ r, (op.run host repo).1 = .ok r) ↔ GoesThrough host (op.first host repo subs) policy subs op) ∧
      ((∃ e, (op.run host repo).1 = .error e) → (op.run host repo).2.log = (op.first host repo subs).log) := by
  simp only [QueueOp.run, QueueOp.first, isOk_map_iff, isError_map_iff]
  unfold landPushed
  simp only [hreq]
  generalize hfirst : { repo with log := recordTips tips repo.log } = first
  obtain ⟨hthrough, hlog⟩ := mutateLocked_plan first
    (planPush host first.store first.queues policy submission tips first.log)
    (fun store => { first with store := store }.saveSubmission submission) (fun _ => rfl)
    (fun plan log => commitLanding plan log >>= fun r => pure (pushMessage plan r.1, r.2)) fun plan log => by
        cases commitLanding plan log <;> simp [bind, Except.bind, pure, Except.pure]
  rw [← hfirst] at hthrough hlog ⊢
  rw [goesThrough_iff]
  refine ⟨hthrough.trans (planned_iff (fun e he => ?_) fun graph oids hread => ?_), hlog⟩
  · rw [planPush, he]
  · rw [planPush, hread]
    exact observeLanding_commit_iff hstrict

theorem run_reconcile {host : Host} {repo : Repo} {ids : List SubmissionId} {queue : Str}
    {policy : QueuePolicy} {subs : List Submission}
    (hreq : reconcileRequest repo ids queue = .ok (policy, subs)) (hstrict : policy.allowCarried = false) :
    let op := QueueOp.reconcile ids queue
    ((∃ r, (op.run host repo).1 = .ok r) ↔ GoesThrough host (op.first host repo subs) policy subs op) ∧
      ((∃ e, (op.run host repo).1 = .error e) → (op.run host repo).2.log = (op.first host repo subs).log) := by
  simp only [QueueOp.run, QueueOp.first, isOk_map_iff, isError_map_iff]
  unfold cmdReconcile
  simp only [hreq]
  cases hrec : reconcileCore host repo.store repo.queues repo.log policy subs with
  | error e =>
      refine ⟨⟨by simp, fun ⟨_, s, files, hfold, hfiles, _⟩ => ?_⟩, fun _ => rfl⟩
      rw [reconcileCore_ok_iff.mpr ⟨s, files, hfold, hfiles, rfl, rfl⟩] at hrec
      cases hrec
  | ok r =>
      obtain ⟨rec, store⟩ := r
      obtain ⟨s, files, hfold, hfiles, rfl, -⟩ := reconcileCore_ok_iff.mp hrec
      have hthrough : GoesThrough host repo policy subs (.reconcile ids queue) ↔
          countCarried host s.acc = 0 := by
        refine ⟨fun ⟨_, s', files', hfold', _, hzero⟩ => ?_, fun hzero => ⟨trivial, s, files, hfold, hfiles, hzero⟩⟩
        rw [hfold] at hfold'
        cases hfold'
        exact hzero
      rw [hthrough]
      simp only [hstrict, Bool.not_false, Bool.and_true, FoldState.report, Repo.mutateLocked, pure,
        Except.pure]
      by_cases hzero : countCarried host s.acc = 0
      · simp [hzero]
      · have hpos : countCarried host s.acc > 0 := Nat.pos_of_ne_zero hzero
        simp [hzero, hpos]

/-! ## What is counted -/

/-- A Rust file of a content carries a conflict value, with its markers well formed. -/
def Counted (host : Host) (content : TextFiles) : Prop :=
  ∃ path text values, content[path]? = some text ∧ ".rs".toList.isSuffixOf path = true ∧
    conflictValues host.tools.grammar text = some values ∧ values ≠ []

theorem countCarried_eq_zero_iff {host : Host} {content : TextFiles} :
    countCarried host content = 0 ↔ ¬ Counted host content := by
  constructor
  · rintro hzero ⟨path, text, values, htext, hrs, hvalues, hne⟩
    have hclean := countCarried_zero hzero path text htext hrs
    rw [hvalues] at hclean
    exact hne hclean
  · intro huncounted
    unfold countCarried
    refine List.sum_eq_zero_iff_forall_eq_nat.mpr fun n hn => ?_
    obtain ⟨⟨path, text⟩, hmem, rfl⟩ := List.mem_map.mp hn
    dsimp only
    split
    · rename_i hrs
      cases hvalues : conflictValues host.tools.grammar text with
      | none => rfl
      | some values =>
          by_contra hne
          refine huncounted ⟨path, text, values, Std.ExtTreeMap.mem_toList_iff_getElem?_eq_some.mp hmem,
            hrs, hvalues, fun hnil => hne ?_⟩
          rw [hnil]
          rfl
    · rfl

/-! ## What stays out -/

/-- Whether a line opens a marker block. -/
def opensBlock (line : Line) : Bool := startMarker.isPrefixOf (trimStart line)

/-- The text files of a tip that a reconciliation folds. -/
def FoldedIn (host : Host) (first : Repo) (subs : List Submission) (version : TextFiles) : Prop :=
  ∃ change ∈ subs.flatMap Submission.changes, ∃ tip id files, first.log.refsNow[change]? = some tip ∧
    parseTip tip = .ok (some id) ∧ first.store.read host.treeId id = .ok files ∧
    version = readTreeFiles files

/-- A fold is tainted if a file conflicted, or if a file of it holds a marker block that the
    folding rendered or that a submission carried in. -/
def Tainted (host : Host) (first : Repo) (subs : List Submission) (head : TextFiles) (s : FoldState) :
    Prop :=
  s.conflicted ≠ ∅ ∨ ∃ path text line, s.acc[path]? = some text ∧ isControlPath path = false ∧
    line ∈ lines text ∧ opensBlock line = true ∧ (line ∉ lines (head.textAt path) ∨
      ∃ version, FoldedIn host first subs version ∧ line ∈ lines (version.textAt path))

/-- The public refs and the reconciled heads are as before. -/
def SameLanded (repo repo' : Repo) : Prop :=
  ∀ name, Landed name → repo'.log.refsNow[name]? = repo.log.refsNow[name]?

namespace QueueOp

/-- The operation refuses a tainted fold on a strict queue and leaves what has landed. -/
def Keeps (host : Host) (repo : Repo) (op : QueueOp) : Prop :=
  ∀ policy subs head s, op.request repo = .ok (policy, subs) → policy.allowCarried = false →
    Folds host (op.first host repo subs) policy subs head s →
    Tainted host (op.first host repo subs) subs head s →
      (∃ e, (op.run host repo).1 = .error e) ∧ SameLanded repo (op.run host repo).2

/-- A tainted fold on a strict queue has a value that is counted or cannot be written out,
    or the gates on the submissions refuse; and the first section leaves what has landed. -/
def Guarded (host : Host) (repo : Repo) (op : QueueOp) : Prop :=
  ∀ policy subs head s, op.request repo = .ok (policy, subs) → policy.allowCarried = false →
    Folds host (op.first host repo subs) policy subs head s →
    Tainted host (op.first host repo subs) subs head s →
      (Counted host s.acc ∨ writeFiles s.acc = none ∨
        ¬ op.Lets host (op.first host repo subs) policy subs) ∧
      SameLanded repo (op.first host repo subs)

end QueueOp

theorem run_strict {host : Host} {repo : Repo} {op : QueueOp} {policy : QueuePolicy}
    {subs : List Submission} (hreq : op.request repo = .ok (policy, subs))
    (hstrict : policy.allowCarried = false) :
    ((∃ r, (op.run host repo).1 = .ok r) ↔ GoesThrough host (op.first host repo subs) policy subs op) ∧
      ((∃ e, (op.run host repo).1 = .error e) → (op.run host repo).2.log = (op.first host repo subs).log) := by
  cases op with
  | land ids queue => exact run_land hreq hstrict
  | push queue submission tips =>
      simp only [QueueOp.request] at hreq
      cases hpush : pushRequest repo queue submission with
      | error e => simp [hpush, Except.map] at hreq
      | ok policy' =>
          simp only [hpush, Except.map, Except.ok.injEq, Prod.mk.injEq] at hreq
          obtain ⟨rfl, rfl⟩ := hreq
          exact run_push hpush hstrict
  | reconcile ids queue => exact run_reconcile hreq hstrict

/-- An operation whose request is refused changes nothing. -/
theorem run_of_request_error {host : Host} {repo : Repo} {op : QueueOp} {e : CliError}
    (hreq : op.request repo = .error e) : op.run host repo = (.error e, repo) := by
  cases op with
  | land ids queue =>
      simp only [QueueOp.request] at hreq
      simp only [QueueOp.run, cmdLand, hreq, Except.map]
  | push queue submission tips =>
      simp only [QueueOp.request] at hreq
      cases hpush : pushRequest repo queue submission with
      | error e' =>
          simp only [hpush, Except.map, Except.error.injEq] at hreq
          simp only [QueueOp.run, landPushed, hpush, Except.map, hreq]
      | ok policy => simp [hpush, Except.map] at hreq
  | reconcile ids queue =>
      simp only [QueueOp.request] at hreq
      simp only [QueueOp.run, cmdReconcile, hreq, Except.map]

/-- A landing, push or reconciliation keeps conflicts out of a strict queue exactly where
    what taints its fold is counted or another gate refuses, and its first section leaves
    what has landed. -/
theorem strict_keeps_iff (host : Host) (repo : Repo) (op : QueueOp) :
    (∀ e, op.request repo = .error e → op.run host repo = (.error e, repo)) ∧
      (op.Keeps host repo ↔ op.Guarded host repo) := by
  refine ⟨fun e => run_of_request_error, ?_⟩
  unfold QueueOp.Keeps QueueOp.Guarded
  refine forall₄_congr fun policy subs head s => forall₄_congr fun hreq hstrict hfolds htainted => ?_
  have hrun := @run_strict host repo op policy subs hreq hstrict
  obtain ⟨hthrough, hlog⟩ := hrun
  -- the folds are given, so a refusal is a count, a collision of paths or a gate
  have hrefused : (∃ e, (op.run host repo).1 = .error e) ↔ Counted host s.acc ∨
      writeFiles s.acc = none ∨ ¬ op.Lets host (op.first host repo subs) policy subs := by
    have hnot : (∃ e, (op.run host repo).1 = .error e) ↔ ¬ ∃ r, (op.run host repo).1 = .ok r := by
      cases (op.run host repo).1 <;> simp
    rw [hnot, hthrough]
    constructor
    · intro hfails
      by_contra hnone
      rw [not_or, not_or, not_not] at hnone
      obtain ⟨huncounted, hfiles, hlets⟩ := hnone
      obtain ⟨files, hfiles⟩ := Option.ne_none_iff_exists'.mp hfiles
      exact hfails ⟨hlets, s, files, hfolds.2, hfiles, countCarried_eq_zero_iff.mpr huncounted⟩
    · rintro hsome ⟨hlets, s', files, hfold, hfiles, hzero⟩
      rw [hfolds.2] at hfold
      cases hfold
      rcases hsome with hcounted | hnone | hlets'
      · exact countCarried_eq_zero_iff.mp hzero hcounted
      · rw [hfiles] at hnone
        cases hnone
      · exact hlets' hlets
  rw [← hrefused]
  refine and_congr_right fun hfails => ?_
  unfold SameLanded
  rw [hlog hfails]

/-- The first section of a push leaves what has landed exactly where no tip that is named
    like a landed ref is new. -/
theorem sameLanded_push_iff {host : Host} {repo : Repo} {queue : Str} {submission : Submission}
    {tips : List (ChangeId × CommitId)} {subs : List Submission} :
    SameLanded repo ((QueueOp.push queue submission tips).first host repo subs) ↔
      ∀ t ∈ tips, Landed t.1 → repo.log.refsNow[t.1]? = some t.2 := by
  unfold SameLanded QueueOp.first
  dsimp only
  constructor
  · intro h t ht hlanded
    by_contra hnew
    obtain ⟨tip, hset, hne⟩ := refsNow_foldl_recordTip repo.log ⟨t, ht, rfl, hnew⟩
    have hsame := h t.1 hlanded
    unfold recordTips at hsame
    rw [hset] at hsame
    exact hne hsame.symm
  · intro h name hlanded
    by_contra hmoved
    -- The tips of other names move other refs, and those of this name are there.
    have hleaves : ∀ (current : Refs) (log : OpLog), (∀ t ∈ tips, t.1 = name → current[name]? = some t.2) →
        (tips.foldl (recordTip current) log).refsNow[name]? = log.refsNow[name]? := by
      intro current log htips
      clear h hmoved
      induction tips generalizing log with
      | nil => rfl
      | cons t tips ih =>
          rw [List.foldl_cons, ih _ fun t' ht' => htips t' (List.mem_cons_of_mem _ ht')]
          unfold recordTip
          split
          · rfl
          · rename_i hnew
            rw [OpLog.getElem?_refsNow_setRef, if_neg]
            intro hname
            exact hnew (hname ▸ htips t (by simp) hname)
    exact hmoved (hleaves _ _ fun t ht hname => hname ▸ h t ht (hname ▸ hlanded))

/-! ## A conflict in a text file -/

def strictPolicy : QueuePolicy := ⟨"q".toList, none, none, true, false⟩

/-- The head of a strict queue, and a change that was begun before it and edits the same
    text file. -/
def headFiles : Files :=
  ((∅ : Files).insert "a".toList (.text "x".toList)).insert "ccc".toList (.text [])

def editFiles : Files :=
  ((∅ : Files).insert "a".toList (.text "y".toList)).insert "bb".toList (.text [])

def conflictedRepo : Repo :=
  { emptyRepo with
    store := [headFiles, editFiles].foldl (fun store files => (store.write sampleHost.treeId files).2) ⟨∅⟩
    log := (OpLog.new.append (.commit "w".toList "c".toList (sampleHost.treeId editFiles).toText none none)
      none nofun).setRef (reconciledRef "q".toList) (some (sampleHost.treeId headFiles).toText) none
    queues := ⟨[strictPolicy]⟩
    submissions := (∅ : BTreeMap SubmissionId Submission).insert "s".toList
      (approvedSubmission "s".toList ["c".toList]) }

/-- The landing goes through although its fold has a conflict, and the head moves to it. -/
theorem strict_lands_conflict :
    ¬ (QueueOp.land ["s".toList] "q".toList).Keeps sampleHost conflictedRepo ∧
      (cmdLand sampleHost conflictedRepo ["s".toList] "q".toList).2.log.refsNow[reconciledRef "q".toList]? ≠
        conflictedRepo.log.refsNow[reconciledRef "q".toList]? := by
  refine ⟨fun hkeeps => ?_, by decide +kernel⟩
  have hreq : landRequest conflictedRepo ["s".toList] "q".toList =
      .ok (strictPolicy, [approvedSubmission "s".toList ["c".toList]]) := by decide +kernel
  have hlands : (cmdLand sampleHost conflictedRepo ["s".toList] "q".toList).1.toOption.isSome = true := by
    decide +kernel
  let first := (QueueOp.land ["s".toList] "q".toList).first sampleHost conflictedRepo
    [approvedSubmission "s".toList ["c".toList]]
  -- the driver puts a conflict into the file, which is not one the gate counts
  have hfold : (reconcileFold sampleHost first.store first.queues first.log "q".toList
      [approvedSubmission "s".toList ["c".toList]]).toOption.map (fun s => s.conflicted.toList) =
        some ["a".toList] := by decide +kernel
  have hhead : (materializeTrunk sampleHost first.store first.queues first.log.refsNow
      "q".toList).toOption = some (readTreeFiles headFiles) := by decide +kernel
  cases hs : reconcileFold sampleHost first.store first.queues first.log "q".toList
      [approvedSubmission "s".toList ["c".toList]] with
  | error e =>
      rw [hs] at hfold
      cases hfold
  | ok s =>
      cases hh : materializeTrunk sampleHost first.store first.queues first.log.refsNow "q".toList with
      | error e =>
          rw [hh] at hhead
          cases hhead
      | ok head =>
          rw [hs] at hfold
          have htainted : Tainted sampleHost first [approvedSubmission "s".toList ["c".toList]] head s := by
            refine .inl fun hempty => ?_
            have hlist : s.conflicted.toList = ["a".toList] := Option.some.inj hfold
            rw [hempty] at hlist
            exact absurd hlist (by decide +kernel)
          obtain ⟨⟨e, he⟩, -⟩ := hkeeps strictPolicy _ head s hreq rfl ⟨hh, hs⟩ htainted
          simp only [QueueOp.run] at he
          cases hrun : (cmdLand sampleHost conflictedRepo ["s".toList] "q".toList).1 with
          | error e' =>
              rw [hrun] at hlands
              cases hlands
          | ok r =>
              rw [hrun] at he
              cases he

end Omoplata
