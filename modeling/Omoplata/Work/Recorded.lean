-- SUMMARY: The state before an operation as the operation records it, for every writer of the log.
import Omoplata.Work.Autorebase
import Omoplata.Work.Queue
import Omoplata.Work.Workspace

/-!
# Recorded before-states

An operation carries the value its ref had before it, for an undo to restore. Undo itself
folds the log again and does not read these values, so they are true only if the writer
takes them from the log.
-/

namespace Omoplata

/-- The ref whose value before it an operation records, with the value. -/
def OpKind.recorded : OpKind → Option (Str × Option CommitId)
  | setRef name old _ => some (name, old)
  | commit _ change _ parent _ => some (change, parent)
  | rebase change oldTip _ _ _ => some (change, some oldTip)
  | _ => none

namespace OpLog

/-- The refs just before the operation at `seq`. -/
def refsBefore (log : OpLog) : Nat → Refs
  | 0 => ∅
  | t + 1 => log.refsAt t

/-- The value an operation records is the one before it, and the one an undo right behind it
    gives back. -/
structure RecordsTruth (log : OpLog) (op : Operation) (name : Str) (old : Option CommitId) : Prop where
  before : (log.refsBefore op.seq)[name]? = old
  undone : ∃ log', (log.truncate (op.seq + 1)).undo = .ok log' ∧ log'.refsNow[name]? = old

/-- Every recorded before-state is true. -/
def Truthful (log : OpLog) : Prop :=
  ∀ op ∈ log.ops, ∀ name old, op.kind.recorded = some (name, old) → log.RecordsTruth op name old

theorem truncate_ops (log : OpLog) (n : Nat) : (log.truncate n).ops = log.ops.take n := rfl

/-- The log that ends with an operation has it behind those before it. -/
theorem truncate_succ_ops (log : OpLog) {op : Operation} (hop : op ∈ log.ops) :
    (log.truncate (op.seq + 1)).ops = (log.truncate op.seq).ops ++ [op] := by
  obtain ⟨i, hi, rfl⟩ := List.getElem_of_mem hop
  rw [log.wellFormed.seq_eq i _ (List.getElem?_eq_getElem hi), truncate_ops, truncate_ops, List.take_succ_eq_append_getElem hi]

theorem ext_ops {log log' : OpLog} (h : log.ops = log'.ops) : log = log' := by
  obtain ⟨ops, hwf⟩ := log
  obtain ⟨ops', hwf'⟩ := log'
  cases h
  rfl

theorem refsBefore_eq (log : OpLog) (t : Nat) : log.refsBefore t = (log.truncate t).refsNow := by
  cases t with
  | zero => rfl
  | succ t => exact log.refsAt_eq_truncate t

/-- An undo right behind an operation restores the refs before it, so a recorded value is true
    as soon as it is the one before. -/
theorem recordsTruth_iff {log : OpLog} {op : Operation} (hop : op ∈ log.ops) (name : Str) (old : Option CommitId) :
    log.RecordsTruth op name old ↔ (log.truncate op.seq).refsNow[name]? = old := by
  obtain ⟨log', hundo, -, hrefs⟩ := (log.truncate (op.seq + 1)).undo_eq (log.truncate_succ_ops hop)
  rw [foldRefs?_eq_refsNow, Option.some.injEq] at hrefs
  rw [hrefs]
  constructor
  · intro h
    rw [← hrefs, ← refsBefore_eq]
    exact h.before
  · intro h
    exact ⟨by rw [refsBefore_eq, hrefs, h], log', hundo, h⟩

/-- Appending an operation keeps the recorded values true exactly if its own is. -/
theorem truthful_append_iff (log : OpLog) (kind : OpKind) (note : Option Str)
    (h : ∀ target, kind.undoTarget = some target → target < log.nextSeq) :
    (log.append kind note h).Truthful ↔
      log.Truthful ∧ ∀ name old, kind.recorded = some (name, old) → log.refsNow[name]? = old := by
  have hops : (log.append kind note h).ops = log.ops ++ [⟨log.nextSeq, kind, note, none⟩] := rfl
  have hold : ∀ op ∈ log.ops, (log.append kind note h).truncate op.seq = log.truncate op.seq := by
    intro op hop
    apply ext_ops
    rw [truncate_ops, truncate_ops, hops, List.take_append_of_le_length]
    exact Nat.le_of_lt (log.wellFormed.seq_lt hop)
  have hnew : (log.append kind note h).truncate log.nextSeq = log := by
    apply ext_ops
    rw [truncate_ops, hops, nextSeq, List.take_left]
  unfold Truthful
  rw [hops]
  constructor
  · intro htrue
    refine ⟨fun op hop name old hrec => ?_, fun name old hrec => ?_⟩
    · have hmem : op ∈ (log.append kind note h).ops := hops ▸ List.mem_append_left _ hop
      have := (recordsTruth_iff hmem name old).mp (htrue op (List.mem_append_left _ hop) name old hrec)
      rw [hold op hop] at this
      exact (recordsTruth_iff hop name old).mpr this
    · have hmem : ⟨log.nextSeq, kind, note, none⟩ ∈ (log.append kind note h).ops := by simp [hops]
      have := (recordsTruth_iff hmem name old).mp (htrue _ (by simp) name old hrec)
      rwa [hnew] at this
  · rintro ⟨htrue, hlast⟩ op hop name old hrec
    refine (recordsTruth_iff (hops ▸ hop) name old).mpr ?_
    cases List.mem_append.mp hop with
    | inl hmem =>
        rw [hold op hmem]
        exact (recordsTruth_iff hmem name old).mp (htrue op hmem name old hrec)
    | inr hmem =>
        obtain rfl := List.mem_singleton.mp hmem
        rw [hnew]
        exact hlast name old hrec

/-- A ref that is set records what it was. -/
theorem truthful_setRef_iff (log : OpLog) (name : Str) (target : Option CommitId) (note : Option Str) :
    (log.setRef name target note).Truthful ↔ log.Truthful := by
  unfold setRef
  rw [truthful_append_iff]
  refine and_iff_left ?_
  rintro name' old h
  cases h
  rfl

theorem truthful_new : new.Truthful := fun _ hop => absurd hop List.not_mem_nil

end OpLog

/-! ## The writers -/

/-- The log that the loop of a landing leaves, also where it fails. -/
def landChangesLog (policy : QueuePolicy) : List ChangeId → ChangeGraph → OpLog → OpLog
  | [], _, log => log
  | id :: ids, g, log =>
      match g.change id with
      | none => log
      | some change =>
          match publishChange g id change with
          | .error _ => log
          | .ok g =>
              landChangesLog policy ids g (log.setRef (queueRef policy.name id) (g.tip id) (some (landNote policy id)))

/-- The log that a landing leaves, also where it fails. -/
def landSubmissionInQueueLog (submission : Submission) (policy : QueuePolicy) (gates : QueueGates) (g : ChangeGraph)
    (log : OpLog) : OpLog :=
  if policy.requireApproval && !submission.isApproved then log
  else if gates.carriedValues > 0 && !policy.allowCarried then log
  else if policy.validate.isSome && gates.validated != some true then log
  else landChangesLog policy submission.changes g log

theorem landChangesLog_eq {policy : QueuePolicy} {ids landed landed' : List ChangeId} {g g' : ChangeGraph}
    {log log' : OpLog} (h : landChanges policy ids g log landed = .ok (landed', g', log')) :
    landChangesLog policy ids g log = log' := by
  induction ids generalizing g log landed with
  | nil =>
      cases h
      rfl
  | cons id ids ih =>
      unfold landChanges at h
      unfold landChangesLog
      cases hchange : g.change id with
      | none => simp [hchange] at h
      | some change =>
          simp only [hchange] at h ⊢
          cases hpublish : publishChange g id change with
          | error e => simp [hpublish, bind, Except.bind] at h
          | ok g₁ =>
              simp only [hpublish, bind, Except.bind] at h ⊢
              exact ih h

theorem landSubmissionInQueueLog_eq {submission : Submission} {policy : QueuePolicy} {gates : QueueGates}
    {g g' : ChangeGraph} {log log' : OpLog} {result : LandResult}
    (h : landSubmissionInQueue submission policy gates g log = .ok (result, g', log')) :
    landSubmissionInQueueLog submission policy gates g log = log' := by
  unfold landSubmissionInQueue at h
  unfold landSubmissionInQueueLog
  split at h
  · cases h
  · rename_i happroved
    split at h
    · cases h
    · rename_i hcarried
      split at h
      · cases h
      · rename_i hvalidated
        rw [if_neg happroved, if_neg hcarried, if_neg hvalidated]
        cases hland : landChanges policy submission.changes g log [] with
        | error e => simp [hland, bind, Except.bind] at h
        | ok r =>
            obtain ⟨landed, g₁, log₁⟩ := r
            simp only [hland, bind, Except.bind, pure, Except.pure, Except.ok.injEq, Prod.mk.injEq] at h
            obtain ⟨-, -, rfl⟩ := h
            exact landChangesLog_eq hland

/-- A call that may write to the log. -/
inductive LogCall where
  | setRef (name : Str) (target : Option CommitId) (note : Option Str)
  | undo
  | autoSnapshot (dirs : WorkingDirs) (store : Store) (ws : Workspace)
  | landSubmissionInQueue (submission : Submission) (policy : QueuePolicy) (gates : QueueGates) (g : ChangeGraph)
  | autoRebase (repo : Repository) (g : ChangeGraph) (change : ChangeId) (base oldTip onto : CommitId)

namespace LogCall

section

variable (treeId : Files → ObjectId) (sha256 : List UInt8 → ObjectId)

/-- The log after a call, whether or not it succeeds. -/
def apply (log : OpLog) : LogCall → OpLog
  | setRef name target note => log.setRef name target note
  | undo =>
      match log.undo with
      | .ok log => log
      | .error _ => log
  | autoSnapshot dirs store ws =>
      match Omoplata.autoSnapshot treeId dirs store log ws with
      | .ok (_, _, log) => log
      | .error _ => log
  | landSubmissionInQueue submission policy gates g => landSubmissionInQueueLog submission policy gates g log
  | autoRebase repo g change base oldTip onto =>
      match RebaseEngine.autoRebase sha256 ⟨repo, log, g⟩ change base oldTip onto with
      | .ok (_, e) => e.log
      | .error _ => log

/-- The log after some calls. -/
def run (log : OpLog) (calls : List LogCall) : OpLog := calls.foldl (apply treeId sha256) log

/-- Whether the three commits of a rebase read as text. -/
def Readable (repo : Repository) (base oldTip onto : CommitId) : Prop :=
  ∃ docs, (RebaseEngine.loadDocs sha256 repo base oldTip onto).run = .ok (.ok docs)

/-- A rebase names the tip its change has in the log. -/
def NamesTip (log : OpLog) : LogCall → Prop
  | autoRebase repo _ change base oldTip onto =>
      Readable sha256 repo base oldTip onto → log.refsNow[change]? = some oldTip
  | _ => True

/-- Every rebase of a run names the tip its change has then. -/
def NamesTips (log : OpLog) : List LogCall → Prop
  | [] => True
  | call :: calls => call.NamesTip sha256 log ∧ NamesTips (call.apply treeId sha256 log) calls

theorem truthful_landChangesLog_iff (policy : QueuePolicy) (ids : List ChangeId) (g : ChangeGraph) (log : OpLog) :
    (landChangesLog policy ids g log).Truthful ↔ log.Truthful := by
  induction ids generalizing g log with
  | nil => exact Iff.rfl
  | cons id ids ih =>
      unfold landChangesLog
      split
      · exact Iff.rfl
      · split
        · exact Iff.rfl
        · rw [ih, OpLog.truthful_setRef_iff]

theorem truthful_landSubmissionInQueueLog_iff (submission : Submission) (policy : QueuePolicy) (gates : QueueGates)
    (g : ChangeGraph) (log : OpLog) :
    (landSubmissionInQueueLog submission policy gates g log).Truthful ↔ log.Truthful := by
  unfold landSubmissionInQueueLog
  split
  · exact Iff.rfl
  · split
    · exact Iff.rfl
    · split
      · exact Iff.rfl
      · exact truthful_landChangesLog_iff policy submission.changes g log

/-- An undo appends an operation that records nothing. -/
theorem truthful_undo_iff {log log' : OpLog} (h : log.undo = .ok log') : log'.Truthful ↔ log.Truthful := by
  unfold OpLog.undo at h
  split at h
  · cases h
    rw [OpLog.truthful_append_iff]
    exact and_iff_left nofun
  · cases h

/-- A snapshot records the tip it has read. -/
theorem truthful_autoSnapshot_iff {dirs : WorkingDirs} {store store' : Store} {log log' : OpLog} {ws : Workspace}
    {r : CommitId × Bool} (h : Omoplata.autoSnapshot treeId dirs store log ws = .ok (r, store', log')) :
    log'.Truthful ↔ log.Truthful := by
  unfold Omoplata.autoSnapshot at h
  cases hdirty : isDirty treeId dirs store ws.workingDir log.refsNow[ws.change]? with
  | error e => simp [hdirty, bind, Except.bind] at h
  | ok d =>
      obtain ⟨⟨dirty, current⟩, store₁⟩ := d
      simp only [hdirty, bind, Except.bind] at h
      cases dirty with
      | false =>
          cases h
          exact Iff.rfl
      | true =>
          simp only [if_true] at h
          cases hsnap : snapshot treeId dirs store₁ ws.workingDir with
          | error e => simp [hsnap] at h
          | ok t =>
              simp only [hsnap, pure, Except.pure, Except.ok.injEq, Prod.mk.injEq] at h
              obtain ⟨-, -, rfl⟩ := h
              rw [OpLog.truthful_append_iff]
              refine and_iff_left ?_
              rintro name old hrec
              cases hrec
              rfl

/-- A rebase records the tip its caller names. -/
theorem truthful_autoRebase_iff {e : RebaseEngine} {change : ChangeId} {base oldTip onto : CommitId}
    {r : Except WorkError RebaseOutcome × RebaseEngine}
    (h : e.autoRebase sha256 change base oldTip onto = .ok r) :
    r.2.log.Truthful ↔
      e.log.Truthful ∧ (Readable sha256 e.repo base oldTip onto → e.log.refsNow[change]? = some oldTip) := by
  unfold RebaseEngine.autoRebase at h
  unfold Readable
  cases hload : (RebaseEngine.loadDocs sha256 e.repo base oldTip onto).run with
  | error panic => simp [hload, bind, Except.bind] at h
  | ok docs =>
      cases docs with
      | error err =>
          simp only [hload, bind, Except.bind, pure, Except.pure, Except.ok.injEq] at h
          subst h
          simp
      | ok docs =>
          obtain ⟨baseDoc, mine, ontoDoc⟩ := docs
          simp only [hload, bind, Except.bind, pure, Except.pure, Except.ok.injEq] at h
          subst h
          rw [OpLog.truthful_append_iff]
          refine and_congr_right fun _ => ⟨fun hlast _ => hlast change (some oldTip) rfl, ?_⟩
          rintro hnames name old hrec
          cases hrec
          exact hnames ⟨_, rfl⟩

/-- A call keeps the recorded values true exactly if a rebase names the tip its change has. -/
theorem truthful_apply_iff (log : OpLog) (call : LogCall) :
    (call.apply treeId sha256 log).Truthful ↔ log.Truthful ∧ call.NamesTip sha256 log := by
  cases call with
  | setRef name target note => simp [apply, NamesTip, OpLog.truthful_setRef_iff]
  | undo =>
      simp only [apply, NamesTip, and_true]
      cases hundo : log.undo with
      | ok log' => exact truthful_undo_iff hundo
      | error e => exact Iff.rfl
  | autoSnapshot dirs store ws =>
      simp only [apply, NamesTip, and_true]
      cases hsnap : Omoplata.autoSnapshot treeId dirs store log ws with
      | ok r => exact truthful_autoSnapshot_iff treeId hsnap
      | error e => exact Iff.rfl
  | landSubmissionInQueue submission policy gates g =>
      simp [apply, NamesTip, truthful_landSubmissionInQueueLog_iff]
  | autoRebase repo g change base oldTip onto =>
      simp only [apply, NamesTip]
      cases hrebase : RebaseEngine.autoRebase sha256 ⟨repo, log, g⟩ change base oldTip onto with
      | ok r => exact truthful_autoRebase_iff sha256 hrebase
      | error panic =>
          refine (and_iff_left ?_).symm
          rintro ⟨docs, hload⟩
          simp [RebaseEngine.autoRebase, hload, bind, Except.bind, pure, Except.pure] at hrebase

/-- The recorded values of a log are true after a run exactly if they were before it, and every
    rebase named the tip its change had. -/
theorem truthful_run_iff (log : OpLog) (calls : List LogCall) :
    (run treeId sha256 log calls).Truthful ↔ log.Truthful ∧ NamesTips treeId sha256 log calls := by
  induction calls generalizing log with
  | nil => exact (and_iff_left trivial).symm
  | cons call calls ih =>
      unfold run at ih ⊢
      rw [List.foldl_cons, ih, truthful_apply_iff, and_assoc]
      rfl

end

end LogCall

/-- A blob that is stored under its id is the text of a commit. -/
theorem RebaseEngine.loadDoc_of_stored {sha256 : List UInt8 → ObjectId} {repo : Repository} {text : Str} {id : ObjectId}
    (h : repo.readObject sha256 id = .ok (.ok (.blob (utf8 text)))) :
    (loadDoc sha256 repo id.toText).run = .ok (.ok (.fromStr text)) := by
  simp [loadDoc, ExceptT.run, ExceptT.mk, ObjectId.parse_toText, h, fromUtf8_utf8, bind, Except.bind, pure, Except.pure]

/-- Whatever writes to a log, its recorded before-states are true exactly if every rebase names the
    tip its change has in the log. -/
theorem before_states_true_iff (treeId : Files → ObjectId) (sha256 : List UInt8 → ObjectId) (calls : List LogCall) :
    (LogCall.run treeId sha256 .new calls).Truthful ↔ LogCall.NamesTips treeId sha256 .new calls := by
  rw [LogCall.truthful_run_iff]
  exact and_iff_right OpLog.truthful_new

/-- The id of the empty blob. -/
def emptyBlobId : ObjectId where
  digest := [71, 58, 15, 76, 59, 232, 169, 54, 129, 162, 103, 227, 177, 233, 167, 220, 218, 17, 133, 67, 111, 225, 65, 247,
    116, 145, 32, 163, 3, 114, 24, 19]
  length_digest := by decide

/-- A change whose ref is at `r` is rebased from another tip. -/
theorem before_state_stale :
    ¬ (LogCall.run (fun _ => emptyBlobId) (fun _ => emptyBlobId) .new
      [.setRef "c".toList (some "r".toList) none,
        .autoRebase (Repository.init.writeBlob (fun _ => emptyBlobId) []).2 .new "c".toList emptyBlobId.toText emptyBlobId.toText
          emptyBlobId.toText]).Truthful := by
  rw [LogCall.truthful_run_iff]
  rintro ⟨-, -, hnames, -⟩
  have hload : (RebaseEngine.loadDoc (fun _ => emptyBlobId) (Repository.init.writeBlob (fun _ => emptyBlobId) []).2
      emptyBlobId.toText).run = .ok (.ok (.fromStr [])) :=
    RebaseEngine.loadDoc_of_stored (Repository.readObject_writeObject_init _ (.blob []))
  have hread := hnames ⟨(.fromStr [], .fromStr [], .fromStr []), by
    simp only [RebaseEngine.loadDocs, ExceptT.run_bind, hload]
    rfl⟩
  rw [LogCall.apply, OpLog.getElem?_refsNow_setRef, if_pos rfl] at hread
  exact absurd hread (by decide)

end Omoplata
