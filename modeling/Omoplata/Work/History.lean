-- SUMMARY: The history of a change and its tip as of a time: what both say of the rebases that were made.
import Omoplata.Work.Axes

/-!
# History

Two queries look back at a change. Its history has the rebases of the log, and the tip as of a
transaction time is what the operations in effect up to then made of its ref.

What either has said of the past it says for good. A record of the history names the tip that was
believed right when it was made, also after the rebase has been undone. On an engine that only
rebases, the records are the rebases that replayed, and the last of them by a time gives the tip
as of that time.
-/

namespace Omoplata

/-- A rebase of a change, read back from the log. -/
structure RebaseRecord where
  seq : Nat
  oldTip : CommitId
  newTip : CommitId
  onto : CommitId
  conflicts : Nat
  deriving DecidableEq, Repr

/-- What is known of a change: its tip in the change graph, and its rebases in the log. -/
structure ChangeHistory where
  change : ChangeId
  currentTip : Option CommitId
  rebases : List RebaseRecord
  deriving DecidableEq, Repr

/-- The record of an operation, if it is a rebase of the change. -/
def Operation.rebaseRecord (change : ChangeId) (op : Operation) : Option RebaseRecord :=
  match op.kind with
  | .rebase c oldTip newTip onto conflicts =>
      if c = change then some ⟨op.seq, oldTip, newTip, onto, conflicts⟩ else none
  | _ => none

namespace RebaseEngine

/-- The history of a change, with its rebases oldest first. -/
def history (e : RebaseEngine) (change : ChangeId) : ChangeHistory :=
  ⟨change, e.graph.tip change, e.log.ops.filterMap (Operation.rebaseRecord change)⟩

/-- The tip that a change was believed to have as of a transaction time. -/
def tipAsOf (e : RebaseEngine) (change : ChangeId) (seq : Nat) : Option CommitId := (e.log.refsAt seq)[change]?

end RebaseEngine

/-! ## Records -/

theorem Operation.rebaseRecord_eq_some {change : ChangeId} {op : Operation} {r : RebaseRecord}
    (h : op.rebaseRecord change = some r) :
    op.kind = .rebase change r.oldTip r.newTip r.onto r.conflicts ∧ op.seq = r.seq := by
  unfold Operation.rebaseRecord at h
  split at h
  · rename_i c oldTip newTip onto conflicts hkind
    split at h
    · rename_i hc
      subst hc
      cases h
      exact ⟨hkind, rfl⟩
    · cases h
  · cases h

/-- An operation that rebases some change. -/
def OpKind.IsRebase (kind : OpKind) : Prop :=
  ∃ change oldTip newTip onto conflicts, kind = .rebase change oldTip newTip onto conflicts

theorem OpKind.IsRebase.undoTarget {kind : OpKind} (h : kind.IsRebase) : kind.undoTarget = none := by
  obtain ⟨change, oldTip, newTip, onto, conflicts, rfl⟩ := h
  rfl

namespace OpLog

/-- Right behind an operation that is no undo, the refs are what it makes of those before it. -/
theorem refsAt_of_mem (log : OpLog) {op : Operation} (hop : op ∈ log.ops) (hkind : op.kind.undoTarget = none) :
    log.refsAt op.seq = op.kind.applyTo (log.truncate op.seq).refsNow := by
  have hlast : log.truncate (op.seq + 1) =
      (log.truncate op.seq).appendAt op.kind op.note op.time (by simp [hkind]) := by
    apply ext_ops
    have hnext : (log.truncate op.seq).nextSeq = op.seq := by
      rw [nextSeq, truncate_ops, List.length_take_of_le (Nat.le_of_lt (log.wellFormed.seq_lt hop))]
    simp only [log.truncate_succ_ops hop, appendAt, hnext]
  rw [refsAt_eq_truncate, hlast, refsNow_appendAt _ hkind]

/-- The records are in the order of their times. -/
theorem records_sorted (log : OpLog) (change : ChangeId) :
    (log.ops.filterMap (Operation.rebaseRecord change)).Pairwise (·.seq < ·.seq) := by
  have hops : log.ops.Pairwise (·.seq < ·.seq) := by
    refine List.pairwise_iff_getElem.mpr fun i j hi hj hij => ?_
    rw [log.wellFormed.seq_eq i _ (List.getElem?_eq_getElem hi), log.wellFormed.seq_eq j _ (List.getElem?_eq_getElem hj)]
    exact hij
  refine hops.filterMap _ fun op op' hlt r hr r' hr' => ?_
  rw [← (Operation.rebaseRecord_eq_some hr).2, ← (Operation.rebaseRecord_eq_some hr').2]
  exact hlt

/-- The records of the first operations are the first records. -/
theorem records_truncate (log : OpLog) (change : ChangeId) (seq : Nat) :
    (log.truncate (seq + 1)).ops.filterMap (Operation.rebaseRecord change) =
      (log.ops.filterMap (Operation.rebaseRecord change)).filter fun r => decide (r.seq ≤ seq) := by
  conv_rhs => rw [← List.take_append_drop (seq + 1) log.ops, List.filterMap_append, List.filter_append]
  have hkept : ∀ r ∈ (log.ops.take (seq + 1)).filterMap (Operation.rebaseRecord change), decide (r.seq ≤ seq) = true := by
    intro r hr
    obtain ⟨op, hop, hrecord⟩ := List.mem_filterMap.mp hr
    have hlt := (log.truncate (seq + 1)).wellFormed.seq_lt hop
    rw [truncate_ops, List.length_take, (Operation.rebaseRecord_eq_some hrecord).2] at hlt
    simp only [decide_eq_true_eq]
    omega
  have hdropped : ∀ r ∈ (log.ops.drop (seq + 1)).filterMap (Operation.rebaseRecord change), ¬ decide (r.seq ≤ seq) = true := by
    intro r hr
    obtain ⟨op, hop, hrecord⟩ := List.mem_filterMap.mp hr
    obtain ⟨i, hi, rfl⟩ := List.getElem_of_mem hop
    have hseq := log.wellFormed.seq_eq (seq + 1 + i) _ (List.getElem?_drop ▸ List.getElem?_eq_getElem hi)
    rw [(Operation.rebaseRecord_eq_some hrecord).2] at hseq
    simp only [decide_eq_true_eq]
    omega
  rw [List.filter_eq_self.mpr hkept, List.filter_eq_nil_iff.mpr hdropped, List.append_nil, truncate_ops]

/-- Where every operation is a rebase, a ref is the new tip of the last one of its change. -/
theorem getElem?_refsNow_of_rebases {log : OpLog} (hops : ∀ op ∈ log.ops, op.kind.IsRebase) (change : ChangeId) :
    log.refsNow[change]? =
      (log.ops.filterMap (Operation.rebaseRecord change)).getLast?.map RebaseRecord.newTip := by
  have hactive : ∀ op ∈ log.ops, activeAt log.ops op.seq = true := by
    intro op hop
    refine activeAt_of_not_undone log.wellFormed fun op' hop' => ?_
    rw [(hops op' hop').undoTarget]
    exact nofun
  have hfold : log.refsNow = log.ops.foldl (fun refs op => op.kind.applyTo refs) ∅ := by
    have hnow := log.foldRefs?_eq_refsNow
    rw [foldRefs?_eq log.wellFormed, Option.some.injEq] at hnow
    rw [← hnow]
    refine List.foldl_ext _ _ _ fun refs op hop => ?_
    rw [hactive op hop, if_pos rfl]
  -- the last operation decides for its own change
  have hlast : ∀ ops : List Operation, (∀ op ∈ ops, op.kind.IsRebase) →
      (ops.foldl (fun refs op => op.kind.applyTo refs) (∅ : Refs))[change]? =
        (ops.filterMap (Operation.rebaseRecord change)).getLast?.map RebaseRecord.newTip := by
    intro ops
    induction ops using List.reverseRecOn with
    | nil => exact fun _ => rfl
    | append_singleton ops op ih =>
        intro hops
        have hrest := ih fun op' hop' => hops op' (List.mem_append_left _ hop')
        obtain ⟨c, oldTip, newTip, onto, conflicts, hkind⟩ := hops op (by simp)
        rw [List.foldl_append, List.foldl_cons, List.foldl_nil, List.filterMap_append, hkind, OpKind.applyTo,
          BTreeMap.getElem?_insert, hrest]
        by_cases hc : c = change
        · simp [Operation.rebaseRecord, hkind, hc]
        · simp [Operation.rebaseRecord, hkind, hc]
  rw [hfold]
  exact hlast log.ops hops

end OpLog

namespace RebaseEngine

variable {sha256 : List UInt8 → ObjectId}

/-! ## What stands -/

/-- What changes an engine: its calls, what its owner does to the log, and what others write to the store. -/
inductive Changes (sha256 : List UInt8 → ObjectId) : RebaseEngine → RebaseEngine → Prop
  | autoRebase {e e' : RebaseEngine} (item : StackItem) (onto : CommitId) (r : Except WorkError RebaseOutcome)
      (hcall : e.autoRebase sha256 item.change item.base item.tip onto = .ok (r, e')) : Changes sha256 e e'
  | log (e : RebaseEngine) (log' : OpLog) (h : e.log.Step log') : Changes sha256 e ⟨e.repo, log', e.graph⟩
  | store (e : RebaseEngine) (repo : Repository) : Changes sha256 e ⟨repo, e.log, e.graph⟩

theorem Records.step {e : RebaseEngine} {item : StackItem} {onto replayed : CommitId}
    {r : Except WorkError RebaseOutcome × RebaseEngine} (h : Records e item onto replayed r) : e.log.Step r.2.log := by
  obtain ⟨conflicts, hlog⟩ := h.log_eq
  rw [hlog]
  exact .appendAt _ _ _ _ rfl

/-- Whatever changes an engine builds on its log. -/
theorem Changes.steps {e e' : RebaseEngine} (h : Relation.ReflTransGen (Changes sha256) e e') :
    Relation.ReflTransGen OpLog.Step e.log e'.log := by
  induction h with
  | refl => exact .refl
  | tail _ hchange ih =>
      cases hchange with
      | autoRebase item onto r hcall =>
          rcases autoRebase_cases hcall with ⟨⟨err, heq⟩, -⟩ | ⟨replayed, -, hrecords⟩
          · cases heq
            exact ih
          · exact ih.tail hrecords.step
      | log log' hstep => exact ih.tail hstep
      | store repo => exact ih

theorem tipAsOf_of_record {e : RebaseEngine} {change : ChangeId} {r : RebaseRecord}
    (hr : r ∈ (e.history change).rebases) : e.tipAsOf change r.seq = some r.newTip := by
  obtain ⟨op, hop, hrecord⟩ := List.mem_filterMap.mp hr
  obtain ⟨hkind, hseq⟩ := Operation.rebaseRecord_eq_some hrecord
  have hundo : op.kind.undoTarget = none := by
    rw [hkind]
    rfl
  unfold tipAsOf
  rw [← hseq, e.log.refsAt_of_mem hop hundo, hkind, OpKind.applyTo, BTreeMap.getElem?_insert, if_pos rfl]

/-- However an engine goes on, the history of a change only gets longer at its end, the tips as of past times
    stay, and every record names the tip as of its own time. -/
theorem history_stands {e e' : RebaseEngine} (h : Relation.ReflTransGen (Changes sha256) e e') (change : ChangeId) :
    (∃ later, (e'.history change).rebases = (e.history change).rebases ++ later ∧
      ∀ r ∈ later, e.log.nextSeq ≤ r.seq) ∧
    (∀ seq < e.log.nextSeq, e'.tipAsOf change seq = e.tipAsOf change seq) ∧
    (∀ r ∈ (e'.history change).rebases, e'.tipAsOf change r.seq = some r.newTip) ∧
    (e'.history change).rebases.Pairwise (·.seq < ·.seq) := by
  obtain ⟨tail, htail⟩ := OpLog.steps_keep_ops (Changes.steps h)
  refine ⟨⟨tail.filterMap (Operation.rebaseRecord change), ?_, ?_⟩, ?_, fun r hr => tipAsOf_of_record hr,
    e'.log.records_sorted change⟩
  · unfold history
    rw [← htail, List.filterMap_append]
  · intro r hr
    obtain ⟨op, hop, hrecord⟩ := List.mem_filterMap.mp hr
    obtain ⟨i, hi, rfl⟩ := List.getElem_of_mem hop
    have hat : e'.log.ops[e.log.ops.length + i]? = some tail[i] := by
      rw [← htail, List.getElem?_append_right (Nat.le_add_right ..), Nat.add_sub_cancel_left, List.getElem?_eq_getElem hi]
    rw [← (Operation.rebaseRecord_eq_some hrecord).2, e'.log.wellFormed.seq_eq _ _ hat]
    exact Nat.le_add_right ..
  · intro seq hseq
    unfold tipAsOf
    rw [OpLog.refsAt_of_append htail.symm hseq]

/-- A rebase that is undone stays in the history, with the tip as of its time. -/
theorem history_stands_undone : ∃ (e : RebaseEngine) (log' : OpLog) (r : RebaseRecord),
    e.log.undo = .ok log' ∧ log'.refsNow[['c']]? = none ∧
      r ∈ ((⟨e.repo, log', e.graph⟩ : RebaseEngine).history ['c']).rebases ∧
      (⟨e.repo, log', e.graph⟩ : RebaseEngine).tipAsOf ['c'] r.seq = some r.newTip := by
  obtain ⟨out, e, hcall⟩ := first_succeeds
  rcases @autoRebase_cases _ _ (itemOf ['c'] ['x']) _ _ hcall with ⟨⟨err, heq⟩, -⟩ | ⟨replayed, -, hrecords⟩
  · cases heq
  · obtain ⟨conflicts, hlog⟩ := hrecords.log_eq
    have hops : e.log.ops = [] ++ [⟨0, .rebase ['c'] (textCommit ['x']) replayed (textCommit ['y']) conflicts, none, none⟩] :=
      congrArg OpLog.ops hlog
    obtain ⟨log', hundo, hops', hrefs⟩ := e.log.undo_eq hops
    have hnow : log'.refsNow = ∅ := (Option.some.inj hrefs).symm
    have hstands := @history_stands .ofSha256 e _ (.single (.log e log' (.undo _ _ hundo))) ['c']
    have hmem : ⟨0, textCommit ['x'], replayed, textCommit ['y'], conflicts⟩ ∈
        ((⟨e.repo, log', e.graph⟩ : RebaseEngine).history ['c']).rebases := by
      obtain ⟨later, hlater, -⟩ := hstands.1
      rw [hlater]
      refine List.mem_append_left _ ?_
      unfold history
      rw [hops]
      simp [Operation.rebaseRecord]
    exact ⟨e, log', _, hundo, by rw [hnow]; rfl, hmem, hstands.2.2.1 _ hmem⟩

/-! ## What is told -/

/-- A rebase that replayed: what was asked for, and the commit of what was made. -/
structure Replay where
  item : StackItem
  onto : CommitId
  replayed : CommitId

/-- The rebases on an engine that replayed, with calls between them whose commits are not stored as text, and
    others who write to the store. -/
inductive Replayed (sha256 : List UInt8 → ObjectId) (start : RebaseEngine) : List Replay → RebaseEngine → Prop
  | start : Replayed sha256 start [] start
  | replay {done : List Replay} {e e' : RebaseEngine} (h : Replayed sha256 start done e) (p : Replay)
      (r : Except WorkError RebaseOutcome) (hreplays : Replays sha256 e.repo p.item p.onto p.replayed)
      (hcall : e.autoRebase sha256 p.item.change p.item.base p.item.tip p.onto = .ok (r, e')) :
      Replayed sha256 start (done ++ [p]) e'
  | failed {done : List Replay} {e e' : RebaseEngine} (h : Replayed sha256 start done e) (item : StackItem)
      (onto : CommitId) (r : Except WorkError RebaseOutcome)
      (hnone : ∀ replayed, ¬ Replays sha256 e.repo item onto replayed)
      (hcall : e.autoRebase sha256 item.change item.base item.tip onto = .ok (r, e')) : Replayed sha256 start done e'
  | store {done : List Replay} {e : RebaseEngine} (h : Replayed sha256 start done e) (repo : Repository) :
      Replayed sha256 start done ⟨repo, e.log, e.graph⟩

/-- What a record tells of a rebase that was made as the operation at `seq`. -/
def Replay.told (change : ChangeId) : Replay × Nat → Option (Nat × CommitId × CommitId × CommitId)
  | (p, seq) => if p.item.change = change then some (seq, p.item.tip, p.replayed, p.onto) else none

/-- The operation of a rebase is recorded whatever the change graph makes of it. -/
theorem ops_of_replays {e e' : RebaseEngine} {p : Replay} {r : Except WorkError RebaseOutcome}
    (hreplays : Replays sha256 e.repo p.item p.onto p.replayed)
    (hcall : e.autoRebase sha256 p.item.change p.item.base p.item.tip p.onto = .ok (r, e')) :
    ∃ conflicts, e'.log.ops = e.log.ops ++
      [⟨e.log.nextSeq, .rebase p.item.change p.item.tip p.replayed p.onto conflicts, none, none⟩] := by
  rcases autoRebase_cases hcall with ⟨-, hnone⟩ | ⟨replayed, hreplays', hrecords⟩
  · exact absurd hreplays (hnone _)
  · obtain ⟨conflicts, hlog⟩ := hrecords.log_eq
    rw [hreplays.unique hreplays']
    exact ⟨conflicts, congrArg OpLog.ops hlog⟩

theorem Replayed.tells {repo : Repository} {done : List Replay} {e : RebaseEngine}
    (h : Replayed sha256 (.withLog repo .new) done e) (change : ChangeId) :
    e.log.nextSeq = done.length ∧ (∀ op ∈ e.log.ops, op.kind.IsRebase) ∧
    (e.history change).rebases.map (fun r => (r.seq, r.oldTip, r.newTip, r.onto)) =
      done.zipIdx.filterMap (Replay.told change) := by
  induction h with
  | start => exact ⟨rfl, by simp [withLog, OpLog.new], rfl⟩
  | @replay done e e' h p r hreplays hcall ih =>
      obtain ⟨hlength, hrebases, htold⟩ := ih
      obtain ⟨conflicts, hops⟩ := ops_of_replays hreplays hcall
      refine ⟨?_, ?_, ?_⟩
      · rw [OpLog.nextSeq, hops, List.length_append, List.length_append, ← hlength]
        rfl
      · intro op hop
        rw [hops] at hop
        rcases List.mem_append.mp hop with hop | hop
        · exact hrebases op hop
        · rw [List.mem_singleton.mp hop]
          exact ⟨_, _, _, _, _, rfl⟩
      · unfold history at htold ⊢
        rw [hops, List.filterMap_append, List.map_append, htold, List.zipIdx_append, List.filterMap_append, Nat.zero_add,
          ← hlength]
        congr 1
        by_cases hc : p.item.change = change
        · simp [Operation.rebaseRecord, Replay.told, hc]
        · simp [Operation.rebaseRecord, Replay.told, hc]
  | failed h item onto r hnone hcall ih =>
      rcases autoRebase_cases hcall with ⟨⟨err, heq⟩, -⟩ | ⟨replayed, hreplays, -⟩
      · cases heq
        exact ih
      · exact absurd hreplays (hnone _)
  | store h repo ih => exact ih

/-- On an engine that only rebases, the history of a change has a record for each of its rebases that replayed,
    also for one that the change graph refused, and no other. As of any time the tip is the new tip of the last
    record by then. -/
theorem history_tells {repo : Repository} {done : List Replay} {e : RebaseEngine}
    (h : Replayed sha256 (.withLog repo .new) done e) (change : ChangeId) :
    (e.history change).rebases.map (fun r => (r.seq, r.oldTip, r.newTip, r.onto)) =
      done.zipIdx.filterMap (Replay.told change) ∧
    ∀ seq, e.tipAsOf change seq =
      ((e.history change).rebases.filter fun r => decide (r.seq ≤ seq)).getLast?.map RebaseRecord.newTip := by
  obtain ⟨-, hrebases, htold⟩ := h.tells change
  refine ⟨htold, fun seq => ?_⟩
  have hfirst : ∀ op ∈ (e.log.truncate (seq + 1)).ops, op.kind.IsRebase :=
    fun op hop => hrebases op (List.mem_of_mem_take hop)
  unfold tipAsOf history
  rw [OpLog.refsAt_eq_truncate, OpLog.getElem?_refsNow_of_rebases hfirst, OpLog.records_truncate]

/-- One rebase, and the tip as of its time. -/
theorem history_tells_first : ∃ (e : RebaseEngine) (replayed : CommitId),
    (e.history ['c']).rebases.map (fun r => (r.seq, r.oldTip, r.newTip, r.onto)) =
      [(0, textCommit ['x'], replayed, textCommit ['y'])] ∧
    ∀ seq, e.tipAsOf ['c'] seq = some replayed := by
  obtain ⟨out, e, hcall⟩ := first_succeeds
  rcases @autoRebase_cases _ _ (itemOf ['c'] ['x']) _ _ hcall with ⟨⟨err, heq⟩, -⟩ | ⟨replayed, hreplays, -⟩
  · cases heq
  · obtain ⟨htold, htip⟩ := history_tells
      (.replay .start ⟨itemOf ['c'] ['x'], textCommit ['y'], replayed⟩ _ hreplays hcall) ['c']
    have hone : (e.history ['c']).rebases.map (fun r => (r.seq, r.oldTip, r.newTip, r.onto)) =
        [(0, textCommit ['x'], replayed, textCommit ['y'])] := htold
    refine ⟨e, replayed, hone, fun seq => ?_⟩
    obtain ⟨r, hr, hrecord⟩ := List.map_eq_singleton_iff.mp hone
    obtain ⟨hseq, -, hnew, -⟩ : r.seq = 0 ∧ r.oldTip = _ ∧ r.newTip = replayed ∧ r.onto = _ := by
      simpa only [Prod.mk.injEq] using hrecord
    rw [htip, hr]
    simp [hseq, hnew]

end RebaseEngine

end Omoplata
