-- SUMMARY: Landing on a shared change graph and log: what a refused landing has changed, and which batches overlap.
import Omoplata.Work.Queue

/-!
# Landings in place

The landing functions mutate the change graph and the log they are given. Here what
they did stays when they fail, so that a refused landing can be compared with one
that never ran. A batch first looks for two submissions whose supports overlap.
-/

namespace Omoplata

/-- The change graph and the log a landing mutates. -/
structure Ledger where
  graph : ChangeGraph
  log : OpLog

namespace Ledger

/-- The loop that lands the changes one by one. -/
def landChanges (policy : QueuePolicy) :
    List ChangeId → List ChangeId → Ledger → Except WorkError (List ChangeId) × Ledger
  | [], landed, s => (.ok landed, s)
  | id :: ids, landed, s =>
      match s.graph.change id with
      | none => (.error (.unknownChange id), s)
      | some change =>
          match publishChange s.graph id change with
          | .error e => (.error e, s)
          | .ok g =>
              landChanges policy ids (landed ++ [id])
                ⟨g, s.log.setRef (queueRef policy.name id) (g.tip id) (some (landNote policy id))⟩

/-- Land a submission into a queue, applying the queue's policy. -/
def landSubmissionInQueue (submission : Submission) (policy : QueuePolicy) (gates : QueueGates)
    (s : Ledger) : Except WorkError LandResult × Ledger :=
  if policy.requireApproval && !submission.isApproved then
    (.error (.submissionNotApproved submission.id), s)
  else if gates.carriedValues > 0 && !policy.allowCarried then
    (.error (.queueCarriedRefused policy.name gates.carriedValues), s)
  else if policy.validate.isSome && gates.validated != some true then
    (.error (.queueValidationFailed policy.name (refusalReason gates)), s)
  else
    match landChanges policy submission.changes [] s with
    | (.error e, s) => (.error e, s)
    | (.ok landed, s) => (.ok ⟨submission.id, landed, landMessage submission policy gates⟩, s)

/-- The loop that lands the submissions of a batch. -/
def landEach (policy : QueuePolicy) (gates : QueueGates) :
    List Submission → List LandResult → Ledger → Except WorkError (List LandResult) × Ledger
  | [], results, s => (.ok results, s)
  | sub :: subs, results, s =>
      match s.landSubmissionInQueue sub policy gates with
      | (.error e, s) => (.error e, s)
      | (.ok result, s) => landEach policy gates subs (results ++ [result]) s

/-- Land several submissions as one batch: approvals first, then the supports, then the
    gates on the batch as a whole. -/
def landBatchInQueue (submissions : List Submission) (policy : QueuePolicy) (gates : BatchGates)
    (s : Ledger) : Except WorkError (List LandResult) × Ledger :=
  match submissions.find? fun sub => policy.requireApproval && !sub.isApproved with
  | some sub => (.error (.submissionNotApproved sub.id), s)
  | none =>
      match firstOverlap gates.manifests with
      | some e => (.error e, s)
      | none =>
          let single : QueueGates := ⟨gates.carriedValues, gates.validated⟩
          if gates.carriedValues > 0 && !policy.allowCarried then
            (.error (.queueCarriedRefused policy.name gates.carriedValues), s)
          else if policy.validate.isSome && gates.validated != some true then
            (.error (.queueValidationFailed policy.name (refusalReason single)), s)
          else landEach policy single submissions [] s

/-! ## What the loop has landed -/

section
variable {policy : QueuePolicy} {gates : QueueGates}

/-- One turn of the loop on a change that is there: the change graph keeps the changes it
    knows, and the log has one more operation. -/
theorem landChanges_known {s : Ledger} {id : ChangeId} (h : (s.graph.change id).isSome)
    (ids landed : List ChangeId) :
    ∃ s₁ : Ledger, (∀ c, (s₁.graph.change c).isSome = (s.graph.change c).isSome) ∧
      s₁.log.ops.length = s.log.ops.length + 1 ∧
      landChanges policy (id :: ids) landed s = landChanges policy ids (landed ++ [id]) s₁ := by
  obtain ⟨change, hc⟩ := Option.isSome_iff_exists.mp h
  obtain ⟨g, hpub⟩ := publishChange_isOk hc
  refine ⟨⟨g, s.log.setRef (queueRef policy.name id) (g.tip id) (some (landNote policy id))⟩,
    fun c => (publishChange_ok hpub c).2, ?_, by simp only [landChanges, hc, hpub]⟩
  simp [OpLog.setRef, OpLog.append, OpLog.appendAt]

theorem landChanges_unknown {s : Ledger} {id : ChangeId} (h : s.graph.change id = none)
    (ids landed : List ChangeId) :
    landChanges policy (id :: ids) landed s = (.error (.unknownChange id), s) := by
  simp only [landChanges, h]

/-- The loop has landed the changes before the first one the graph does not know: the log
    has an operation for each of them. -/
theorem landChanges_length (ids landed : List ChangeId) (s : Ledger) :
    (landChanges policy ids landed s).2.log.ops.length =
      s.log.ops.length + (ids.takeWhile fun c => (s.graph.change c).isSome).length := by
  induction ids generalizing landed s with
  | nil => rfl
  | cons id ids ih =>
      cases hc : (s.graph.change id).isSome with
      | false =>
          rw [landChanges_unknown (by simpa using hc), List.takeWhile_cons_of_neg (by simp [hc])]
          rfl
      | true =>
          obtain ⟨s₁, hknown, hlog, hland⟩ := @landChanges_known policy s id hc ids landed
          rw [hland, ih, hlog]
          simp only [hknown, List.takeWhile_cons, hc, if_true, List.length_cons]
          omega

/-- The loop ends well exactly where the graph knows every change. -/
theorem landChanges_isOk_iff (ids landed : List ChangeId) (s : Ledger) :
    (∃ out, (landChanges policy ids landed s).1 = .ok out) ↔
      ∀ c ∈ ids, (s.graph.change c).isSome := by
  induction ids generalizing landed s with
  | nil => simp [landChanges]
  | cons id ids ih =>
      cases hc : (s.graph.change id).isSome with
      | false =>
          rw [landChanges_unknown (by simpa using hc)]
          simp [hc]
      | true =>
          obtain ⟨s₁, hknown, -, hland⟩ := @landChanges_known policy s id hc ids landed
          rw [hland, ih]
          simp [hknown, hc]

/-- Where the loop fails it has changed nothing exactly if it failed on the first change. -/
theorem landChanges_unchanged_iff {ids landed : List ChangeId} {s s' : Ledger} {e : WorkError}
    (h : landChanges policy ids landed s = (.error e, s')) :
    s' = s ↔ ∃ c, ids.head? = some c ∧ s.graph.change c = none := by
  constructor
  · rintro rfl
    have hlength := @landChanges_length policy ids landed s'
    cases ids with
    | nil => simp [landChanges] at h
    | cons id ids =>
        refine ⟨id, rfl, ?_⟩
        rw [h] at hlength
        cases hc : s'.graph.change id with
        | none => rfl
        | some change => simp [hc] at hlength
  · rintro ⟨c, hhead, hc⟩
    cases ids with
    | nil => simp at hhead
    | cons id ids =>
        obtain rfl : id = c := by simpa using hhead
        rw [landChanges_unknown hc, Prod.mk.injEq] at h
        exact h.2.symm

/-! ## The same landing without a state to keep -/

/-- The loop gives what it gives as a function of the graph and the log. -/
theorem landChanges_eq (ids landed : List ChangeId) (s : Ledger) :
    Omoplata.landChanges policy ids s.graph s.log landed =
      (landChanges policy ids landed s).1.map fun out =>
        (out, (landChanges policy ids landed s).2.graph, (landChanges policy ids landed s).2.log) := by
  induction ids generalizing landed s with
  | nil => rfl
  | cons id ids ih =>
      unfold Omoplata.landChanges landChanges
      cases hc : s.graph.change id with
      | none => rfl
      | some change =>
          obtain ⟨g, hpub⟩ := publishChange_isOk hc
          simp only [hpub, bind, Except.bind]
          exact ih (landed ++ [id]) ⟨g, _⟩

theorem landSubmissionInQueue_eq (submission : Submission) (s : Ledger) :
    Omoplata.landSubmissionInQueue submission policy gates s.graph s.log =
      (s.landSubmissionInQueue submission policy gates).1.map fun result =>
        (result, (s.landSubmissionInQueue submission policy gates).2.graph,
          (s.landSubmissionInQueue submission policy gates).2.log) := by
  unfold Omoplata.landSubmissionInQueue landSubmissionInQueue
  split
  · rfl
  · split
    · rfl
    · split
      · rfl
      · rw [landChanges_eq]
        cases hland : landChanges policy submission.changes [] s with
        | mk r s' =>
            cases r with
            | error e => rfl
            | ok landed => rfl

/-! ## One submission -/

/-- The graph knows every change, or fails on the first one. -/
def Unbroken (g : ChangeGraph) (ids : List ChangeId) : Prop :=
  (∀ c ∈ ids, (g.change c).isSome) ∨ ∃ c, ids.head? = some c ∧ g.change c = none

theorem landSubmissionInQueue_of_not_pass {submission : Submission}
    (h : ¬ GatesPass policy gates submission) (s : Ledger) :
    ∃ e, s.landSubmissionInQueue submission policy gates = (.error e, s) := by
  unfold landSubmissionInQueue
  split
  · exact ⟨_, rfl⟩
  · rename_i happroved
    split
    · exact ⟨_, rfl⟩
    · rename_i hcarried
      split
      · exact ⟨_, rfl⟩
      · rename_i hvalidated
        rw [Bool.not_eq_true] at happroved hcarried hvalidated
        exact absurd (gatesPass_iff.mpr ⟨happroved, hcarried, hvalidated⟩) h

theorem landSubmissionInQueue_of_pass {submission : Submission}
    (h : GatesPass policy gates submission) (s : Ledger) :
    s.landSubmissionInQueue submission policy gates =
      ((landChanges policy submission.changes [] s).1.map fun landed =>
        ⟨submission.id, landed, landMessage submission policy gates⟩,
        (landChanges policy submission.changes [] s).2) := by
  obtain ⟨happroved, hcarried, hvalidated⟩ := gatesPass_iff.mp h
  unfold landSubmissionInQueue
  simp only [happroved, hcarried, hvalidated, Bool.false_eq_true, if_false]
  cases hland : landChanges policy submission.changes [] s with
  | mk r s' =>
      cases r with
      | error e => rfl
      | ok landed => rfl

/-- The loop, where it fails, leaves the state as it was exactly where the changes are unbroken. -/
theorem landChanges_keeps_iff (ids landed : List ChangeId) (s : Ledger) :
    (∀ e s', landChanges policy ids landed s = (.error e, s') → s' = s) ↔ Unbroken s.graph ids := by
  constructor
  · intro hkeeps
    cases hland : landChanges policy ids landed s with
    | mk r s' =>
        cases r with
        | ok out => exact .inl ((landChanges_isOk_iff ids landed s).mp ⟨out, by rw [hland]⟩)
        | error e => exact .inr ((landChanges_unchanged_iff hland).mp (hkeeps e s' hland))
  · rintro (hknown | hfirst) e s' hland
    · obtain ⟨out, hout⟩ := (@landChanges_isOk_iff policy ids landed s).mpr hknown
      simp [hland] at hout
    · exact (landChanges_unchanged_iff hland).mpr hfirst

theorem landSubmissionInQueue_keeps_iff (submission : Submission) (s : Ledger) :
    (∀ e s', s.landSubmissionInQueue submission policy gates = (.error e, s') → s' = s) ↔
      (GatesPass policy gates submission → Unbroken s.graph submission.changes) := by
  by_cases hpass : GatesPass policy gates submission
  · rw [landSubmissionInQueue_of_pass hpass, ← @landChanges_keeps_iff policy submission.changes [] s]
    cases hland : landChanges policy submission.changes [] s with
    | mk r s' => cases r <;> simp [Except.map, hpass]
  · obtain ⟨e, he⟩ := landSubmissionInQueue_of_not_pass hpass s
    simp only [he, hpass, false_implies, iff_true, Prod.mk.injEq]
    rintro e' s' ⟨-, rfl⟩
    rfl

/-! ## A batch -/

/-- What is landed before the loop does not change what it does. -/
theorem landChanges_landed (ids landed : List ChangeId) (s : Ledger) :
    landChanges policy ids landed s =
      ((landChanges policy ids [] s).1.map (landed ++ ·), (landChanges policy ids [] s).2) := by
  induction ids generalizing landed s with
  | nil => simp [landChanges, Except.map]
  | cons id ids ih =>
      cases hc : (s.graph.change id).isSome with
      | false =>
          rw [landChanges_unknown (by simpa using hc), landChanges_unknown (by simpa using hc)]
          rfl
      | true =>
          obtain ⟨change, hchange⟩ := Option.isSome_iff_exists.mp hc
          obtain ⟨g, hpub⟩ := publishChange_isOk hchange
          simp only [landChanges, hchange, hpub, List.nil_append]
          rw [ih (landed ++ [id]), ih [id]]
          cases (landChanges policy ids [] ⟨g, _⟩).1 with
          | error e => rfl
          | ok out => simp [Except.map]

/-- The loop over two lists of changes is the loop over one and then over the other. -/
theorem landChanges_append (ids ids' landed : List ChangeId) (s : Ledger) :
    landChanges policy (ids ++ ids') landed s =
      match landChanges policy ids landed s with
      | (.error e, s') => (.error e, s')
      | (.ok landed', s') => landChanges policy ids' landed' s' := by
  induction ids generalizing landed s with
  | nil => rfl
  | cons id ids ih =>
      cases hc : s.graph.change id with
      | none => simp only [List.cons_append, landChanges, hc]
      | some change =>
          obtain ⟨g, hpub⟩ := publishChange_isOk hc
          simp only [List.cons_append, landChanges, hc, hpub]
          exact ih (landed ++ [id]) ⟨g, _⟩

/-- Landing each submission of a batch is one loop over all their changes. -/
theorem landEach_eq {subs : List Submission} (hpass : ∀ sub ∈ subs, GatesPass policy gates sub)
    (results : List LandResult) (s : Ledger) :
    (landEach policy gates subs results s).2 =
        (landChanges policy (subs.flatMap Submission.changes) [] s).2 ∧
      ∀ e, (landEach policy gates subs results s).1 = .error e ↔
        (landChanges policy (subs.flatMap Submission.changes) [] s).1 = .error e := by
  induction subs generalizing results s with
  | nil => simp [landEach, landChanges]
  | cons sub subs ih =>
      unfold landEach
      rw [landSubmissionInQueue_of_pass (hpass sub (by simp)), List.flatMap_cons, landChanges_append]
      cases hland : landChanges policy sub.changes [] s with
      | mk r s₁ =>
          cases r with
          | error e => simp [Except.map]
          | ok landed =>
              simp only [Except.map]
              rw [landChanges_landed _ landed]
              obtain ⟨hstate, herror⟩ := ih (fun sub hsub => hpass sub (List.mem_cons_of_mem _ hsub))
                (results ++ [⟨sub.id, landed, landMessage sub policy gates⟩]) s₁
              refine ⟨hstate, fun e => (herror e).trans ?_⟩
              cases (landChanges policy (subs.flatMap Submission.changes) [] s₁).1 with
              | error e => simp [Except.map]
              | ok out => simp [Except.map]

/-- What the gates of a queue let through as a batch. -/
structure BatchPass (policy : QueuePolicy) (gates : BatchGates) (submissions : List Submission) : Prop where
  approved : ∀ sub ∈ submissions, policy.requireApproval = true → sub.isApproved = true
  disjoint : firstOverlap gates.manifests = none
  carried : policy.allowCarried = false → gates.carriedValues = 0
  validated : policy.validate.isSome = true → gates.validated = some true

/-- A batch that passes lets each of its submissions pass. -/
theorem BatchPass.each {gates : BatchGates} {submissions : List Submission}
    (h : BatchPass policy gates submissions) {sub : Submission} (hsub : sub ∈ submissions) :
    GatesPass policy ⟨gates.carriedValues, gates.validated⟩ sub :=
  ⟨h.approved sub hsub, h.carried, h.validated⟩

theorem landBatchInQueue_of_not_pass {gates : BatchGates} {submissions : List Submission}
    (h : ¬ BatchPass policy gates submissions) (s : Ledger) :
    ∃ e, s.landBatchInQueue submissions policy gates = (.error e, s) := by
  unfold landBatchInQueue
  cases hfind : submissions.find? fun sub => policy.requireApproval && !sub.isApproved with
  | some sub => exact ⟨_, rfl⟩
  | none =>
      cases hoverlap : firstOverlap gates.manifests with
      | some e => exact ⟨e, rfl⟩
      | none =>
          simp only
          split
          · exact ⟨_, rfl⟩
          · rename_i hcarried
            split
            · exact ⟨_, rfl⟩
            · rename_i hvalidated
              refine absurd ⟨fun sub hsub hreq => ?_, hoverlap, fun hallow => ?_, fun hval => ?_⟩ h
              · simpa [hreq] using List.find?_eq_none.mp hfind sub hsub
              · simpa [hallow] using hcarried
              · simpa [hval] using hvalidated

theorem landBatchInQueue_of_pass {gates : BatchGates} {submissions : List Submission}
    (h : BatchPass policy gates submissions) (s : Ledger) :
    s.landBatchInQueue submissions policy gates =
      landEach policy ⟨gates.carriedValues, gates.validated⟩ submissions [] s := by
  have happroved : (submissions.find? fun sub => policy.requireApproval && !sub.isApproved) = none := by
    refine List.find?_eq_none.mpr fun sub hsub => ?_
    cases hreq : policy.requireApproval with
    | false => simp
    | true => simp [h.approved sub hsub hreq]
  have hcarried : (decide (gates.carriedValues > 0) && !policy.allowCarried) = false := by
    cases hallow : policy.allowCarried with
    | true => simp
    | false => simp [h.carried hallow]
  have hvalidated : (policy.validate.isSome && gates.validated != some true) = false := by
    cases hval : policy.validate.isSome with
    | false => rfl
    | true => simp [h.validated hval]
  unfold landBatchInQueue
  simp only [happroved, h.disjoint, hcarried, hvalidated, Bool.false_eq_true, if_false]

theorem landBatchInQueue_keeps_iff (gates : BatchGates) (submissions : List Submission) (s : Ledger) :
    (∀ e s', s.landBatchInQueue submissions policy gates = (.error e, s') → s' = s) ↔
      (BatchPass policy gates submissions →
        Unbroken s.graph (submissions.flatMap Submission.changes)) := by
  by_cases hpass : BatchPass policy gates submissions
  · obtain ⟨hstate, herror⟩ :=
      landEach_eq (fun sub hsub => hpass.each hsub) [] s
    rw [landBatchInQueue_of_pass hpass, ← @landChanges_keeps_iff policy _ [] s]
    simp only [hpass, forall_const, Prod.ext_iff, herror, hstate]
  · obtain ⟨e, he⟩ := landBatchInQueue_of_not_pass hpass s
    simp only [he, hpass, false_implies, iff_true, Prod.mk.injEq]
    rintro e' s' ⟨-, rfl⟩
    rfl

/-- A loop that ends well has landed its changes, in their order. -/
theorem landChanges_ok_eq {ids landed out : List ChangeId} {s s' : Ledger}
    (h : landChanges policy ids landed s = (.ok out, s')) : out = landed ++ ids := by
  induction ids generalizing landed s with
  | nil =>
      unfold landChanges at h
      simp only [Prod.mk.injEq, Except.ok.injEq] at h
      rw [← h.1, List.append_nil]
  | cons id ids ih =>
      cases hc : (s.graph.change id).isSome with
      | false => simp [landChanges_unknown (show s.graph.change id = none by simpa using hc)] at h
      | true =>
          obtain ⟨s₁, -, -, hland⟩ := @landChanges_known policy s id hc ids landed
          rw [hland] at h
          simpa using ih h

theorem landEach_ok_eq {gates : QueueGates} {subs : List Submission} {results out : List LandResult}
    {s s' : Ledger} (h : landEach policy gates subs results s = (.ok out, s')) :
    out.map LandResult.landedChanges = results.map LandResult.landedChanges ++ subs.map Submission.changes := by
  induction subs generalizing results s with
  | nil =>
      unfold landEach at h
      simp only [Prod.mk.injEq, Except.ok.injEq] at h
      simp [h.1]
  | cons sub subs ih =>
      unfold landEach at h
      by_cases hpass : GatesPass policy gates sub
      · rw [landSubmissionInQueue_of_pass hpass] at h
        cases hland : landChanges policy sub.changes [] s with
        | mk r s₁ =>
            cases r with
            | error e => simp [hland, Except.map] at h
            | ok landed =>
                simp only [hland, Except.map] at h
                rw [ih h, landChanges_ok_eq hland]
                simp
      · obtain ⟨e, he⟩ := landSubmissionInQueue_of_not_pass hpass s
        simp [he] at h

/-- A batch that lands has landed every change of every submission. -/
theorem landBatchInQueue_ok {gates : BatchGates} {submissions : List Submission} {s s' : Ledger}
    {results : List LandResult}
    (h : s.landBatchInQueue submissions policy gates = (.ok results, s')) :
    results.map LandResult.landedChanges = submissions.map Submission.changes := by
  by_cases hpass : BatchPass policy gates submissions
  · rw [landBatchInQueue_of_pass hpass] at h
    exact landEach_ok_eq h
  · obtain ⟨e, he⟩ := landBatchInQueue_of_not_pass hpass s
    simp [he] at h

end

/-- A refused landing leaves the change graph and the log as they were exactly where a gate
    refuses it, the graph knows every change, or it does not know the first one; a batch
    likewise, over the changes of all its submissions. -/
theorem refused_landing_keeps_iff (submission : Submission) (submissions : List Submission)
    (policy : QueuePolicy) (gates : QueueGates) (batch : BatchGates) (s : Ledger) :
    ((∀ e s', s.landSubmissionInQueue submission policy gates = (.error e, s') → s' = s) ↔
        (GatesPass policy gates submission → Unbroken s.graph submission.changes)) ∧
      (((∀ e s', s.landBatchInQueue submissions policy batch = (.error e, s') → s' = s) ∧
          ∀ results s', s.landBatchInQueue submissions policy batch = (.ok results, s') →
            results.map LandResult.landedChanges = submissions.map Submission.changes) ↔
        (BatchPass policy batch submissions →
          Unbroken s.graph (submissions.flatMap Submission.changes))) := by
  refine ⟨landSubmissionInQueue_keeps_iff submission s, ?_⟩
  rw [← landBatchInQueue_keeps_iff]
  exact and_iff_left fun results s' hland => landBatchInQueue_ok hland

/-- A landing that meets an unknown change behind a known one has published the known one. -/
theorem refused_landing_publishes :
    let s : Ledger := ⟨ChangeGraph.new.addChange ⟨"a".toList, ["t".toList], .draft⟩, .new⟩
    let known : Submission := (Submission.new "s".toList [] ["a".toList] []).approve "r".toList
    let unknown : Submission := (Submission.new "u".toList [] ["b".toList] []).approve "r".toList
    let both : Submission := { known with changes := ["a".toList, "b".toList] }
    let single := s.landSubmissionInQueue both .trunk ⟨0, none⟩
    let batch := s.landBatchInQueue [known, unknown] .trunk ⟨[], 0, none⟩
    s.graph.phaseOf "a".toList = .draft ∧
      ∀ r ∈ [(single.1.toOption.isSome, single.2), (batch.1.toOption.isSome, batch.2)],
        r.1 = false ∧ r.2.graph.phaseOf "a".toList = .published ∧ r.2.log ≠ s.log := by
  decide +kernel

/-! ## Overlaps -/

/-- Every two members of a list, the earlier one first. -/
def pairsOf {α : Type} : List α → List (α × α)
  | [] => []
  | a :: as => as.map (fun b => (a, b)) ++ pairsOf as

theorem mem_pairsOf {α : Type} {as : List α} {a b : α} :
    (a, b) ∈ pairsOf as ↔ [a, b].Sublist as := by
  induction as with
  | nil => simp [pairsOf]
  | cons c as ih =>
      simp only [pairsOf, List.mem_append, List.mem_map, Prod.mk.injEq, ih, List.sublist_cons_iff,
        List.cons.injEq]
      constructor
      · rintro (⟨b', hb', rfl, rfl⟩ | hsub)
        · exact .inr ⟨[b'], ⟨rfl, rfl⟩, List.singleton_sublist.mpr hb'⟩
        · exact .inl hsub
      · rintro (hsub | ⟨r, ⟨rfl, rfl⟩, hsub⟩)
        · exact .inr hsub
        · exact .inl ⟨b, List.singleton_sublist.mp hsub, rfl, rfl⟩

/-- What a submission supports, by path. -/
abbrev Manifest := BTreeMap Str (BTreeSet Str)

/-- Two manifests have a token of a path in common. -/
def Shares (m m' : Manifest) (path token : Str) : Prop :=
  ∃ support support', m[path]? = some support ∧ m'[path]? = some support' ∧
    token ∈ support ∧ token ∈ support'

theorem mem_colliding {m m' : Manifest} {text : Str} :
    text ∈ colliding m m' ↔ ∃ path token, Shares m m' path token ∧ collidingName path token = text := by
  unfold colliding Shares
  simp only [List.mem_flatMap, Prod.exists, Std.ExtTreeMap.mem_toList_iff_getElem?_eq_some]
  constructor
  · rintro ⟨path, support, hm, hmem⟩
    cases hm' : m'[path]? with
    | none => simp [hm'] at hmem
    | some support' =>
        simp only [hm', List.mem_map, List.mem_filter, Std.ExtTreeSet.mem_toList] at hmem
        obtain ⟨token, ⟨htoken, htoken'⟩, htext⟩ := hmem
        exact ⟨path, token, ⟨support, support', hm, hm', htoken, htoken'⟩, htext⟩
  · rintro ⟨path, token, ⟨support, support', hm, hm', htoken, htoken'⟩, htext⟩
    refine ⟨path, support, hm, ?_⟩
    simp only [hm', List.mem_map, List.mem_filter, Std.ExtTreeSet.mem_toList]
    exact ⟨token, ⟨htoken, htoken'⟩, htext⟩

/-- The error for two submissions whose supports overlap. -/
def overlapOf (p : (SubmissionId × Manifest) × (SubmissionId × Manifest)) : Option WorkError :=
  let paths := colliding p.1.2 p.2.2
  if paths.isEmpty then none
  else some (.batchOverlap p.1.1 p.2.1 (paths.mergeSort fun p q => (compare p q).isLE))

theorem firstOverlap_eq (manifests : List (SubmissionId × Manifest)) :
    firstOverlap manifests = (pairsOf manifests).findSome? overlapOf := by
  induction manifests with
  | nil => rfl
  | cons a rest ih =>
      obtain ⟨id, m⟩ := a
      simp only [firstOverlap, pairsOf, List.findSome?_append, List.findSome?_map, ih]
      rfl

theorem overlapOf_eq_none {p : (SubmissionId × Manifest) × (SubmissionId × Manifest)} :
    overlapOf p = none ↔ ∀ path token, ¬ Shares p.1.2 p.2.2 path token := by
  unfold overlapOf
  simp only [ite_eq_left_iff, reduceCtorEq, imp_false, not_not, List.isEmpty_iff,
    List.eq_nil_iff_forall_not_mem]
  constructor
  · exact fun h path token hshares => h _ (mem_colliding.mpr ⟨path, token, hshares, rfl⟩)
  · intro h text htext
    obtain ⟨path, token, hshares, -⟩ := mem_colliding.mp htext
    exact h path token hshares

theorem overlapOf_eq_some {p : (SubmissionId × Manifest) × (SubmissionId × Manifest)} {e : WorkError}
    (h : overlapOf p = some e) :
    ∃ paths, e = .batchOverlap p.1.1 p.2.1 paths ∧ ∀ text, text ∈ paths ↔ text ∈ colliding p.1.2 p.2.2 := by
  unfold overlapOf at h
  simp only at h
  split at h
  · simp at h
  · rw [Option.some.injEq] at h
    exact ⟨_, h.symm, fun text => List.mem_mergeSort⟩

/-- The first two submissions whose manifests share something, with the error for them. -/
theorem firstOverlap_eq_some {manifests : List (SubmissionId × Manifest)} {e : WorkError} :
    firstOverlap manifests = some e ↔
      ∃ pre p post, pairsOf manifests = pre ++ p :: post ∧ overlapOf p = some e ∧
        ∀ q ∈ pre, ∀ path token, ¬ Shares q.1.2 q.2.2 path token := by
  rw [firstOverlap_eq, List.findSome?_eq_some_iff]
  simp only [overlapOf_eq_none]

/-- A loop that fails has met a change the graph does not know. -/
theorem landChanges_error {policy : QueuePolicy} {ids landed : List ChangeId} {s s' : Ledger}
    {e : WorkError} (h : landChanges policy ids landed s = (.error e, s')) :
    ∃ id, e = .unknownChange id := by
  induction ids generalizing landed s with
  | nil => simp [landChanges] at h
  | cons id ids ih =>
      cases hc : (s.graph.change id).isSome with
      | false =>
          rw [landChanges_unknown (by simpa using hc), Prod.mk.injEq, Except.error.injEq] at h
          exact ⟨id, h.1.symm⟩
      | true =>
          obtain ⟨s₁, -, -, hland⟩ := @landChanges_known policy s id hc ids landed
          rw [hland] at h
          exact ih h

/-- A batch whose approvals are there is refused for an overlap exactly where the supports of
    its submissions overlap, and with that error. -/
theorem landBatchInQueue_overlap_iff {submissions : List Submission} {policy : QueuePolicy}
    {gates : BatchGates} {s : Ledger} {a b : SubmissionId} {paths : List Str} :
    (s.landBatchInQueue submissions policy gates).1 = .error (.batchOverlap a b paths) ↔
      (∀ sub ∈ submissions, policy.requireApproval = true → sub.isApproved = true) ∧
        firstOverlap gates.manifests = some (.batchOverlap a b paths) := by
  by_cases hpass : BatchPass policy gates submissions
  · rw [landBatchInQueue_of_pass hpass, (landEach_eq (fun sub hsub => hpass.each hsub) [] s).2,
      hpass.disjoint]
    simp only [reduceCtorEq, and_false, iff_false]
    intro herror
    obtain ⟨id, hid⟩ := landChanges_error (Prod.ext herror rfl)
    simp at hid
  · unfold landBatchInQueue
    cases hfind : submissions.find? fun sub => policy.requireApproval && !sub.isApproved with
    | some sub =>
        have happroved := List.find?_some hfind
        simp only [Bool.and_eq_true, Bool.not_eq_true'] at happroved
        simp only [Except.error.injEq, reduceCtorEq, false_iff, not_and]
        intro hall
        rw [hall sub (List.mem_of_find?_eq_some hfind) happroved.1] at happroved
        simp at happroved
    | none =>
        have happroved : ∀ sub ∈ submissions, policy.requireApproval = true → sub.isApproved = true := by
          intro sub hsub hreq
          simpa [hreq] using List.find?_eq_none.mp hfind sub hsub
        cases hoverlap : firstOverlap gates.manifests with
        | some e => simpa using fun _ => happroved
        | none =>
            simp only [reduceCtorEq, and_false, iff_false]
            split
            · simp
            · split
              · simp
              · rename_i hcarried hvalidated
                refine absurd ⟨happroved, hoverlap, fun hallow => ?_, fun hval => ?_⟩ hpass
                · simpa [hallow] using hcarried
                · simpa [hval] using hvalidated

/-- An overlap error names a path where one of its entries is written with that path. -/
def NamesPath (paths : List Str) (path : Str) : Prop := ∃ token, collidingName path token ∈ paths

/-- The first two submissions of a batch that share anything share something written with
    the path. -/
def FirstSharesAt (manifests : List (SubmissionId × Manifest)) (path : Str) : Prop :=
  ∃ pre p post, pairsOf manifests = pre ++ p :: post ∧
    (∀ q ∈ pre, ∀ path' token, ¬ Shares q.1.2 q.2.2 path' token) ∧
    ∃ path' token token', Shares p.1.2 p.2.2 path' token ∧
      collidingName path' token = collidingName path token'

/-- A batch is refused with an overlap that names a path exactly where its approvals are
    there and the first two submissions that share anything share something at that path. -/
theorem refusedAt_iff {submissions : List Submission} {policy : QueuePolicy} {gates : BatchGates}
    {s : Ledger} {path : Str} :
    (∃ a b paths, (s.landBatchInQueue submissions policy gates).1 = .error (.batchOverlap a b paths) ∧
        NamesPath paths path) ↔
      (∀ sub ∈ submissions, policy.requireApproval = true → sub.isApproved = true) ∧
        FirstSharesAt gates.manifests path := by
  simp only [landBatchInQueue_overlap_iff, firstOverlap_eq_some]
  constructor
  · rintro ⟨a, b, paths, ⟨happroved, pre, p, post, hsplit, hoverlap, hpre⟩, token', hmem⟩
    obtain ⟨paths', heq, htext⟩ := overlapOf_eq_some hoverlap
    simp only [WorkError.batchOverlap.injEq] at heq
    rw [heq.2.2, htext] at hmem
    obtain ⟨path', token, hshares, hname⟩ := mem_colliding.mp hmem
    exact ⟨happroved, pre, p, post, hsplit, hpre, path', token, token', hshares, hname⟩
  · rintro ⟨happroved, pre, p, post, hsplit, hpre, path', token, token', hshares, hname⟩
    cases hoverlap : overlapOf p with
    | none => exact absurd hshares (overlapOf_eq_none.mp hoverlap path' token)
    | some e =>
        obtain ⟨paths, rfl, htext⟩ := overlapOf_eq_some hoverlap
        refine ⟨p.1.1, p.2.1, paths, ⟨happroved, pre, p, post, hsplit, hoverlap, hpre⟩, token', ?_⟩
        rw [htext, ← hname]
        exact mem_colliding.mpr ⟨path', token, hshares, rfl⟩

theorem mem_wholeFileSupport {token : Str} : token ∈ wholeFileSupport ↔ token = wholeFileToken := by
  rw [wholeFileSupport, Std.ExtTreeSet.mem_ofList, List.contains_iff_mem, List.mem_singleton]

/-- A whole file shares something with another support only where that holds the token too. -/
theorem shares_whole_file_iff {m m' : Manifest} {path : Str} {support support' : BTreeSet Str}
    (h : m[path]? = some support) (h' : m'[path]? = some support')
    (hwhole : support = wholeFileSupport ∨ support' = wholeFileSupport) :
    (∃ token, Shares m m' path token) ↔ wholeFileToken ∈ support ∧ wholeFileToken ∈ support' := by
  unfold Shares
  simp only [h, h', Option.some.injEq, exists_and_left, exists_eq_left']
  constructor
  · rintro ⟨token, htoken, htoken'⟩
    have htext : token = wholeFileToken := by
      rcases hwhole with rfl | rfl
      · exact mem_wholeFileSupport.mp htoken
      · exact mem_wholeFileSupport.mp htoken'
    exact ⟨htext ▸ htoken, htext ▸ htoken'⟩
  · exact fun hboth => ⟨_, hboth⟩

/-- Two submissions of a batch with a path in common, one of them by the token of a whole
    file, refuse the batch with an overlap that names the path exactly where the batch is
    approved and the first two of its submissions that share a token share one at that path;
    these two share one there only if both have the token of a whole file; and an overlap is only reported for a path whose supports intersect. -/
theorem whole_file_overlap_iff (submissions : List Submission) (policy : QueuePolicy)
    (gates : BatchGates) (s : Ledger) :
    (∀ a b, [a, b].Sublist gates.manifests → ∀ path support support', a.2[path]? = some support →
        b.2[path]? = some support' → support ≠ ∅ → support' ≠ ∅ →
        (support = wholeFileSupport ∨ support' = wholeFileSupport) →
        ((∃ x y paths, (s.landBatchInQueue submissions policy gates).1 = .error (.batchOverlap x y paths) ∧
            NamesPath paths path) ↔
          (∀ sub ∈ submissions, policy.requireApproval = true → sub.isApproved = true) ∧
            FirstSharesAt gates.manifests path) ∧
        ((∃ token, Shares a.2 b.2 path token) ↔
          wholeFileToken ∈ support ∧ wholeFileToken ∈ support')) ∧
      ∀ x y paths, (s.landBatchInQueue submissions policy gates).1 = .error (.batchOverlap x y paths) →
        ∃ a b, [a, b].Sublist gates.manifests ∧ ∃ (path : Str) (support support' : BTreeSet Str),
          a.2[path]? = some support ∧ b.2[path]? = some support' ∧
            ((∃ token, token ∈ support ∧ token ∈ support') ∨
              support = wholeFileSupport ∨ support' = wholeFileSupport) := by
  refine ⟨fun a b _ path _ _ hsupport hsupport' _ _ hwhole =>
    ⟨refusedAt_iff, shares_whole_file_iff hsupport hsupport' hwhole⟩, fun x y paths h => ?_⟩
  obtain ⟨-, hfirst⟩ := landBatchInQueue_overlap_iff.mp h
  obtain ⟨pre, ⟨x, y⟩, post, hsplit, hoverlap, -⟩ := firstOverlap_eq_some.mp hfirst
  have hpair : (x, y) ∈ pairsOf gates.manifests := by simp [hsplit]
  have hsome : ¬ ∀ path token, ¬ Shares x.2 y.2 path token := fun hnone => by
    rw [@overlapOf_eq_none (x, y) |>.mpr hnone] at hoverlap
    simp at hoverlap
  simp only [not_forall, not_not] at hsome
  obtain ⟨path, token, support, support', hx, hy, htoken, htoken'⟩ := hsome
  exact ⟨x, y, mem_pairsOf.mp hpair, path, support, support', hx, hy, .inl ⟨token, htoken, htoken'⟩⟩

/-- An edit of a whole file and one of a definition in the same file. -/
def wholeFileBatch : BatchGates :=
  ⟨[("s".toList, Std.ExtTreeMap.ofList [("a.rs".toList, wholeFileSupport)]),
    ("u".toList, Std.ExtTreeMap.ofList [("a.rs".toList, Std.ExtTreeSet.ofList ["fn f".toList])])], 0, none⟩

theorem whole_file_overlap_iff_missed :
    let a : SubmissionId × Manifest :=
      ("s".toList, Std.ExtTreeMap.ofList [("a.rs".toList, wholeFileSupport)])
    let b : SubmissionId × Manifest :=
      ("u".toList, Std.ExtTreeMap.ofList [("a.rs".toList, Std.ExtTreeSet.ofList ["fn f".toList])])
    ((∃ token, Shares a.2 b.2 "a.rs".toList token) ↔
      wholeFileToken ∈ wholeFileSupport ∧ wholeFileToken ∈ Std.ExtTreeSet.ofList ["fn f".toList]) := by
  intro a b
  exact ((whole_file_overlap_iff [] .trunk wholeFileBatch ⟨.new, .new⟩).1 a b (List.Sublist.refl _)
    "a.rs".toList wholeFileSupport _ (by decide +kernel) (by decide +kernel) (by decide +kernel)
    (by decide +kernel) (.inl rfl)).2

/-- A whole file and a definition of it land together. -/
theorem whole_file_overlap_missed :
    let s : Ledger := ⟨(ChangeGraph.new.addChange (.draft "a".toList)).addChange (.draft "b".toList), .new⟩
    let sub : Submission := (Submission.new "s".toList [] ["a".toList] []).approve "r".toList
    let sub' : Submission := (Submission.new "u".toList [] ["b".toList] []).approve "r".toList
    (s.landBatchInQueue [sub, sub'] .trunk wholeFileBatch).1.toOption.isSome = true ∧
      ∃ a b, [a, b].Sublist wholeFileBatch.manifests ∧ a.2["a.rs".toList]? = some wholeFileSupport ∧
        ∃ support, support ≠ ∅ ∧ b.2["a.rs".toList]? = some support := by
  intro s sub sub'
  refine ⟨by decide +kernel, _, _, List.Sublist.refl _, by decide +kernel,
    Std.ExtTreeSet.ofList ["fn f".toList], by decide +kernel, by decide +kernel⟩

end Ledger

end Omoplata
