-- SUMMARY: What landings publish: the tips of their changes, where every change has one.
import Omoplata.Cli.Gates

/-!
# Publication

A landing enters a change that has no ref into its graph as an empty draft. Such a change
has no tip, and setting its public ref to no tip deletes it.
-/

namespace Omoplata

/-- The changes of a landing are public at their tips, and every public ref is still there. -/
structure Publishes (queue : Str) (changes : List ChangeId) (tip : ChangeId → Option CommitId)
    (before after : Refs) : Prop where
  published : ∀ c ∈ changes, ∃ t, tip c = some t ∧ after[queueRef queue c]? = some t
  kept : ∀ name, publicSpace <+: name → before[name]?.isSome = true → after[name]?.isSome = true

/-- A landing of `changes` finds a snapshot of a change: its ref, or the tree of a dirty
    workspace that the landing snapshots into it. -/
def Repo.HasSnapshot (host : Host) (repo : Repo) (changes : List ChangeId) (c : ChangeId) : Prop :=
  repo.log.refsNow[c]?.isSome = true ∨
    ∃ ws ∈ workspacesOf repo.workspaces changes,
      ws.change = c ∧ ws.dirtyAt host.treeId repo.dirs repo.log.refsNow = true

/-- Refs that a landing set to the tips of its changes publish them exactly where all have one. -/
theorem publishes_iff {queue : Str} {changes : List ChangeId} {tip : ChangeId → Option CommitId}
    {before after : Refs} (hset : ∀ c ∈ changes, after[queueRef queue c]? = tip c)
    (hframe : ∀ name, publicSpace <+: name → (∀ c ∈ changes, name ≠ queueRef queue c) →
      before[name]?.isSome = true → after[name]?.isSome = true) :
    Publishes queue changes tip before after ↔ ∀ c ∈ changes, (tip c).isSome = true := by
  constructor
  · intro h c hc
    obtain ⟨t, ht, -⟩ := h.published c hc
    rw [ht, Option.isSome_some]
  · intro h
    refine ⟨fun c hc => ?_, fun name hpublic hbefore => ?_⟩
    · obtain ⟨t, ht⟩ := Option.isSome_iff_exists.mp (h c hc)
      exact ⟨t, ht, (hset c hc).trans ht⟩
    · by_cases hlanded : ∃ c ∈ changes, name = queueRef queue c
      · obtain ⟨c, hc, rfl⟩ := hlanded
        rw [hset c hc]
        exact h c hc
      · simp only [not_exists, not_and] at hlanded
        exact hframe name hpublic hlanded hbefore

theorem landSubmissionInQueue_publishes_iff {submission : Submission} {policy : QueuePolicy}
    {gates : QueueGates} {g g' : ChangeGraph} {log log' : OpLog} {result : LandResult}
    (h : landSubmissionInQueue submission policy gates g log = .ok (result, g', log')) :
    Publishes policy.name submission.changes g.tip log.refsNow log'.refsNow ↔
      ∀ c ∈ submission.changes, (g.tip c).isSome = true := by
  obtain ⟨-, landed, hland⟩ := landSubmissionInQueue_ok h
  obtain ⟨-, hset, hframe⟩ := landChanges_ok hland
  apply publishes_iff
  · exact fun c hc => (hset c hc).2
  · intro name _ hname hbefore
    rw [hframe name hname]
    exact hbefore

theorem isSome_snapshotSection {host : Host} {repo : Repo} {changes : List ChangeId} {c : ChangeId} :
    ((repo.snapshotSection host changes).log.refsNow[c]?).isSome = true ↔
      repo.HasSnapshot host changes c :=
  isSome_foldl_trySnapshot host.treeId repo.dirs

theorem head?_publicSpace {name : Str} (h : publicSpace <+: name) : name.head? = some 'p' := by
  obtain ⟨rest, rfl⟩ := h
  rfl

theorem cmdLand_publishes_iff {host : Host} {repo repo' : Repo} {ids : List SubmissionId} {queue : Str}
    {results : List LandResult} (h : cmdLand host repo ids queue = (.ok results, repo')) :
    ∃ policy subs, landRequest repo ids queue = .ok (policy, subs) ∧
      let changes := subs.flatMap Submission.changes
      (Publishes queue changes ((repo.snapshotSection host changes).log.refsNow[·]?) repo.log.refsNow
          repo'.log.refsNow ↔ ∀ c ∈ changes, repo.HasSnapshot host changes c) := by
  rcases cmdLand_cases host repo ids queue with
    ⟨e, hfail⟩ | ⟨policy, subs, hreq, ⟨e, store, hfail⟩ | ⟨plan, store, results', log', hplan, hcommit, hdone⟩⟩
  · rw [hfail] at h
    cases h
  · rw [hfail] at h
    cases h
  · rw [hdone] at h
    cases h
    refine ⟨policy, subs, hreq, ?_⟩
    intro changes
    obtain ⟨rfl, rfl, htip⟩ := planLanding_ok hplan
    obtain ⟨-, hset, -, hframe⟩ := commitLanding_ok hcommit
    rw [QueueRegistry.resolve_name (landRequest_ok hreq).1] at hset hframe
    simp only [← isSome_snapshotSection]
    apply publishes_iff
    · intro c hc
      obtain ⟨sub, hsub, hc⟩ := List.mem_flatMap.mp hc
      obtain ⟨hsome, hc⟩ := hset sub hsub c hc
      exact hc.trans (htip c hsome)
    · intro name hpublic hname hbefore
      rw [hframe name]
      · exact isSome_snapshotSection.mpr (.inl hbefore)
      · rintro rfl
        have hhead := head?_publicSpace hpublic
        rw [head?_reconciledRef] at hhead
        exact absurd hhead (by decide)
      · exact fun sub hsub c hc => hname c (List.mem_flatMap.mpr ⟨sub, hsub, hc⟩)

/-- Landings publish content, and delete no public ref, exactly where every change they land
    has a snapshot. -/
theorem land_publishes_iff (host : Host) (repo : Repo) :
    (∀ ids queue results repo', cmdLand host repo ids queue = (.ok results, repo') →
      ∃ policy subs, landRequest repo ids queue = .ok (policy, subs) ∧
        let changes := subs.flatMap Submission.changes
        (Publishes queue changes ((repo.snapshotSection host changes).log.refsNow[·]?) repo.log.refsNow
            repo'.log.refsNow ↔ ∀ c ∈ changes, repo.HasSnapshot host changes c)) ∧
    ∀ submission policy gates g g' log log' result,
      landSubmissionInQueue submission policy gates g log = .ok (result, g', log') →
        (Publishes policy.name submission.changes g.tip log.refsNow log'.refsNow ↔
          ∀ c ∈ submission.changes, (g.tip c).isSome = true) :=
  ⟨fun _ _ _ _ => cmdLand_publishes_iff, fun _ _ _ _ _ _ _ _ => landSubmissionInQueue_publishes_iff⟩

/-- A repository with a submission of one change that has been landed on the trunk. -/
def landedOnce : Repo :=
  { emptyRepo with
    store := (Store.write sampleHost.treeId ⟨∅⟩ (emptyFiles ["a".toList])).2
    log := (OpLog.new.append (.commit "w".toList "c".toList
        (sampleHost.treeId (emptyFiles ["a".toList])).toText none none) none nofun).setRef
      "public/c".toList (some (sampleHost.treeId (emptyFiles ["a".toList])).toText) none
    submissions := (∅ : BTreeMap SubmissionId Submission).insert "s".toList
      (approvedSubmission "s".toList ["c".toList]) }

/-- Landing it once more publishes its tip again. -/
theorem land_publishes_iff_again :
    ∃ policy subs, landRequest landedOnce ["s".toList] "trunk".toList = .ok (policy, subs) ∧
      let changes := subs.flatMap Submission.changes
      (Publishes "trunk".toList changes ((landedOnce.snapshotSection sampleHost changes).log.refsNow[·]?)
          landedOnce.log.refsNow (cmdLand sampleHost landedOnce ["s".toList] "trunk".toList).2.log.refsNow ↔
        ∀ c ∈ changes, landedOnce.HasSnapshot sampleHost changes c) := by
  have hok : (cmdLand sampleHost landedOnce ["s".toList] "trunk".toList).1 =
      .ok [⟨"s".toList, ["c".toList], "Submission s landed in queue trunk".toList⟩] := by
    decide +kernel
  exact (land_publishes_iff sampleHost landedOnce).1 ["s".toList] "trunk".toList _ _ (Prod.ext hok rfl)

/-- With its commit undone the change has no snapshot: landing it once more succeeds and
    deletes its public ref. -/
theorem land_deletes_public :
    let repo := { landedOnce with log := landedOnce.log.append (.undo 0) none (by decide +kernel) }
    let after := cmdLand sampleHost repo ["s".toList] "trunk".toList
    after.1.isOk = true ∧ repo.log.refsNow["c".toList]? = none ∧
      repo.log.refsNow["public/c".toList]? = some (sampleHost.treeId (emptyFiles ["a".toList])).toText ∧
      after.2.log.refsNow["public/c".toList]? = none := by
  decide +kernel

end Omoplata
