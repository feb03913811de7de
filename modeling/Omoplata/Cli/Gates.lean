-- SUMMARY: What the facts a landing observes say about the content it lands.
import Omoplata.Cli.Land

/-!
# The gates

A landing is let through on facts observed about a directory. These results say
what the directory holds and what the facts say about it: every tip that is an
object id is checked out into it, and on a strict queue none of its Rust files
carries a conflict value.
-/

namespace Omoplata

/-! ## The tips -/

/-- Entering tips into a graph: what it then says about a change comes from one of the
    entries, and each tip that is an object id is among those to observe. -/
theorem foldlM_addTip_ok {entries : List (ChangeId × Option CommitId)}
    {s s' : ChangeGraph × List ObjectId} (h : entries.foldlM addTip s = .ok s') :
    s'.1.supersededBy = s.1.supersededBy ∧ s.2 ⊆ s'.2 ∧
      (∀ e ∈ entries, ∀ tip, e.2 = some tip → ∃ r, parseTip tip = .ok r ∧ ∀ id ∈ r, id ∈ s'.2) ∧
      ∀ c, s'.1.change c = s.1.change c ∨
        ∃ t, (c, t) ∈ entries ∧ s'.1.change c = some ⟨c, t.toList, .draft⟩ := by
  induction entries generalizing s with
  | nil =>
      obtain rfl : s = s' := by simpa [pure, Except.pure] using h
      simp
  | cons e entries ih =>
      rw [List.foldlM_cons] at h
      cases hstep : addTip s e with
      | error err => simp [hstep, bind, Except.bind] at h
      | ok s₁ =>
          simp only [hstep, bind, Except.bind] at h
          -- one entry adds a change with its tip as the only revision
          have hs₁ : s₁.1 = s.1.addChange ⟨e.1, e.2.toList, .draft⟩ ∧ s.2 ⊆ s₁.2 ∧
              ∀ tip, e.2 = some tip → ∃ r, parseTip tip = .ok r ∧ ∀ id ∈ r, id ∈ s₁.2 := by
            unfold addTip at hstep
            cases he : e.2 with
            | none =>
                simp only [he, pure, Except.pure, Except.ok.injEq] at hstep
                subst hstep
                simp [Change.draft]
            | some tip =>
                simp only [he] at hstep
                cases hparse : parseTip tip with
                | error err => simp [hparse, bind, Except.bind] at hstep
                | ok r =>
                    simp only [hparse, bind, Except.bind, pure, Except.pure, Except.ok.injEq] at hstep
                    subst hstep
                    refine ⟨rfl, List.subset_append_left _ _, fun tip' htip => ?_⟩
                    obtain rfl : tip = tip' := Option.some.inj htip
                    exact ⟨r, hparse, fun id hid => List.mem_append_right _ (by simpa using hid)⟩
          obtain ⟨hgraph, hsub, htip⟩ := hs₁
          obtain ⟨hsup, hsub', htips, hchange⟩ := ih h
          refine ⟨by rw [hsup, hgraph]; rfl, List.Subset.trans hsub hsub', ?_, fun c => ?_⟩
          · intro e' he' tip ht
            rcases List.mem_cons.mp he' with rfl | hin
            · obtain ⟨r, hr, hids⟩ := htip tip ht
              exact ⟨r, hr, fun id hid => hsub' (hids id hid)⟩
            · exact htips e' hin tip ht
          -- a change that comes later in the list replaces an earlier one of its name
          · rcases hchange c with hsame | ⟨t, ht, hc⟩
            · by_cases hec : e.1 = c
              · refine .inr ⟨e.2, by rw [← hec]; simp, ?_⟩
                rw [hsame, hgraph, ← hec]
                simp [ChangeGraph.change, ChangeGraph.addChange]
              · refine .inl (hsame.trans ?_)
                rw [hgraph]
                simp [ChangeGraph.change, ChangeGraph.addChange, BTreeMap.getElem?_insert, hec]
            · exact .inr ⟨t, List.mem_cons_of_mem _ ht, hc⟩

/-- The graph a local landing reads has every change at its tip in the refs. -/
theorem readTips_ok {refs : Refs} {subs : List Submission} {g : ChangeGraph}
    {subTips : List (SubmissionId × List ObjectId)} (h : readTips refs subs = .ok (g, subTips)) :
    ∀ c, (g.change c).isSome → g.tip c = refs[c]? := by
  have hloop : ∀ (subs : List Submission) (s : ChangeGraph × List (SubmissionId × List ObjectId)),
      subs.foldlM (readTip refs) s = .ok (g, subTips) →
      s.1.supersededBy = ∅ → (∀ c, s.1.change c = none ∨ s.1.change c = some ⟨c, refs[c]?.toList, .draft⟩) →
      g.supersededBy = ∅ ∧ ∀ c, g.change c = none ∨ g.change c = some ⟨c, refs[c]?.toList, .draft⟩ := by
    intro subs
    induction subs with
    | nil =>
        intro s hs hsup hchanges
        obtain rfl : s = (g, subTips) := by simpa [pure, Except.pure] using hs
        exact ⟨hsup, hchanges⟩
    | cons sub subs ih =>
        intro s hs hsup hchanges
        rw [List.foldlM_cons] at hs
        cases hfold : (sub.changes.map fun c => (c, refs[c]?)).foldlM addTip (s.1, []) with
        | error e => simp [readTip, hfold, bind, Except.bind] at hs
        | ok r =>
            simp only [readTip, hfold, bind, Except.bind, pure, Except.pure] at hs
            obtain ⟨hsup', -, -, hchange⟩ := foldlM_addTip_ok hfold
            refine ih _ hs (hsup'.trans hsup) fun c => ?_
            rcases hchange c with hsame | ⟨t, ht, hc⟩
            · exact hsame ▸ hchanges c
            · obtain ⟨c', -, heq⟩ := List.mem_map.mp ht
              obtain ⟨rfl, rfl⟩ := Prod.mk.inj heq
              exact .inr hc
  obtain ⟨hsup, hchanges⟩ := hloop subs _ h rfl fun c => .inl (by simp [ChangeGraph.change, ChangeGraph.new])
  intro c hsome
  have hc := (hchanges c).resolve_left fun hnone => by simp [hnone] at hsome
  rw [ChangeGraph.tip_of_not_superseded hsup]
  refine (congrArg (·.bind fun change => change.revisions.head?) hc).trans ?_
  cases refs[c]? <;> rfl

/-! ## The directory -/

/-- Texts that start alike up to a separator they do not contain are equal up to it. -/
theorem eq_of_append_cons_prefix {α : Type} {a : α} {xs ys zs : List α} (hxs : a ∉ xs)
    (hys : a ∉ ys) (h : xs ++ [a] <+: ys ++ [a] ++ zs) : xs = ys := by
  induction xs generalizing ys with
  | nil =>
      cases ys with
      | nil => rfl
      | cons y ys =>
          simp only [List.nil_append, List.cons_append, List.cons_prefix_cons] at h
          exact absurd (h.1 ▸ List.mem_cons_self) hys
  | cons x xs ih =>
      cases ys with
      | nil =>
          simp only [List.cons_append, List.nil_append, List.cons_prefix_cons] at h
          exact absurd (h.1 ▸ List.mem_cons_self) hxs
      | cons y ys =>
          simp only [List.cons_append, List.cons_prefix_cons] at h
          rw [h.1, ih (fun hx => hxs (List.mem_cons_of_mem _ hx))
            (fun hy => hys (List.mem_cons_of_mem _ hy)) h.2]

private theorem slash_notMem_toDigits (n : Nat) : '/' ∉ Nat.toDigits 10 n := fun h =>
  absurd (Nat.isDigit_of_mem_toDigits (by decide) (by decide) h) (by decide)

/-- The directories of two tips of a submission do not meet. -/
theorem tipDirectory_inj {submission : SubmissionId} {i j : Nat} {path : Str}
    (h : tipDirectory submission j ++ ['/'] <+: tipDirectory submission i ++ ['/'] ++ path) :
    j = i := by
  simp only [tipDirectory, joinTexts, List.flatten_cons, List.flatten_nil, List.append_nil,
    List.append_assoc, List.prefix_append_right_inj] at h
  have hdigits := eq_of_append_cons_prefix (slash_notMem_toDigits j) (slash_notMem_toDigits i)
    (by simpa using h)
  rw [← Nat.ofDigitChars_ten_toDigits (n := j), hdigits, Nat.ofDigitChars_ten_toDigits]

theorem getElem?_materializeInto (content : Files) (dir : Str) {files : Files} {path : Str}
    {c : Content} (h : files[path]? = some c) :
    (materializeInto content dir files)[dir ++ ['/'] ++ path]? = some c := by
  unfold materializeInto
  exact BTreeMap.getElem?_foldl_insert (f := fun p => dir ++ ['/'] ++ p)
    (fun _ _ heq => List.append_cancel_left heq) files _ h

/-- Checking out into one directory leaves what lies outside it. -/
theorem getElem?_materializeInto_outside (content : Files) {dir key : Str} (files : Files)
    (h : ¬ dir ++ ['/'] <+: key) : (materializeInto content dir files)[key]? = content[key]? := by
  unfold materializeInto
  rw [BTreeMap.getElem?_foldl_insert_of_ne (f := fun p => dir ++ ['/'] ++ p)]
  · rw [Std.ExtTreeMap.getElem?_filter']
    cases content[key]? with
    | none => rfl
    | some c =>
        have hout : (dir ++ ['/']).isPrefixOf key = false := by
          rw [Bool.eq_false_iff, ne_eq, List.isPrefixOf_iff_prefix]
          exact h
        simp [hout]
  · rintro p - rfl
    exact h (List.prefix_append _ _)

/-- A directory that holds the files of every tip. -/
def HoldsTips (host : Host) (store : Store) (submission : SubmissionId) (content : Files)
    (tips : List (ObjectId × Nat)) : Prop :=
  ∀ t ∈ tips, ∃ files, store.read host.treeId t.1 = .ok files ∧
    ∀ path c, files[path]? = some c → content[tipDirectory submission t.2 ++ ['/'] ++ path]? = some c

theorem foldlM_observeTip_ok {host : Host} {store : Store} {submission : SubmissionId}
    {tips : List (ObjectId × Nat)} {s s' : Files × TextFiles}
    (hnodup : (tips.map Prod.snd).Nodup)
    (h : tips.foldlM (observeTip host store submission) s = .ok s') :
    HoldsTips host store submission s'.1 tips ∧
      ∀ key, (∀ t ∈ tips, ¬ tipDirectory submission t.2 ++ ['/'] <+: key) →
        s'.1[key]? = s.1[key]? := by
  induction tips generalizing s with
  | nil =>
      obtain rfl : s = s' := by simpa [pure, Except.pure] using h
      simp [HoldsTips]
  | cons t tips ih =>
      rw [List.foldlM_cons] at h
      obtain ⟨hfresh, hnodup⟩ := List.nodup_cons.mp hnodup
      cases hstep : observeTip host store submission s t with
      | error e => simp [hstep, bind, Except.bind] at h
      | ok s₁ =>
          simp only [hstep, bind, Except.bind] at h
          obtain ⟨hholds, hframe⟩ := ih hnodup h
          unfold observeTip at hstep
          cases hread : store.read host.treeId t.1 with
          | error e => simp [checkOut, hread, Except.mapError, bind, Except.bind] at hstep
          | ok files =>
              simp only [checkOut, hread, Except.mapError, bind, Except.bind, pure, Except.pure,
                Except.ok.injEq] at hstep
              subst hstep
              refine ⟨fun t' ht' => ?_, fun key hkey => ?_⟩
              · rcases List.mem_cons.mp ht' with rfl | hin
                · refine ⟨files, hread, fun path c hc => ?_⟩
                  -- The tips still to come go into directories of their own.
                  rw [hframe _ fun t hmem hprefix => ?_]
                  · exact getElem?_materializeInto _ _ hc
                  · have hsame := tipDirectory_inj hprefix
                    exact hfresh (hsame ▸ List.mem_map_of_mem hmem)
                · exact hholds t' hin
              · rw [hframe key fun t' hin => hkey t' (List.mem_cons_of_mem _ hin)]
                exact getElem?_materializeInto_outside _ _ (hkey t (by simp))

/-- The Rust files of a directory carry no conflict value. -/
def ConflictFree (host : Host) (content : Files) : Prop :=
  ∀ path c, content[path]? = some c → c ≠ .directory → pathExtension path = some "rs".toList →
    ∃ text, c = .text text ∧ conflictValues host.tools.grammar text = some []

/-- Counting no conflict value in a directory means that there is none. -/
theorem observeCarried_zero {host : Host} {content : Files}
    (h : observeCarried host content = .ok 0) : ConflictFree host content := by
  have hfiles : ∀ (files : List (Str × Content)) (n : Nat),
      files.foldlM (observeFile host) n = .ok 0 → n = 0 ∧
        ∀ file ∈ files, file.2 ≠ .directory → pathExtension file.1 = some "rs".toList →
          ∃ text, file.2 = .text text ∧ conflictValues host.tools.grammar text = some [] := by
    intro files
    induction files with
    | nil => intro n hn; simpa [pure, Except.pure] using hn
    | cons file files ih =>
        intro n hn
        rw [List.foldlM_cons] at hn
        cases hstep : observeFile host n file with
        | error e => simp [hstep, bind, Except.bind] at hn
        | ok n₁ =>
            simp only [hstep, bind, Except.bind] at hn
            obtain ⟨rfl, hrest⟩ := ih n₁ hn
            -- the file at hand is counted as zero, and the rest starts again from zero
            suffices hfile : n = 0 ∧ (file.2 ≠ .directory → pathExtension file.1 = some "rs".toList →
                ∃ text, file.2 = .text text ∧ conflictValues host.tools.grammar text = some []) by
              refine ⟨hfile.1, fun file' hmem => ?_⟩
              rcases List.mem_cons.mp hmem with rfl | hin
              · exact hfile.2
              · exact hrest file' hin
            unfold observeFile at hstep
            split at hstep
            · rename_i hskip
              exact ⟨by simpa using hstep, fun hfile hrs => (hskip.resolve_left hfile).elim hrs⟩
            · rename_i hread
              cases hc : file.2 with
              | directory => exact absurd (.inl hc) hread
              | binary bytes => simp [hc, Content.readToString] at hstep
              | text text =>
                  simp only [hc, Content.readToString] at hstep
                  cases hv : conflictValues host.tools.grammar text with
                  | none => simp [hv] at hstep
                  | some values =>
                      simp only [hv, Except.ok.injEq, Nat.add_eq_zero_iff,
                        List.length_eq_zero_iff] at hstep
                      exact ⟨hstep.1, fun _ _ => ⟨text, rfl, hstep.2 ▸ hv⟩⟩
  intro path c hc
  exact (hfiles content.toList 0 h).2 (path, c) (Std.ExtTreeMap.mem_toList_iff_getElem?_eq_some.mpr hc)

/-- The gates of one submission were observed on a directory that holds its tips. -/
theorem observeBatchGates_ok {host : Host} {store : Store} {registry : QueueRegistry} {refs : Refs}
    {queue : Str} {submission : SubmissionId} {tips : List ObjectId} {policy : QueuePolicy}
    {batch : BatchGates}
    (h : observeBatchGates host store registry refs queue [(submission, tips)] policy = .ok batch) :
    ∃ content, HoldsTips host store submission content tips.zipIdx ∧
      observeCarried host content = .ok batch.carriedValues ∧
      runValidator host policy content = .ok batch.validated := by
  unfold observeBatchGates at h
  cases hbase : materializeQueueBase host store registry refs queue none with
  | error e => simp [hbase, bind, Except.bind] at h
  | ok base =>
      cases hsub : observeSubmission host store ∅ (submission, tips) with
      | error e => simp [hbase, observeManifest, hsub, bind, Except.bind] at h
      | ok s =>
          obtain ⟨content, texts⟩ := s
          cases hcarried : observeCarried host content with
          | error e => simp [hbase, observeManifest, hsub, hcarried, bind, Except.bind, pure, Except.pure] at h
          | ok count =>
              cases hval : runValidator host policy content with
              | error e =>
                  simp [hbase, observeManifest, hsub, hcarried, hval, bind, Except.bind, pure, Except.pure] at h
              | ok verdict =>
                  simp only [hbase, observeManifest, hsub, hcarried, hval, List.foldlM_cons,
                    List.foldlM_nil, bind, Except.bind, pure, Except.pure, Except.ok.injEq] at h
                  subst h
                  refine ⟨content, (foldlM_observeTip_ok ?_ hsub).1, hcarried, hval⟩
                  rw [List.zipIdx_map_snd]
                  exact List.nodup_range'

/-! ## The reconciled tree -/

/-- The content of a reconciled head, with the Rust files free of conflict values the
    reconciliation would count. -/
def CleanHead (host : Host) (content : TextFiles) : Prop :=
  ∀ path text, content[path]? = some text → ".rs".toList.isSuffixOf path = true →
    (conflictValues host.tools.grammar text).getD [] = []

theorem countCarried_zero {host : Host} {content : TextFiles} (h : countCarried host content = 0) :
    CleanHead host content := by
  intro path text htext hrs
  have hmem : (path, text) ∈ content.toList := Std.ExtTreeMap.mem_toList_iff_getElem?_eq_some.mpr htext
  unfold countCarried at h
  have hzero := List.sum_eq_zero_iff_forall_eq_nat.mp h _ (List.mem_map_of_mem hmem)
  simp only [hrs, if_true] at hzero
  cases hv : conflictValues host.tools.grammar text with
  | none => rfl
  | some values => simpa [hv] using hzero

theorem reconcileCore_ok {host : Host} {store store' : Store} {registry : QueueRegistry} {log : OpLog}
    {policy : QueuePolicy} {subs : List Submission} {rec : Reconciliation}
    (h : reconcileCore host store registry log policy subs = .ok (rec, store')) :
    ∃ content files, writeFiles content = some files ∧ rec.tip = host.treeId files ∧
      rec.carried = countCarried host content ∧ store' = (store.write host.treeId files).2 := by
  unfold reconcileCore at h
  cases hacc : materializeTrunk host store registry log.refsNow policy.name with
  | error e => simp [hacc, bind, Except.bind] at h
  | ok acc =>
      simp only [hacc, bind, Except.bind] at h
      split at h
      · simp at h
      · rename_i s hs
        cases hfiles : writeFiles s.acc with
        | none => simp [hfiles] at h
        | some files =>
            simp only [hfiles, pure, Except.pure, Except.ok.injEq, Prod.mk.injEq] at h
            obtain ⟨rfl, rfl⟩ := h
            exact ⟨s.acc, files, hfiles, rfl, rfl, rfl⟩

/-- A landing that gets past the lock-free part has observed its gates and reconciled. -/
theorem observeLanding_ok {host : Host} {store store' : Store} {registry : QueueRegistry}
    {log : OpLog} {policy : QueuePolicy} {subs : List Submission} {graph : ChangeGraph}
    {subTips : List (SubmissionId × List ObjectId)} {refusal : Reconciliation → Str}
    {plan : LandingPlan}
    (h : observeLanding host store registry log policy subs graph subTips refusal = (.ok plan, store')) :
    plan.policy = policy ∧ plan.subs = subs ∧ plan.graph = graph ∧
      (∃ batch, observeBatchGates host store registry log.refsNow policy.name subTips policy = .ok batch ∧
        plan.gates = ⟨batch.carriedValues, batch.validated⟩) ∧
      reconcileCore host store registry log policy subs = .ok (plan.reconciled, store') ∧
      (policy.allowCarried = false → plan.reconciled.carried = 0) := by
  unfold observeLanding at h
  split at h
  · simp at h
  · rename_i batch hbatch
    split at h
    · simp at h
    · rename_i rec store₁ hrec
      split at h
      · simp at h
      · rename_i hcarried
        simp only [Prod.mk.injEq, Except.ok.injEq] at h
        obtain ⟨rfl, rfl⟩ := h
        refine ⟨rfl, rfl, rfl, ⟨batch, hbatch, rfl⟩, hrec, fun hallow => ?_⟩
        simpa [hallow] using hcarried

/-! ## A local landing -/

theorem loadSubmission_ok {repo : Repo} {id : SubmissionId} {sub : Submission}
    (h : repo.loadSubmission id = .ok sub) : repo.submissions[id]? = some sub := by
  unfold Repo.loadSubmission at h
  cases hsub : repo.submissions[id]? with
  | none => simp [hsub] at h
  | some sub' => simpa [hsub] using h

theorem mapM_loadSubmission_ok {repo : Repo} {ids : List SubmissionId} {subs : List Submission}
    (h : ids.mapM repo.loadSubmission = .ok subs) :
    ids.map (fun id => repo.submissions[id]?) = subs.map some := by
  induction ids generalizing subs with
  | nil =>
      obtain rfl : [] = subs := by simpa [pure, Except.pure] using h
      rfl
  | cons id ids ih =>
      rw [List.mapM_cons] at h
      cases hload : repo.loadSubmission id with
      | error e => simp [hload, bind, Except.bind] at h
      | ok sub =>
          cases hrest : ids.mapM repo.loadSubmission with
          | error e => simp [hload, hrest, bind, Except.bind] at h
          | ok rest =>
              simp only [hload, hrest, bind, Except.bind, pure, Except.pure, Except.ok.injEq] at h
              subst h
              rw [List.map_cons, List.map_cons, loadSubmission_ok hload, ih hrest]

/-- A landing that is taken up has found its queue and its submissions. -/
theorem landRequest_ok {repo : Repo} {ids : List SubmissionId} {queue : Str} {policy : QueuePolicy}
    {subs : List Submission} (h : landRequest repo ids queue = .ok (policy, subs)) :
    repo.queues.resolve queue = .ok policy ∧
      ids.map (fun id => repo.submissions[id]?) = subs.map some := by
  unfold landRequest at h
  cases hres : repo.queues.resolve queue with
  | error e => simp [hres, liftWork, Except.mapError, bind, Except.bind] at h
  | ok policy' =>
      cases hsubs : ids.mapM repo.loadSubmission with
      | error e => simp [hres, hsubs, liftWork, Except.mapError, bind, Except.bind] at h
      | ok subs' =>
          simp only [hres, hsubs, liftWork, Except.mapError, bind, Except.bind] at h
          split at h
          · simp at h
          · simp only [pure, Except.pure, Except.ok.injEq, Prod.mk.injEq] at h
            obtain ⟨rfl, rfl⟩ := h
            exact ⟨rfl, mapM_loadSubmission_ok hsubs⟩

/-- The ways a local landing can go: it is refused before the first section, it fails
    behind it, or it commits a plan made on the log the first section left. -/
theorem cmdLand_cases (host : Host) (repo : Repo) (ids : List SubmissionId) (queue : Str) :
    (∃ e, cmdLand host repo ids queue = (.error e, repo)) ∨
      ∃ policy subs, landRequest repo ids queue = .ok (policy, subs) ∧
        let first := repo.snapshotSection host (subs.flatMap Submission.changes)
        (∃ e store, cmdLand host repo ids queue = (.error e, { first with store := store })) ∨
          ∃ plan store results log', planLanding host first.store repo.queues policy subs first.log =
              (.ok plan, store) ∧ commitLanding plan first.log = .ok (results, log') ∧
            cmdLand host repo ids queue = (.ok results, { first with store := store, log := log' }) := by
  unfold cmdLand
  split
  · exact .inl ⟨_, rfl⟩
  · rename_i policy subs hreq
    refine .inr ⟨policy, subs, hreq, ?_⟩
    dsimp only
    split
    · rename_i e store hplan
      exact .inl ⟨e, store, rfl⟩
    · rename_i plan store hplan
      unfold Repo.mutateLocked
      cases hcommit : commitLanding plan
          (repo.snapshotSection host (subs.flatMap Submission.changes)).log with
      | error e => exact .inl ⟨.work e, store, rfl⟩
      | ok r =>
          obtain ⟨results, log'⟩ := r
          exact .inr ⟨plan, store, results, log', hplan, hcommit, rfl⟩

/-- A landing leaves the store its plan leaves. -/
theorem cmdLand_store {host : Host} {repo : Repo} {ids : List SubmissionId} {queue : Str}
    {policy : QueuePolicy} {subs : List Submission} (hreq : landRequest repo ids queue = .ok (policy, subs)) :
    let first := repo.snapshotSection host (subs.flatMap Submission.changes)
    (cmdLand host repo ids queue).2.store =
      (planLanding host first.store repo.queues policy subs first.log).2 := by
  intro first
  unfold cmdLand
  simp only [hreq]
  cases hplan : planLanding host first.store repo.queues policy subs first.log with
  | mk plan store =>
      have hplan' : planLanding host (repo.snapshotSection host (subs.flatMap Submission.changes)).store
          (repo.snapshotSection host (subs.flatMap Submission.changes)).queues policy subs
          (repo.snapshotSection host (subs.flatMap Submission.changes)).log = (plan, store) := hplan
      rw [hplan']
      cases plan with
      | error e => rfl
      | ok plan =>
          simp only [Repo.mutateLocked]
          split <;> rfl

/-- The plan of a local landing has its changes at their tips. -/
theorem planLanding_ok {host : Host} {store store' : Store} {registry : QueueRegistry}
    {policy : QueuePolicy} {subs : List Submission} {log : OpLog} {plan : LandingPlan}
    (h : planLanding host store registry policy subs log = (.ok plan, store')) :
    plan.policy = policy ∧ plan.subs = subs ∧
      ∀ c, (plan.graph.change c).isSome → plan.graph.tip c = log.refsNow[c]? := by
  unfold planLanding at h
  split at h
  · simp at h
  · rename_i graph subTips htips
    obtain ⟨hpolicy, hsubs, hgraph, -⟩ := observeLanding_ok h
    exact ⟨hpolicy, hsubs, hgraph ▸ readTips_ok htips⟩

/-! ## A host for examples -/

/-- A host for examples: it finds no definitions, tells trees apart by the length of their
    paths, and refuses a directory with a file named `bad`. -/
def sampleHost : Host where
  tools := ⟨⟨fun _ => .ok [], fun _ => .ok true, fun _ _ h => by
    obtain rfl := Except.ok.inj h
    exact ⟨by simp, by simp, .nil⟩⟩, none⟩
  treeId files := ⟨List.replicate 32 (UInt8.ofNat (files.keys.map List.length).sum), by simp⟩
  validator _ content := .ok (!content.keys.any fun path => "bad".toList.isSuffixOf path)

def emptyRepo : Repo := ⟨⟨∅⟩, .new, ⟨[]⟩, ⟨[]⟩, ∅, ∅⟩

/-- A directory of empty files. -/
def emptyFiles (paths : List Str) : Files :=
  paths.foldl (fun files path => files.insert path (.text [])) ∅

def approvedSubmission (id : SubmissionId) (changes : List ChangeId) : Submission :=
  (Submission.new id [] changes []).approve []

end Omoplata
