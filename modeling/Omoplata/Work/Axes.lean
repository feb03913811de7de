-- SUMMARY: Rebases on one engine: when they succeed, and when the change graph and the log agree on the tips.
import Omoplata.Work.Edges
import Omoplata.Work.Recorded

/-!
# The two time axes

A rebase appends one operation to the log and then records one edge in the change graph. The log takes the last
word for each change, while the graph follows edges between commits, which changes with the same content share.
Each way in which the two can part is a condition on the state before a rebase and on the texts it replays.
-/

namespace Omoplata

open StateTransition Chain ChangeGraph

namespace RebaseEngine

variable (sha256 : List UInt8 → ObjectId)

/-! ## What a rebase does -/

/-- The commit a text is stored as. -/
def commitOf (doc : Doc) : CommitId := ((Object.blob (utf8 doc.toStr)).id sha256).toText

/-- A commit is stored as a blob of text. -/
def HasText (repo : Repository) (commit : CommitId) (doc : Doc) : Prop :=
  ∃ id bytes text, ObjectId.parse commit = .ok (.ok id) ∧ repo.readObject sha256 id = .ok (.ok (.blob bytes)) ∧
    fromUtf8 bytes = some text ∧ doc = .fromStr text

/-- The three commits of a rebase are stored as text, and `replayed` is the commit of what the rebase makes of it. -/
def Replays (repo : Repository) (item : StackItem) (onto replayed : CommitId) : Prop :=
  ∃ base mine ontoDoc, HasText sha256 repo item.base base ∧ HasText sha256 repo item.tip mine ∧
    HasText sha256 repo onto ontoDoc ∧ replayed = commitOf sha256 (rebase base mine ontoDoc).result

variable {sha256}

theorem loadDoc_eq_ok_iff {repo : Repository} {commit : CommitId} {doc : Doc} :
    (loadDoc sha256 repo commit).run = .ok (.ok doc) ↔ HasText sha256 repo commit doc := by
  unfold loadDoc HasText
  simp only [ExceptT.run, ExceptT.mk, bind, Except.bind, pure, Except.pure]
  cases hid : ObjectId.parse commit with
  | error p => simp
  | ok r =>
      cases r with
      | error e => simp
      | ok id =>
          cases hread : repo.readObject sha256 id with
          | error p => simp [hread]
          | ok r =>
              cases r with
              | error e => simp [hread]
              | ok o =>
                  cases o with
                  | tree t => simp [hread]
                  | blob bytes =>
                      cases htext : fromUtf8 bytes with
                      | none => simp [hread, htext]
                      | some text => simp [hread, htext, eq_comm]

theorem loadDocs_eq_ok_iff {repo : Repository} {base oldTip onto : CommitId} {docs : Doc × Doc × Doc} :
    (loadDocs sha256 repo base oldTip onto).run = .ok (.ok docs) ↔
      HasText sha256 repo base docs.1 ∧ HasText sha256 repo oldTip docs.2.1 ∧ HasText sha256 repo onto docs.2.2 := by
  simp only [← loadDoc_eq_ok_iff]
  unfold loadDocs
  simp only [ExceptT.run_bind]
  cases hbase : (loadDoc sha256 repo base).run with
  | error p => simp [bind, Except.bind]
  | ok r =>
      cases r with
      | error e => simp [bind, Except.bind, pure, Except.pure]
      | ok b =>
          cases hmine : (loadDoc sha256 repo oldTip).run with
          | error p => simp [bind, Except.bind]
          | ok r =>
              cases r with
              | error e => simp [bind, Except.bind, pure, Except.pure]
              | ok m =>
                  cases honto : (loadDoc sha256 repo onto).run with
                  | error p => simp [bind, Except.bind]
                  | ok r =>
                      cases r with
                      | error e => simp [bind, Except.bind, pure, Except.pure]
                      | ok o => simp [bind, Except.bind, pure, ExceptT.pure, Except.pure, ExceptT.mk, ExceptT.run, Prod.ext_iff]

/-- A rebase of stored texts: the log has one operation more, and the graph what was recorded. -/
structure Records (e : RebaseEngine) (item : StackItem) (onto replayed : CommitId)
    (r : Except WorkError RebaseOutcome × RebaseEngine) : Prop where
  log_eq : ∃ conflicts, r.2.log = e.log.append (.rebase item.change item.tip replayed onto conflicts) none nofun
  graph_eq : r.2.graph = (recordSupersession e.graph item.change item.tip replayed).2
  result_eq : ∃ conflicts, r.1 =
    (recordSupersession e.graph item.change item.tip replayed).1.map fun () => ⟨replayed, conflicts, conflicts.isEmpty⟩

theorem autoRebase_of_replays {e : RebaseEngine} {item : StackItem} {onto replayed : CommitId}
    (h : Replays sha256 e.repo item onto replayed) :
    ∃ r, e.autoRebase sha256 item.change item.base item.tip onto = .ok r ∧ Records e item onto replayed r := by
  obtain ⟨base, mine, ontoDoc, hbase, hmine, honto, rfl⟩ := h
  have hload := loadDocs_eq_ok_iff.mpr (show HasText sha256 e.repo item.base (base, mine, ontoDoc).1 ∧ _ ∧ _ from
    ⟨hbase, hmine, honto⟩)
  unfold autoRebase
  simp only [hload, bind, Except.bind, pure, Except.pure]
  exact ⟨_, rfl, ⟨_, rfl⟩, rfl, _, rfl⟩

theorem autoRebase_cases {e : RebaseEngine} {item : StackItem} {onto : CommitId}
    {r : Except WorkError RebaseOutcome × RebaseEngine}
    (h : e.autoRebase sha256 item.change item.base item.tip onto = .ok r) :
    (∃ err, r = (.error err, e)) ∧ (∀ replayed, ¬ Replays sha256 e.repo item onto replayed) ∨
      ∃ replayed, Replays sha256 e.repo item onto replayed ∧ Records e item onto replayed r := by
  cases hload : (loadDocs sha256 e.repo item.base item.tip onto).run with
  | error p =>
      unfold autoRebase at h
      simp [hload, bind, Except.bind] at h
  | ok docs =>
      cases docs with
      | error err =>
          left
          unfold autoRebase at h
          simp only [hload, bind, Except.bind, pure, Except.pure, Except.ok.injEq] at h
          refine ⟨⟨err, h.symm⟩, ?_⟩
          rintro replayed ⟨base, mine, ontoDoc, hbase, hmine, honto, -⟩
          rw [loadDocs_eq_ok_iff.mpr (show HasText sha256 e.repo item.base (base, mine, ontoDoc).1 ∧ _ ∧ _ from
            ⟨hbase, hmine, honto⟩)] at hload
          cases hload
      | ok docs =>
          right
          obtain ⟨hbase, hmine, honto⟩ := loadDocs_eq_ok_iff.mp hload
          have hreplays : Replays sha256 e.repo item onto (commitOf sha256 (rebase docs.1 docs.2.1 docs.2.2).result) :=
            ⟨_, _, _, hbase, hmine, honto, rfl⟩
          obtain ⟨r', hr', hrecords⟩ := autoRebase_of_replays hreplays
          rw [h, Except.ok.injEq] at hr'
          exact ⟨_, hreplays, hr' ▸ hrecords⟩

/-- The states that calls lead to from an engine on any log. Others may write to the repository meanwhile, and the
    owner of the engine to the log. -/
inductive Reached (sha256 : List UInt8 → ObjectId) : RebaseEngine → Prop
  | withLog (repo : Repository) (log : OpLog) : Reached sha256 (.withLog repo log)
  | autoRebase {e e' : RebaseEngine} (h : Reached sha256 e) (item : StackItem) (onto : CommitId)
      (r : Except WorkError RebaseOutcome)
      (hcall : e.autoRebase sha256 item.change item.base item.tip onto = .ok (r, e')) : Reached sha256 e'
  | outside {e : RebaseEngine} (h : Reached sha256 e) (repo : Repository) (log : OpLog) : Reached sha256 ⟨repo, log, e.graph⟩

theorem Records.tracked {e : RebaseEngine} {item : StackItem} {onto replayed : CommitId}
    {r : Except WorkError RebaseOutcome × RebaseEngine} (h : Records e item onto replayed r) (he : Tracked e.graph) :
    Tracked r.2.graph := by
  rw [h.graph_eq]
  by_cases hrec : Recordable e.graph item.tip replayed
  · obtain ⟨g', hg', hextends⟩ := recordSupersession_ok he item.change hrec
    rw [hg']
    exact hextends.tracked
  · obtain ⟨g', hg', hextends⟩ := recordSupersession_refused he item.change hrec
    rw [hg']
    exact hextends.tracked

theorem Reached.tracked {e : RebaseEngine} (h : Reached sha256 e) : Tracked e.graph := by
  induction h with
  | withLog repo log => exact tracked_new
  | autoRebase h item onto r hcall ih =>
      rcases autoRebase_cases hcall with ⟨⟨err, heq⟩, -⟩ | ⟨replayed, -, hrecords⟩
      · cases heq
        exact ih
      · exact hrecords.tracked ih
  | outside h repo log ih => exact ih

/-! ### Small engines -/

/-- The commit of a text. -/
def textCommit (text : Str) : CommitId := ((Object.blob (utf8 text)).id .ofSha256).toText

/-- An engine on an empty log over stored texts. -/
def holding (texts : List Str) : RebaseEngine :=
  .withLog (.ofObjects .ofSha256 (texts.map fun text => .blob (utf8 text))) .new

/-- The change whose base and tip are the same text. -/
def itemOf (change : ChangeId) (text : Str) : StackItem := ⟨change, textCommit text, textCommit text⟩

/-- A rebase that succeeds. -/
def succeeded (e : RebaseEngine) (item : StackItem) (onto : Str) : Option (RebaseOutcome × RebaseEngine) :=
  match e.autoRebase .ofSha256 item.change item.base item.tip (textCommit onto) with
  | .ok (.ok out, e') => some (out, e')
  | _ => none

theorem autoRebase_of_succeeded {e e' : RebaseEngine} {item : StackItem} {onto : Str} {out : RebaseOutcome}
    (h : succeeded e item onto = some (out, e')) :
    e.autoRebase .ofSha256 item.change item.base item.tip (textCommit onto) = .ok (.ok out, e') := by
  unfold succeeded at h
  split at h
  · rename_i hcall
    cases h
    exact hcall
  · cases h

/-- A rebase that would close a cycle of edges: its ends, and the engine it leaves. -/
def refused (e : RebaseEngine) (item : StackItem) (onto : Str) : Option (CommitId × CommitId × RebaseEngine) :=
  match e.autoRebase .ofSha256 item.change item.base item.tip (textCommit onto) with
  | .ok (.error (.identity (.supersessionCycle old new)), e') => some (old, new, e')
  | _ => none

theorem autoRebase_of_refused {e e' : RebaseEngine} {item : StackItem} {onto : Str} {old new : CommitId}
    (h : refused e item onto = some (old, new, e')) :
    e.autoRebase .ofSha256 item.change item.base item.tip (textCommit onto) =
      .ok (.error (.identity (.supersessionCycle old new)), e') := by
  unfold refused at h
  split at h
  · rename_i hcall
    cases h
    exact hcall
  · cases h

theorem Reached.holding (texts : List Str) : Reached .ofSha256 (holding texts) := .withLog _ _

/-- Two texts, and the first rebase of a change from the one to the other. -/
theorem first_succeeds : ∃ out e', (holding [['x'], ['y']]).autoRebase .ofSha256 ['c'] (textCommit ['x'])
    (textCommit ['x']) (textCommit ['y']) = .ok (.ok out, e') := by
  obtain ⟨⟨out, e'⟩, hcall⟩ := Option.isSome_iff_exists.mp
    (show (succeeded (holding [['x'], ['y']]) (itemOf ['c'] ['x']) ['y']).isSome = true by decide +kernel)
  have hcall' := autoRebase_of_succeeded hcall
  exact ⟨out, e', hcall'⟩

theorem textCommit_ne : textCommit ['x'] ≠ textCommit ['y'] := by decide +kernel

/-- The replayed text is the old tip, or no edges lead from its commit back to the old tip. -/
def Forward (sha256 : List UInt8 → ObjectId) (e : RebaseEngine) (item : StackItem) (onto : CommitId) : Prop :=
  ∀ replayed, Replays sha256 e.repo item onto replayed → Recordable e.graph item.tip replayed

/-- A rebase of stored texts succeeds, and one that fails leaves the log and the graph alone, exactly where the
    replayed text is not one that the old tip has superseded. -/
theorem autoRebase_clean_iff {e : RebaseEngine} (h : Reached sha256 e) (item : StackItem) (onto : CommitId) :
    ((e.graph.phaseOf item.change = .draft → (∃ replayed, Replays sha256 e.repo item onto replayed) →
        ∃ out e', e.autoRebase sha256 item.change item.base item.tip onto = .ok (.ok out, e')) ∧
      ∀ err e', e.autoRebase sha256 item.change item.base item.tip onto = .ok (.error err, e') →
        e'.log = e.log ∧ e'.graph = e.graph) ↔ Forward sha256 e item onto := by
  have hdraft : e.graph.phaseOf item.change = .draft := by
    unfold phaseOf
    cases hc : e.graph.changes[item.change]? with
    | none => rfl
    | some c => exact h.tracked.draft _ c hc
  constructor
  · rintro ⟨hok, -⟩ replayed hreplays
    by_contra hrec
    obtain ⟨out, e', hcall⟩ := hok hdraft ⟨replayed, hreplays⟩
    obtain ⟨r, hr, hrecords⟩ := autoRebase_of_replays hreplays
    rw [hcall, Except.ok.injEq] at hr
    obtain ⟨conflicts, hresult⟩ := hrecords.result_eq
    obtain ⟨g', hg', -⟩ := recordSupersession_refused h.tracked item.change hrec
    rw [← hr, hg'] at hresult
    cases hresult
  · intro hforward
    refine ⟨fun _ hstored => ?_, fun err e' hcall => ?_⟩
    · obtain ⟨replayed, hreplays⟩ := hstored
      obtain ⟨⟨result, e'⟩, hr, hrecords⟩ := autoRebase_of_replays hreplays
      obtain ⟨conflicts, hresult⟩ := hrecords.result_eq
      obtain ⟨g', hg', -⟩ := recordSupersession_ok h.tracked item.change (hforward replayed hreplays)
      rw [hg'] at hresult
      cases hresult
      exact ⟨_, e', hr⟩
    · rcases autoRebase_cases hcall with ⟨⟨err', heq⟩, -⟩ | ⟨replayed, hreplays, hrecords⟩
      · cases heq
        exact ⟨rfl, rfl⟩
      · obtain ⟨conflicts, hresult⟩ := hrecords.result_eq
        obtain ⟨g', hg', -⟩ := recordSupersession_ok h.tracked item.change (hforward replayed hreplays)
        rw [hg'] at hresult
        cases hresult

/-- The first rebase of a change leads to the text it is rebased onto. -/
theorem autoRebase_clean_first :
    ∃ out e', (holding [['x'], ['y']]).autoRebase .ofSha256 ['c'] (textCommit ['x']) (textCommit ['x']) (textCommit ['y']) =
      .ok (.ok out, e') := by
  have hforward : Forward .ofSha256 (holding [['x'], ['y']]) (itemOf ['c'] ['x']) (textCommit ['y']) := by
    intro replayed _
    by_cases hsame : replayed = textCommit ['x']
    · exact .inl hsame
    · refine .inr fun hreach => ?_
      rcases Relation.ReflTransGen.cases_head hreach with heq | ⟨_, hedge, -⟩
      · exact hsame heq
      · cases hedge
  obtain ⟨out, e', hcall⟩ := first_succeeds
  refine ((autoRebase_clean_iff (.holding [['x'], ['y']]) (itemOf ['c'] ['x']) (textCommit ['y'])).mpr hforward).1 rfl ?_
  rcases @autoRebase_cases _ _ (itemOf ['c'] ['x']) _ _ hcall with ⟨⟨err, heq⟩, -⟩ | ⟨replayed, hreplays, -⟩
  · cases heq
  · exact ⟨replayed, hreplays⟩

/-- A change is rebased from a text to another one and back. The second rebase fails, with its operation in
    the log. -/
theorem autoRebase_back_fails :
    ∃ e e', Reached .ofSha256 e ∧ e.graph.phaseOf ['c'] = .draft ∧
      Replays .ofSha256 e.repo (itemOf ['c'] ['y']) (textCommit ['x']) (textCommit ['x']) ∧
      e.autoRebase .ofSha256 ['c'] (textCommit ['y']) (textCommit ['y']) (textCommit ['x']) =
        .ok (.error (.identity (.supersessionCycle (textCommit ['y']) (textCommit ['x']))), e') ∧ e'.log ≠ e.log := by
  have hrun : ((succeeded (holding [['x'], ['y']]) (itemOf ['c'] ['x']) ['y']).bind fun r =>
      (refused r.2 (itemOf ['c'] ['y']) ['x']).map fun r' =>
        (r'.1, r'.2.1, r.2.graph.phaseOf ['c'], r.2.log.ops.length, r'.2.2.log.ops.length)) =
      some (textCommit ['y'], textCommit ['x'], .draft, 1, 2) := by decide +kernel
  obtain ⟨⟨out, e⟩, hfirst, hrest⟩ := Option.bind_eq_some_iff.mp hrun
  obtain ⟨⟨old, new, e'⟩, hsecond, hread⟩ := Option.map_eq_some_iff.mp hrest
  obtain ⟨hold, hnew, hdraft, hlength, hlength'⟩ : old = _ ∧ new = _ ∧ e.graph.phaseOf ['c'] = _ ∧
      e.log.ops.length = 1 ∧ e'.log.ops.length = 2 := by
    simpa only [Prod.mk.injEq] using hread
  subst hold hnew
  have hcall := autoRebase_of_refused hsecond
  have hlog : e'.log ≠ e.log := fun heq => by
    rw [heq, hlength] at hlength'
    cases hlength'
  refine ⟨e, e', .autoRebase (.holding _) _ _ _ (autoRebase_of_succeeded hfirst), hdraft, ?_, hcall, hlog⟩
  rcases autoRebase_cases hcall with ⟨⟨err, heq⟩, -⟩ | ⟨replayed, hreplays, hrecords⟩
  · cases heq
    exact absurd rfl hlog
  · -- the edge that was refused leads to what was replayed
    have htracked := (Reached.autoRebase (.holding _) _ _ _ (autoRebase_of_succeeded hfirst)).tracked
    obtain ⟨conflicts, hresult⟩ := hrecords.result_eq
    change _ = Except.map _ (recordSupersession e.graph ['c'] (textCommit ['y']) replayed).1 at hresult
    by_cases hrec : Recordable e.graph (textCommit ['y']) replayed
    · obtain ⟨g', hg', -⟩ := recordSupersession_ok htracked ['c'] hrec
      rw [hg'] at hresult
      cases hresult
    · obtain ⟨g', hg', -⟩ := recordSupersession_refused htracked ['c'] hrec
      rw [hg'] at hresult
      injection hresult with hresult
      injection hresult with hresult
      injection hresult with _ hresult
      subst hresult
      exact hreplays

/-! ## Stacks -/

variable (sha256) in
/-- Rebases of a stack, each onto the new tip before it, with their outcomes. -/
def Rebases : RebaseEngine → CommitId → List (StackItem × RebaseOutcome) → RebaseEngine → Prop
  | e, _, [], e' => e' = e
  | e, onto, (item, out) :: done, e' =>
      ∃ e₁, e.autoRebase sha256 item.change item.base item.tip onto = .ok (.ok out, e₁) ∧
        Rebases e₁ out.newTip done e'

/-- The commit that the next rebase is onto. -/
def nextOnto (onto : CommitId) (done : List (StackItem × RebaseOutcome)) : CommitId :=
  done.foldl (fun _ p => p.2.newTip) onto

/-- The last tip that was returned for a change. -/
def returned (done : List (StackItem × RebaseOutcome)) (d : ChangeId) : Option CommitId :=
  done.foldl (fun tip p => if p.1.change = d then some p.2.newTip else tip) none

theorem returned_concat (done : List (StackItem × RebaseOutcome)) (item : StackItem) (out : RebaseOutcome) (d : ChangeId) :
    returned (done ++ [(item, out)]) d = if item.change = d then some out.newTip else returned done d := by
  unfold returned
  rw [List.foldl_append]
  rfl

theorem autoRebaseStack_cases {e e' : RebaseEngine} {items : List StackItem} {onto : CommitId}
    {outs : List RebaseOutcome} (h : e.autoRebaseStack sha256 items onto = .ok (.ok outs, e')) :
    ∃ done, items = done.map Prod.fst ∧ outs = done.map Prod.snd ∧ Rebases sha256 e onto done e' := by
  induction items generalizing e onto outs with
  | nil =>
      cases h
      exact ⟨[], rfl, rfl, rfl⟩
  | cons item items ih =>
      unfold autoRebaseStack at h
      cases hcall : e.autoRebase sha256 item.change item.base item.tip onto with
      | error p => simp [hcall, bind, Except.bind] at h
      | ok r =>
          obtain ⟨result, e₁⟩ := r
          cases result with
          | error err => simp [hcall, bind, Except.bind, pure, Except.pure] at h
          | ok out =>
              cases hrest : e₁.autoRebaseStack sha256 items out.newTip with
              | error p => simp [hcall, hrest, bind, Except.bind] at h
              | ok r =>
                  obtain ⟨rest, e₂⟩ := r
                  simp only [hcall, hrest, bind, Except.bind, pure, Except.pure, Except.ok.injEq, Prod.mk.injEq] at h
                  obtain ⟨houts, rfl⟩ := h
                  cases rest with
                  | error err => cases houts
                  | ok rest =>
                      cases houts
                      obtain ⟨done, rfl, rfl, hdone⟩ := ih hrest
                      exact ⟨(item, out) :: done, rfl, rfl, e₁, hcall, hdone⟩

theorem rebases_append {e e' : RebaseEngine} {onto : CommitId} {before after : List (StackItem × RebaseOutcome)} :
    Rebases sha256 e onto (before ++ after) e' ↔
      ∃ e₁, Rebases sha256 e onto before e₁ ∧ Rebases sha256 e₁ (nextOnto onto before) after e' := by
  induction before generalizing e onto with
  | nil =>
      constructor
      · exact fun h => ⟨e, rfl, h⟩
      · rintro ⟨e₁, rfl, h⟩
        exact h
  | cons p before ih =>
      constructor
      · rintro ⟨e₁, hcall, hrest⟩
        obtain ⟨e₂, hbefore, hafter⟩ := ih.mp hrest
        exact ⟨e₂, ⟨e₁, hcall, hbefore⟩, hafter⟩
      · rintro ⟨e₂, ⟨e₁, hcall, hbefore⟩, hafter⟩
        exact ⟨e₁, hcall, ih.mpr ⟨e₂, hbefore, hafter⟩⟩

theorem Rebases.unique {e e₁ e₂ : RebaseEngine} {onto : CommitId} {done : List (StackItem × RebaseOutcome)}
    (h₁ : Rebases sha256 e onto done e₁) (h₂ : Rebases sha256 e onto done e₂) : e₁ = e₂ := by
  induction done generalizing e onto with
  | nil => exact h₁.trans h₂.symm
  | cons p done ih =>
      obtain ⟨f₁, hcall₁, hrest₁⟩ := h₁
      obtain ⟨f₂, hcall₂, hrest₂⟩ := h₂
      rw [hcall₁, Except.ok.injEq, Prod.mk.injEq] at hcall₂
      obtain ⟨-, rfl⟩ := hcall₂
      exact ih hrest₁ hrest₂

theorem Reached.rebases {e e' : RebaseEngine} {onto : CommitId} {done : List (StackItem × RebaseOutcome)}
    (h : Reached sha256 e) (hrun : Rebases sha256 e onto done e') : Reached sha256 e' := by
  induction done generalizing e onto with
  | nil =>
      cases hrun
      exact h
  | cons p done ih =>
      obtain ⟨e₁, hcall, hrest⟩ := hrun
      exact ih (.autoRebase h p.1 onto _ hcall) hrest

/-- Where one rebase keeps a property exactly under a condition, all rebases of a stack do so, one after another,
    exactly where each meets it. -/
theorem throughout_iff {e e' : RebaseEngine} {onto : CommitId} {done : List (StackItem × RebaseOutcome)}
    {P : RebaseEngine → List (StackItem × RebaseOutcome) → Prop}
    {Q : RebaseEngine → List (StackItem × RebaseOutcome) → StackItem → Prop} (hstart : P e [])
    (hstep : ∀ before item out after e₁ e₂, done = before ++ (item, out) :: after → Rebases sha256 e onto before e₁ →
      e₁.autoRebase sha256 item.change item.base item.tip (nextOnto onto before) = .ok (.ok out, e₂) →
        P e₁ before → (P e₂ (before ++ [(item, out)]) ↔ Q e₁ before item))
    (hrun : Rebases sha256 e onto done e') :
    (∀ before after e₁, done = before ++ after → Rebases sha256 e onto before e₁ → P e₁ before) ↔
      ∀ before item out after e₁, done = before ++ (item, out) :: after → Rebases sha256 e onto before e₁ →
        Q e₁ before item := by
  constructor
  · intro hall before item out after e₁ hdone hbefore
    obtain ⟨e₁', hbefore', e₂, hcall, -⟩ := rebases_append.mp (hdone ▸ hrun)
    cases hbefore.unique hbefore'
    refine (hstep before item out after e₁ e₂ hdone hbefore hcall (hall before _ e₁ hdone hbefore)).mp ?_
    exact hall _ after e₂ (by rw [hdone, List.append_cons]) (rebases_append.mpr ⟨e₁, hbefore, e₂, hcall, rfl⟩)
  · intro hmeets before
    induction before using List.reverseRecOn with
    | nil =>
        intro after e₁ _ hbefore
        cases hbefore
        exact hstart
    | append_singleton before p ih =>
        intro after e₂ hdone hall
        obtain ⟨e₁, hbefore, e₂', hcall, hnil⟩ := rebases_append.mp hall
        cases hnil
        rw [List.append_assoc, List.singleton_append] at hdone
        exact (hstep before p.1 p.2 after e₁ e₂ hdone hbefore hcall (ih _ e₁ hdone hbefore)).mpr (hmeets _ _ _ _ _ hdone hbefore)

/-! ## The tips and the refs after a rebase -/

theorem HasText.unique {repo : Repository} {commit : CommitId} {doc doc' : Doc} (h : HasText sha256 repo commit doc)
    (h' : HasText sha256 repo commit doc') : doc = doc' := by
  rw [← loadDoc_eq_ok_iff] at h h'
  rw [h] at h'
  cases h'
  rfl

theorem Replays.unique {repo : Repository} {item : StackItem} {onto r r' : CommitId}
    (h : Replays sha256 repo item onto r) (h' : Replays sha256 repo item onto r') : r = r' := by
  obtain ⟨base, mine, ontoDoc, hbase, hmine, honto, rfl⟩ := h
  obtain ⟨base', mine', ontoDoc', hbase', hmine', honto', rfl⟩ := h'
  rw [hbase.unique hbase', hmine.unique hmine', honto.unique honto']

variable (sha256) in
/-- The change is linked to what a rebase replays. -/
def LinkedAt (e : RebaseEngine) (item : StackItem) (onto : CommitId) : Prop :=
  ∀ replayed, Replays sha256 e.repo item onto replayed → Linked e.graph item.change item.tip replayed

variable (sha256) in
/-- Another change is spared by a rebase. -/
def SparedAt (e : RebaseEngine) (d : ChangeId) (item : StackItem) (onto : CommitId) : Prop :=
  ∀ replayed, Replays sha256 e.repo item onto replayed → Spared e.graph d item.tip replayed

/-- What a rebase that succeeds does to the tips and the refs. -/
structure Moves (sha256 : List UInt8 → ObjectId) (e : RebaseEngine) (item : StackItem) (onto : CommitId)
    (out : RebaseOutcome) (e' : RebaseEngine) : Prop where
  tip_self : e'.graph.tip item.change = some out.newTip ↔ LinkedAt sha256 e item onto
  tip_other : ∀ d, d ≠ item.change → (e'.graph.tip d = e.graph.tip d ↔ SparedAt sha256 e d item onto)
  refs : ∀ a : Str, e'.log.refsNow[a]? = if item.change = a then some out.newTip else e.log.refsNow[a]?

theorem autoRebase_moves {e e' : RebaseEngine} {item : StackItem} {onto : CommitId} {out : RebaseOutcome}
    (h : Reached sha256 e) (hcall : e.autoRebase sha256 item.change item.base item.tip onto = .ok (.ok out, e')) :
    Moves sha256 e item onto out e' := by
  rcases autoRebase_cases hcall with ⟨⟨err, heq⟩, -⟩ | ⟨replayed, hreplays, hrecords⟩
  · cases heq
  · have hlast : ∀ {P : CommitId → Prop}, (∀ r, Replays sha256 e.repo item onto r → P r) ↔ P replayed := by
      intro P
      constructor
      · exact fun hall => hall replayed hreplays
      · intro hP r hr
        rwa [hr.unique hreplays]
    obtain ⟨conflicts, hresult⟩ := hrecords.result_eq
    have hgraph := hrecords.graph_eq
    by_cases hrec : Recordable e.graph item.tip replayed
    · obtain ⟨g', hg', hextends⟩ := recordSupersession_ok h.tracked item.change hrec
      rw [hg'] at hresult hgraph
      cases hresult
      cases hgraph
      refine ⟨?_, fun d hd => ?_, fun a => ?_⟩
      · exact (tip_self_iff hrec hextends).trans hlast.symm
      · exact (tip_other_iff h.tracked hrec hextends hd).trans hlast.symm
      · obtain ⟨n, hlog⟩ := hrecords.log_eq
        rw [hlog, OpLog.append, OpLog.refsNow_appendAt _ rfl, OpKind.applyTo, BTreeMap.getElem?_insert]
    · obtain ⟨g', hg', -⟩ := recordSupersession_refused h.tracked item.change hrec
      rw [hg'] at hresult
      cases hresult

/-- The tips that were returned are the tips in the graph and in the log. -/
def Agrees (e : RebaseEngine) (done : List (StackItem × RebaseOutcome)) : Prop :=
  ∀ d tip, returned done d = some tip → e.graph.tip d = some tip ∧ e.log.refsNow[d]? = some tip

/-- After a rebase of a change, and after each one of a stack, the graph and the log have the tips that were
    returned, exactly where each change is linked to what is replayed and those before it in the stack are
    spared. -/
theorem axes_agree_iff {e : RebaseEngine} (h : Reached sha256 e) :
    (∀ item onto out e', e.autoRebase sha256 item.change item.base item.tip onto = .ok (.ok out, e') →
      (e'.graph.tip item.change = some out.newTip ∧ e'.log.refsNow[item.change]? = some out.newTip ↔
        LinkedAt sha256 e item onto)) ∧
    ∀ items onto outs e', e.autoRebaseStack sha256 items onto = .ok (.ok outs, e') →
      ∃ done, items = done.map Prod.fst ∧ outs = done.map Prod.snd ∧ Rebases sha256 e onto done e' ∧
        ((∀ before after e₁, done = before ++ after → Rebases sha256 e onto before e₁ → Agrees e₁ before) ↔
          ∀ before item out after e₁, done = before ++ (item, out) :: after → Rebases sha256 e onto before e₁ →
            LinkedAt sha256 e₁ item (nextOnto onto before) ∧
              ∀ d, d ≠ item.change → (returned before d).isSome = true → SparedAt sha256 e₁ d item (nextOnto onto before)) := by
  constructor
  · intro item onto out e' hcall
    have hmoves := autoRebase_moves h hcall
    rw [hmoves.tip_self, hmoves.refs, if_pos rfl]
    exact and_iff_left rfl
  · intro items onto outs e' hcall
    obtain ⟨done, hitems, houts, hrun⟩ := autoRebaseStack_cases hcall
    refine ⟨done, hitems, houts, hrun, throughout_iff (fun d tip hnone => by cases hnone) ?_ hrun⟩
    intro before item out after e₁ e₂ _ hbefore hcall₁ hagrees
    have hmoves := autoRebase_moves (h.rebases hbefore) hcall₁
    constructor
    · intro hagrees'
      refine ⟨?_, fun d hd hsome => ?_⟩
      -- the change that was rebased agrees where its edge leads to the new tip
      · exact hmoves.tip_self.mp (hagrees' item.change _ (by rw [returned_concat, if_pos rfl])).1
      · obtain ⟨tip, htip⟩ := Option.isSome_iff_exists.mp hsome
        have htip' : returned (before ++ [(item, out)]) d = some tip := by
          rw [returned_concat, if_neg (Ne.symm hd), htip]
        apply (hmoves.tip_other d hd).mp
        rw [(hagrees' d tip htip').1, (hagrees d tip htip).1]
    · rintro ⟨hlinked, hspared⟩ d tip htip
      rw [returned_concat] at htip
      rw [hmoves.refs]
      split at htip
      · rename_i hself
        subst hself
        rw [if_pos rfl, ← htip]
        cases htip
        exact ⟨hmoves.tip_self.mpr hlinked, rfl⟩
      -- any other one that was returned agrees as before, unless the call moved it in the graph alone
      · rename_i hother
        rw [if_neg hother]
        obtain ⟨htipD, hrefD⟩ := hagrees d tip htip
        refine ⟨?_, hrefD⟩
        rw [(hmoves.tip_other d (Ne.symm hother)).mpr (hspared d (Ne.symm hother) (by rw [htip]; rfl)), htipD]

/-- The first rebase of a change. -/
theorem axes_agree_first :
    ∃ out e', (holding [['x'], ['y']]).autoRebase .ofSha256 ['c'] (textCommit ['x']) (textCommit ['x']) (textCommit ['y']) =
      .ok (.ok out, e') ∧ e'.graph.tip ['c'] = some out.newTip ∧ e'.log.refsNow[['c']]? = some out.newTip := by
  obtain ⟨out, e', hcall⟩ := first_succeeds
  exact ⟨out, e', hcall, ((axes_agree_iff (.holding [['x'], ['y']])).1 (itemOf ['c'] ['x']) _ out e' hcall).mpr
    fun _ _ => .inl ⟨.refl, rfl⟩⟩

/-- A change is rebased to a text that another change has left behind. The graph follows the edge of the other
    change. -/
theorem axes_part_at_shared_text :
    ∃ e e' out, Reached .ofSha256 e ∧
      e.autoRebase .ofSha256 ['c'] (textCommit ['a']) (textCommit ['a']) (textCommit ['x']) = .ok (.ok out, e') ∧
      e'.graph.tip ['c'] = some (textCommit ['y']) ∧ e'.log.refsNow[['c']]? = some (textCommit ['x']) ∧
      out.newTip = textCommit ['x'] ∧ textCommit ['x'] ≠ textCommit ['y'] := by
  have hrun : ((succeeded (holding [['x'], ['y'], ['a']]) (itemOf ['d'] ['x']) ['y']).bind fun r =>
      (succeeded r.2 (itemOf ['c'] ['a']) ['x']).map fun r' =>
        (r'.2.graph.tip ['c'], r'.2.log.refsNow[['c']]?, r'.1.newTip)) =
      some (some (textCommit ['y']), some (textCommit ['x']), textCommit ['x']) := by decide +kernel
  obtain ⟨⟨out₁, e₁⟩, hfirst, hrest⟩ := Option.bind_eq_some_iff.mp hrun
  obtain ⟨⟨out₂, e₂⟩, hsecond, hread⟩ := Option.map_eq_some_iff.mp hrest
  obtain ⟨htip, href, hnew⟩ : e₂.graph.tip ['c'] = _ ∧ e₂.log.refsNow[['c']]? = _ ∧ out₂.newTip = _ := by
    simpa only [Prod.mk.injEq] using hread
  exact ⟨e₁, e₂, out₂, .autoRebase (.holding _) _ _ _ (autoRebase_of_succeeded hfirst), autoRebase_of_succeeded hsecond,
    htip, href, hnew, textCommit_ne⟩

/-- The tips and the refs of changes that a stack does not name are as before. -/
def Framed (e e' : RebaseEngine) (items : List StackItem) : Prop :=
  ∀ d, d ∉ items.map StackItem.change → e'.graph.tip d = e.graph.tip d ∧ e'.log.refsNow[d]? = e.log.refsNow[d]?

/-- A rebase moves the tip and the ref of its own change alone, and the rebases of a stack those of the changes
    it names, exactly where the chains of the other changes are spared. -/
theorem rebase_frames_iff {e : RebaseEngine} (h : Reached sha256 e) :
    (∀ item onto out e', e.autoRebase sha256 item.change item.base item.tip onto = .ok (.ok out, e') →
      (Framed e e' [item] ↔ ∀ d, d ≠ item.change → SparedAt sha256 e d item onto)) ∧
    ∀ items onto outs e', e.autoRebaseStack sha256 items onto = .ok (.ok outs, e') →
      ∃ done, items = done.map Prod.fst ∧ outs = done.map Prod.snd ∧ Rebases sha256 e onto done e' ∧
        ((∀ before after e₁, done = before ++ after → Rebases sha256 e onto before e₁ → Framed e e₁ items) ↔
          ∀ before item out after e₁, done = before ++ (item, out) :: after → Rebases sha256 e onto before e₁ →
            ∀ d, d ∉ items.map StackItem.change → SparedAt sha256 e₁ d item (nextOnto onto before)) := by
  constructor
  · intro item onto out e' hcall
    have hmoves := autoRebase_moves h hcall
    unfold Framed
    refine forall_congr' fun d => ?_
    rw [List.map_singleton, List.mem_singleton]
    refine imp_congr_right fun hd => ?_
    rw [hmoves.tip_other d hd, hmoves.refs, if_neg (Ne.symm hd)]
    exact and_iff_left rfl
  · intro items onto outs e' hcall
    obtain ⟨done, rfl, houts, hrun⟩ := autoRebaseStack_cases hcall
    refine ⟨done, rfl, houts, hrun, throughout_iff (P := fun e₁ _ => Framed e e₁ _) (fun d _ => ⟨rfl, rfl⟩) ?_ hrun⟩
    intro before item out after e₁ e₂ hdone hbefore hcall₁ hframed
    have hmoves := autoRebase_moves (h.rebases hbefore) hcall₁
    -- the change at hand is one of the stack, so another one is not moved in the log
    have hnamed : item.change ∈ (done.map Prod.fst).map StackItem.change := by
      rw [hdone]
      simp
    unfold Framed
    refine forall₂_congr fun d hd => ?_
    have hother : d ≠ item.change := fun heq => hd (heq ▸ hnamed)
    obtain ⟨htip, href⟩ := hframed d hd
    rw [← hmoves.tip_other d hother, hmoves.refs, if_neg (Ne.symm hother), href, htip]
    exact and_iff_left rfl

/-- A change has been rebased; a rebase of another one, of other texts, leaves it alone. -/
theorem rebase_frames_apart :
    ∃ e e' out, Reached .ofSha256 e ∧
      e.autoRebase .ofSha256 ['c'] (textCommit ['a']) (textCommit ['a']) (textCommit ['b']) = .ok (.ok out, e') ∧
      e.graph.tip ['d'] = some (textCommit ['y']) ∧ Framed e e' [itemOf ['c'] ['a']] := by
  have hrun : ((succeeded (holding [['x'], ['y'], ['a'], ['b']]) (itemOf ['d'] ['x']) ['y']).bind fun r =>
      (succeeded r.2 (itemOf ['c'] ['a']) ['b']).map fun _ =>
        ((r.2.graph.tip ['d'], r.2.graph.changes.keys),
          (r.2.graph.first ['d'], r.2.graph.newer (textCommit ['x']), r.2.graph.newer (textCommit ['y'])))) =
      some ((some (textCommit ['y']), [['d']]), (some (textCommit ['x']), some (textCommit ['y']), none)) := by
    decide +kernel
  obtain ⟨⟨out₁, e₁⟩, hfirst, hrest⟩ := Option.bind_eq_some_iff.mp hrun
  obtain ⟨⟨out₂, e₂⟩, hsecond, hread⟩ := Option.map_eq_some_iff.mp hrest
  obtain ⟨⟨htip, hkeys⟩, hd, hx, hy⟩ : (e₁.graph.tip ['d'] = _ ∧ e₁.graph.changes.keys = [['d']]) ∧
      e₁.graph.first ['d'] = _ ∧ e₁.graph.newer _ = _ ∧ e₁.graph.newer _ = _ := by
    simpa only [Prod.mk.injEq] using hread
  have hreached : Reached .ofSha256 e₁ := .autoRebase (.holding _) _ _ _ (autoRebase_of_succeeded hfirst)
  refine ⟨e₁, e₂, out₂, hreached, autoRebase_of_succeeded hsecond, htip, ?_⟩
  refine ((rebase_frames_iff hreached).1 (itemOf ['c'] ['a']) _ out₂ e₂ (autoRebase_of_succeeded hsecond)).mpr ?_
  -- the chain of the other change runs from its old text to its new one
  refine fun d _ replayed _ => .inr fun r hr hreaches => absurd hreaches ?_
  have hmem : d ∈ e₁.graph.changes.keys := by
    rw [Std.ExtTreeMap.mem_keys, Std.ExtTreeMap.mem_iff_isSome_getElem?]
    unfold ChangeGraph.first at hr
    obtain ⟨c, hc, -⟩ := Option.bind_eq_some_iff.mp hr
    exact Option.isSome_iff_exists.mpr ⟨c, hc⟩
  rw [hkeys, List.mem_singleton] at hmem
  subst hmem
  obtain rfl := Option.some.inj (hd.symm.trans hr)
  intro hreaches
  rcases Relation.ReflTransGen.cases_head hreaches with heq | ⟨b, hb, hrest⟩
  · exact absurd heq (by decide +kernel)
  · obtain rfl := Option.some.inj (hx.symm.trans hb)
    rcases Relation.ReflTransGen.cases_head hrest with heq | ⟨c, hc, -⟩
    · exact absurd heq (by decide +kernel)
    · exact absurd (hy.symm.trans hc) nofun

/-- Two changes start from the same text. Rebasing the one moves the tip of the other in the graph. -/
theorem rebase_moves_other :
    ∃ e e' out, Reached .ofSha256 e ∧
      e.autoRebase .ofSha256 ['c'] (textCommit ['x']) (textCommit ['x']) (textCommit ['y']) = .ok (.ok out, e') ∧
      e.graph.tip ['d'] = some (textCommit ['x']) ∧ e'.graph.tip ['d'] = some (textCommit ['y']) ∧
      textCommit ['x'] ≠ textCommit ['y'] ∧ ¬ Framed e e' [itemOf ['c'] ['x']] := by
  have hrun : ((succeeded (holding [['x'], ['y']]) (itemOf ['d'] ['x']) ['x']).bind fun r =>
      (succeeded r.2 (itemOf ['c'] ['x']) ['y']).map fun r' => (r.2.graph.tip ['d'], r'.2.graph.tip ['d'])) =
      some (some (textCommit ['x']), some (textCommit ['y'])) := by decide +kernel
  obtain ⟨⟨out₁, e₁⟩, hfirst, hrest⟩ := Option.bind_eq_some_iff.mp hrun
  obtain ⟨⟨out₂, e₂⟩, hsecond, hread⟩ := Option.map_eq_some_iff.mp hrest
  obtain ⟨hbefore, hafter⟩ : e₁.graph.tip ['d'] = _ ∧ e₂.graph.tip ['d'] = _ := by
    simpa only [Prod.mk.injEq] using hread
  refine ⟨e₁, e₂, out₂, .autoRebase (.holding _) _ _ _ (autoRebase_of_succeeded hfirst), autoRebase_of_succeeded hsecond,
    hbefore, hafter, textCommit_ne, fun hframed => ?_⟩
  have hsame := (hframed ['d'] (by decide)).1
  rw [hbefore, hafter, Option.some.injEq] at hsame
  exact textCommit_ne hsame.symm

end RebaseEngine

end Omoplata
