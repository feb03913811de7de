-- SUMMARY: Which queue a landing shows up in, from the names of the queue and the change.
import Omoplata.Cli.Repo
import Omoplata.Work.Revset

/-!
# Queue membership

A landing writes a ref named after its queue and its change, both of which may contain
slashes. The content of a queue and the `landed` query read the queue back from the part
of the name before the first slash, so the two ends agree only for some names.
-/

namespace Omoplata

/-! ## Reading a name back -/

theorem splitOnceSlash_eq (s : Str) : splitOnceSlash s = splitOnce '/' s := rfl

/-- The queue that owns a ref, if it is a public one. -/
def ownerOf (registry : QueueRegistry) (name : Str) : Option Str :=
  if publicSpace.isPrefixOf name then some (refOwner registry (name.drop publicSpace.length)) else none

/-- The refs a queue owns. -/
def ownedRefs (registry : QueueRegistry) (refs : Refs) (queue : Str) : Refs :=
  refs.filterMap fun name tip => if ownerOf registry name = some queue then some tip else none

/-- The tips of the refs a queue owns, in ref order. -/
def ownedTips (registry : QueueRegistry) (refs : Refs) (queue : Str) : List CommitId :=
  (refs.toList.filter fun p => ownerOf registry p.1 = some queue).map Prod.snd

/-- Lay the tree of a tip over others. -/
def overlayTip (host : Host) (store : Store) (base : TextFiles) (tip : CommitId) : Except CliError TextFiles := do
  match ← parseTip tip with
  | none => pure base
  | some id => do
      let files ← checkOut host store id
      pure (overlay base (readTreeFiles files))

theorem mem_ownedTips {registry : QueueRegistry} {refs : Refs} {queue : Str} {tip : CommitId} :
    tip ∈ ownedTips registry refs queue ↔ ∃ name, refs[name]? = some tip ∧ ownerOf registry name = some queue := by
  simp [ownedTips, Std.ExtTreeMap.mem_toList_iff_getElem?_eq_some]

/-- The content of a queue is the overlay of the tips it owns. -/
theorem materializeQueueBase_eq (host : Host) (store : Store) (registry : QueueRegistry) (refs : Refs) (queue : Str) :
    materializeQueueBase host store registry refs queue none =
      (ownedTips registry refs queue).foldlM (overlayTip host store) ∅ := by
  unfold materializeQueueBase ownedTips
  generalize (∅ : TextFiles) = base
  induction refs.toList generalizing base with
  | nil => rfl
  | cons p entries ih =>
      obtain ⟨name, tip⟩ := p
      rw [List.foldlM_cons]
      by_cases howner : ownerOf registry name = some queue
      · have hpublic : publicSpace.isPrefixOf name = true := by
          by_contra h
          simp [ownerOf, h] at howner
        have hqueue : refOwner registry (name.drop publicSpace.length) = queue := by
          simpa [ownerOf, hpublic] using howner
        simp only [List.filter_cons, howner, decide_true, if_true, List.map_cons, List.foldlM_cons]
        simp only [hpublic, hqueue, reduceCtorEq, if_false, Bool.not_true, Bool.false_eq_true, ne_eq, not_true_eq_false,
          ← ih]
        rfl
      · have hskip : publicSpace.isPrefixOf name = true → refOwner registry (name.drop publicSpace.length) ≠ queue := by
          intro hpublic heq
          simp [ownerOf, hpublic, heq] at howner
        simp only [List.filter_cons, howner, decide_false, Bool.false_eq_true, if_false, ← ih]
        by_cases hpublic : publicSpace.isPrefixOf name = true
        · simp only [hpublic, reduceCtorEq, if_false, Bool.not_true, Bool.false_eq_true, if_pos (hskip hpublic), pure_bind]
        · simp only [hpublic, reduceCtorEq, if_false, Bool.not_false, if_true, pure_bind]

/-- The `landed` query reads owners as the content of queues does. -/
theorem owner_revsetContext (registry : QueueRegistry) (refs : Refs) (name : Str) :
    (revsetContext registry refs).owner name = ownerOf registry name := by
  have hqueues : ∀ first : Str, (revsetContext registry refs).queues.contains first = (registry.get first).isSome := by
    intro first
    unfold revsetContext MapContext.withQueues MapContext.new QueueRegistry.get
    rw [Bool.eq_iff_iff, List.find?_isSome]
    simp [Std.ExtTreeSet.contains_insertMany_list]
  unfold MapContext.owner ownerOf refOwner
  rw [splitOnceSlash_eq]
  simp only [hqueues]
  show (if publicSpace.isPrefixOf name then _ else _) = _
  split
  · rw [show "public/".toList.length = publicSpace.length from rfl]
    cases splitOnce '/' (name.drop publicSpace.length) with
    | none => rfl
    | some p => exact (apply_ite some _ _ _).symm
  · rfl

/-! ## Landings -/

/-- The ref of a landing leads back to its queue: trunk has no change whose name begins with
    another registered queue, and the name of any other queue has no slash. -/
def NamesQueue (registry : QueueRegistry) (queue : Str) (c : ChangeId) : Prop :=
  if queue = "trunk".toList then
    ∀ first rest, splitOnce '/' c = some (first, rest) → (registry.get first).isSome → first = "trunk".toList
  else '/' ∉ queue

theorem ownerOf_queueRef_iff {registry : QueueRegistry} {queue : Str}
    (hqueue : (registry.get queue).isSome ∨ queue = "trunk".toList) (c : ChangeId) :
    ownerOf registry (queueRef queue c) = some queue ↔ NamesQueue registry queue c := by
  have howner : ∀ rest, ownerOf registry (publicSpace ++ rest) = some (refOwner registry rest) := fun rest => by
    simp [ownerOf]
  unfold NamesQueue queueRef
  split
  · rename_i htrunk
    rw [show "public/".toList = publicSpace from rfl, howner, Option.some.injEq, refOwner, splitOnceSlash_eq, htrunk]
    cases splitOnce '/' c with
    | none => simp
    | some p =>
        obtain ⟨first, rest⟩ := p
        by_cases hget : (registry.get first).isSome = true
        · simp [hget]
        · simp [hget]
  · rename_i hother
    rw [show "public/".toList = publicSpace from rfl, List.append_assoc, List.append_assoc, howner,
      Option.some.injEq, refOwner, splitOnceSlash_eq, List.singleton_append]
    constructor
    · intro h hslash
      cases hsplit : splitOnce '/' (queue ++ '/' :: c) with
      | none => exact splitOnce_eq_none_iff.mp hsplit (by simp)
      | some p =>
          obtain ⟨first, rest⟩ := p
          have hfirst := (splitOnce_eq_some hsplit).2
          rw [hsplit] at h
          simp only at h
          split at h
          · exact hfirst (h ▸ hslash)
          · exact hother h.symm
    · intro hslash
      rw [splitOnce_append hslash]
      simp only
      rw [if_pos (hqueue.resolve_right hother)]

/-- What landing changes at `tips` in a queue has to do with the refs: the tips are landed in the
    queue and laid into its content, and the other queues are as before. -/
structure Separate (registry : QueueRegistry) (queue : Str) (tips : List CommitId) (refs refs' : Refs) : Prop where
  landed : ∀ tip ∈ tips, tip ∈ (revsetContext registry refs').landed queue
  content : (∀ tip ∈ tips, tip ∈ ownedTips registry refs' queue) ∧ ∀ host store,
    materializeQueueBase host store registry refs' queue none =
      (ownedTips registry refs' queue).foldlM (overlayTip host store) ∅
  landed_other : ∀ other, other ≠ queue →
    (revsetContext registry refs').landed other = (revsetContext registry refs).landed other
  refs_other : ∀ other, other ≠ queue → ownedRefs registry refs' other = ownedRefs registry refs other

/-- The queue owns a ref at the tip once the changes are landed, as one of them has a ref that leads
    back to the queue, or another ref was there before. -/
def StillOwns (registry : QueueRegistry) (refs : Refs) (g : ChangeGraph) (queue : Str) (changes : List ChangeId)
    (tip : CommitId) : Prop :=
  (∃ c ∈ changes, NamesQueue registry queue c ∧ g.tip c = some tip) ∨
    ∃ name, (∀ c ∈ changes, name ≠ queueRef queue c) ∧ refs[name]? = some tip ∧ ownerOf registry name = some queue

/-- When a landing keeps the queues apart: the ref of each change leads back to the queue, or it
    points at the tip already and the queue owns a ref that does. -/
def LandsApart (registry : QueueRegistry) (refs : Refs) (g : ChangeGraph) (queue : Str) (changes : List ChangeId) : Prop :=
  ∀ c ∈ changes, NamesQueue registry queue c ∨
    (refs[queueRef queue c]? = g.tip c ∧ ∀ tip, g.tip c = some tip → StillOwns registry refs g queue changes tip)

theorem mem_landed_iff {registry : QueueRegistry} {refs : Refs} {queue : Str} {tip : CommitId} :
    tip ∈ (revsetContext registry refs).landed queue ↔
      ∃ name, refs[name]? = some tip ∧ ownerOf registry name = some queue := by
  rw [MapContext.mem_landed]
  simp only [owner_revsetContext]
  rfl

theorem getElem?_ownedRefs {registry : QueueRegistry} {refs : Refs} {queue name : Str} {tip : CommitId} :
    (ownedRefs registry refs queue)[name]? = some tip ↔ refs[name]? = some tip ∧ ownerOf registry name = some queue := by
  unfold ownedRefs
  rw [Std.ExtTreeMap.getElem?_filterMap', Option.bind_eq_some_iff]
  constructor
  · rintro ⟨tip', htip, hif⟩
    split at hif
    · rename_i howner
      exact ⟨Option.some.inj hif ▸ htip, howner⟩
    · cases hif
  · rintro ⟨htip, howner⟩
    exact ⟨tip, htip, if_pos howner⟩

theorem getElem?_eq_of_ownedRefs {registry : QueueRegistry} {refs refs' : Refs} {queue name : Str}
    (h : ownedRefs registry refs' queue = ownedRefs registry refs queue) (howner : ownerOf registry name = some queue) :
    refs'[name]? = refs[name]? := by
  have hentry : ∀ refs : Refs, (ownedRefs registry refs queue)[name]? = refs[name]? := by
    intro refs
    refine Option.ext fun tip => ?_
    rw [getElem?_ownedRefs]
    exact and_iff_left howner
  rw [← hentry refs', h, hentry]

/-- Writing refs of a queue, as the other queues see it. -/
theorem separate_iff {registry : QueueRegistry} {queue : Str} {g : ChangeGraph} {changes : List ChangeId}
    {refs refs' : Refs} (hqueue : (registry.get queue).isSome ∨ queue = "trunk".toList)
    (hset : ∀ c ∈ changes, refs'[queueRef queue c]? = g.tip c)
    (hframe : ∀ name, (∀ c ∈ changes, name ≠ queueRef queue c) → refs'[name]? = refs[name]?) :
    Separate registry queue (changes.filterMap g.tip) refs refs' ↔ LandsApart registry refs g queue changes := by
  constructor
  · intro h c hc
    by_cases hown : ownerOf registry (queueRef queue c) = some queue
    · exact .inl ((ownerOf_queueRef_iff hqueue c).mp hown)
    · right
      constructor
      · -- the queue that owns the ref has not changed, so the ref has not
        obtain ⟨other, hother⟩ : ∃ other, ownerOf registry (queueRef queue c) = some other := by
          refine Option.isSome_iff_exists.mp ?_
          unfold ownerOf queueRef publicSpace
          split <;> simp
        have hsame := h.refs_other other fun hsame => hown (hsame ▸ hother)
        exact (getElem?_eq_of_ownedRefs hsame hother).symm.trans (hset c hc)
      · intro tip heq
        obtain ⟨name, hname, howner⟩ := mem_landed_iff.mp (h.landed tip (List.mem_filterMap.mpr ⟨c, hc, heq⟩))
        by_cases hlands : ∀ c' ∈ changes, name ≠ queueRef queue c'
        · exact .inr ⟨name, hlands, hframe name hlands ▸ hname, howner⟩
        · simp only [not_forall, not_not] at hlands
          obtain ⟨c', hc', rfl⟩ := hlands
          exact .inl ⟨c', hc', (ownerOf_queueRef_iff hqueue c').mp howner, (hset c' hc').symm.trans hname⟩
  · intro h
    have hother : ∀ other name, other ≠ queue → ownerOf registry name = some other → refs'[name]? = refs[name]? := by
      intro other name hne howner
      by_cases hlands : ∀ c ∈ changes, name ≠ queueRef queue c
      · exact hframe name hlands
      · simp only [not_forall, not_not] at hlands
        obtain ⟨c, hc, rfl⟩ := hlands
        cases h c hc with
        | inl hnames =>
            rw [(ownerOf_queueRef_iff hqueue c).mpr hnames] at howner
            exact absurd (Option.some.inj howner).symm hne
        | inr hsame => exact (hset c hc).trans hsame.1.symm
    have howned : ∀ tip ∈ changes.filterMap g.tip, ∃ name, refs'[name]? = some tip ∧ ownerOf registry name = some queue := by
      intro tip hmem
      obtain ⟨c, hc, heq⟩ := List.mem_filterMap.mp hmem
      cases h c hc with
      | inl hnames => exact ⟨_, (hset c hc).trans heq, (ownerOf_queueRef_iff hqueue c).mpr hnames⟩
      | inr hsame =>
          cases hsame.2 tip heq with
          | inl hkept =>
              obtain ⟨c', hc', hnames, htip⟩ := hkept
              exact ⟨_, (hset c' hc').trans htip, (ownerOf_queueRef_iff hqueue c').mpr hnames⟩
          | inr hkept =>
              obtain ⟨name, hlands, hname, howner⟩ := hkept
              exact ⟨name, (hframe name hlands).trans hname, howner⟩
    refine ⟨fun tip hmem => mem_landed_iff.mpr (howned tip hmem), ⟨fun tip hmem => mem_ownedTips.mpr (howned tip hmem),
      fun host store => materializeQueueBase_eq host store registry refs' queue⟩, fun other hne => ?_, fun other hne => ?_⟩
    · refine Std.ExtTreeSet.ext_mem fun commit => ?_
      rw [mem_landed_iff, mem_landed_iff]
      refine exists_congr fun name => and_congr_left fun howner => ?_
      rw [hother other name hne howner]
    · refine Std.ExtTreeMap.ext_getElem? fun name => Option.ext fun commit => ?_
      rw [getElem?_ownedRefs, getElem?_ownedRefs]
      refine and_congr_left fun howner => ?_
      rw [hother other name hne howner]

/-- A landing keeps the queues apart exactly if the refs it writes lead back to its queue, or
    nothing is left for it to do. -/
theorem landing_separate_iff {registry : QueueRegistry} {queue : Str} {policy : QueuePolicy} {submission : Submission}
    {gates : QueueGates} {g g' : ChangeGraph} {log log' : OpLog} {result : LandResult}
    (hpolicy : registry.resolve queue = .ok policy)
    (hland : landSubmissionInQueue submission policy gates g log = .ok (result, g', log')) :
    Separate registry queue (submission.changes.filterMap g.tip) log.refsNow log'.refsNow ↔
      LandsApart registry log.refsNow g queue submission.changes := by
  obtain ⟨-, landed, hchanges⟩ := landSubmissionInQueue_ok hland
  obtain ⟨-, hset, hframe⟩ := landChanges_ok hchanges
  have hname := QueueRegistry.resolve_name hpolicy
  rw [hname] at hset hframe
  have hqueue : (registry.get queue).isSome ∨ queue = "trunk".toList := by
    unfold QueueRegistry.resolve at hpolicy
    cases hget : registry.get queue with
    | some q => exact .inl rfl
    | none =>
        simp only [hget] at hpolicy
        split at hpolicy
        · rename_i htrunk
          exact .inr htrunk
        · cases hpolicy
  exact separate_iff hqueue (fun c hc => (hset c hc).2) hframe

/-- A change with one revision. -/
def oneChange : ChangeGraph := ChangeGraph.new.addChange ⟨"c".toList, ["t".toList], .draft⟩

/-- A submission of that change. -/
def oneSubmission : Submission := .new "s".toList "title".toList ["c".toList] "ada".toList

/-- A queue without gates. -/
def openQueue (name : Str) : QueuePolicy := ⟨name, none, none, false, true⟩

/-- A landing in a queue with a dot in its name. -/
theorem landing_separate_dot :
    ∃ result g' log', landSubmissionInQueue oneSubmission (openQueue "1.2".toList) ⟨0, none⟩ oneChange OpLog.new =
        .ok (result, g', log') ∧
      Separate ⟨[openQueue "1.2".toList]⟩ "1.2".toList ["t".toList] OpLog.new.refsNow log'.refsNow := by
  refine ⟨_, _, _, rfl, ?_⟩
  refine (@landing_separate_iff _ _ _ oneSubmission ⟨0, none⟩ oneChange _ _ _ _ (by rfl) rfl).mpr ?_
  intro c _
  left
  unfold NamesQueue
  rw [if_neg (by decide)]
  decide

/-- A queue whose name has a slash is registered, but what lands in it is in trunk. -/
theorem landing_slash :
    ∃ registry, QueueRegistry.add ⟨[]⟩ (openQueue "r/1".toList) = .ok registry ∧
      ∃ result g' log', landSubmissionInQueue oneSubmission (openQueue "r/1".toList) ⟨0, none⟩ oneChange OpLog.new =
          .ok (result, g', log') ∧
        "t".toList ∉ (revsetContext registry log'.refsNow).landed "r/1".toList ∧
        "t".toList ∈ (revsetContext registry log'.refsNow).landed "trunk".toList ∧
        "t".toList ∉ (revsetContext registry OpLog.new.refsNow).landed "trunk".toList := by
  refine ⟨_, rfl, _, _, _, rfl, ?_⟩
  decide +kernel

end Omoplata
