-- SUMMARY: Landing queues and their policies, definition-granular support, and landing a submission.
import Omoplata.Drivers.Rust
import Omoplata.Identity.Change
import Omoplata.Work.OpLog

/-!
# Landing queues

A queue's policy says which of the facts observed about a submission refuse it. A
landing sets the public ref of each change to its tip in the change graph.
-/

namespace Omoplata

/-! ## Support -/

/-- The support of a whole file that changed. -/
def wholeFileToken : Str := Char.ofNat 0 :: "whole-file".toList

/-- A container's header up to the opening brace with its footer from the closing one. -/
def containerShell (text : Str) : Str :=
  match findChar '{' text, rfindChar '}' text with
  | some opening, some closing =>
      if opening ≤ closing then text.take (opening + 1) ++ text.drop closing else text
  | _, _ => text

/-- What a definition is compared by: a container by its shell, any other by its text. -/
def effectiveText (src : Str) (d : Definition) : Str :=
  let text := (getRange src d.byteRange).getD []
  match d.kind with
  | .impl | .module | .trait => containerShell text
  | _ => text

/-- The key of a definition, `<kind> <path>`. -/
def Definition.key (d : Definition) : Str := d.kind.label ++ [' '] ++ d.path

/-- Each definition's comparison text by its key; of two with one key the later counts. -/
def effectiveTexts (src : Str) (defs : List Definition) : BTreeMap Str Str :=
  defs.foldl (fun map d => map.insert d.key (effectiveText src d)) ∅

/-- The keys of the definitions added, changed or removed from `base` to `new`; nothing
    where a side does not parse. -/
def rustSupport (G : Grammar) (base new : Str) : Option (BTreeSet Str) :=
  if !G.accepts base || !G.accepts new then none
  else do
    let baseEff := effectiveTexts base (← (G.extractDefinitions base).toOption)
    let newEff := effectiveTexts new (← (G.extractDefinitions new).toOption)
    let changed := newEff.toList.filter fun (key, text) => baseEff[key]? != some text
    let removed := baseEff.keys.filter fun key => !newEff.contains key
    some (Std.ExtTreeSet.ofList (changed.map Prod.fst ++ removed))

/-- The support of a file that is opaque. -/
def wholeFileSupport : BTreeSet Str := Std.ExtTreeSet.ofList [wholeFileToken]

/-! ## Policies -/

/-- The policy of a landing queue. -/
structure QueuePolicy where
  name : Str
  description : Option Str
  validate : Option Str
  requireApproval : Bool
  allowCarried : Bool
  deriving DecidableEq, Repr

/-- The implicit queue. -/
def QueuePolicy.trunk : QueuePolicy :=
  ⟨"trunk".toList, some "the implicit fleet trunk".toList, none, true, true⟩

/-- The registered queues, in registration order. -/
structure QueueRegistry where
  queues : List QueuePolicy
  deriving DecidableEq, Repr

namespace QueueRegistry

def get (reg : QueueRegistry) (name : Str) : Option QueuePolicy :=
  reg.queues.find? fun q => q.name == name

/-- Register a queue under a name that is not taken. -/
def add (reg : QueueRegistry) (policy : QueuePolicy) : Except WorkError QueueRegistry :=
  if (reg.get policy.name).isSome then .error (.queueExists policy.name)
  else .ok ⟨reg.queues ++ [policy]⟩

/-- The policy of a queue; `trunk` need not be registered. -/
def resolve (reg : QueueRegistry) (name : Str) : Except WorkError QueuePolicy :=
  match reg.get name with
  | some q => .ok q
  | none => if name = "trunk".toList then .ok .trunk else .error (.unknownQueue name)

end QueueRegistry

/-- What was observed about a submission: the conflict values it carries, and the
    validator's verdict if it ran. -/
structure QueueGates where
  carriedValues : Nat
  validated : Option Bool
  deriving DecidableEq, Repr

/-- What was observed about a batch, with the support of each submission by path. -/
structure BatchGates where
  manifests : List (SubmissionId × BTreeMap Str (BTreeSet Str))
  carriedValues : Nat
  validated : Option Bool

/-! ## Batches -/

/-- A colliding definition as the error names it. -/
def collidingName (path token : Str) : Str :=
  if token = wholeFileToken then path else path ++ " (".toList ++ token ++ ")".toList

/-- The definitions that two supports have in common. -/
def colliding (a b : BTreeMap Str (BTreeSet Str)) : List Str :=
  a.toList.flatMap fun (path, support) =>
    match b[path]? with
    | none => []
    | some other => (support.toList.filter other.contains).map (collidingName path)

/-- The error for the first pair of submissions in a batch whose supports overlap. -/
def firstOverlap : List (SubmissionId × BTreeMap Str (BTreeSet Str)) → Option WorkError
  | [] => none
  | (a, support) :: rest =>
      let overlap := rest.findSome? fun (b, other) =>
        let paths := colliding support other
        if paths.isEmpty then none
        else some (.batchOverlap a b (paths.mergeSort fun p q => (compare p q).isLE))
      overlap.or (firstOverlap rest)

/-! ## Landing -/

/-- The result of a landing. -/
structure LandResult where
  submissionId : SubmissionId
  landedChanges : List ChangeId
  message : Str
  deriving DecidableEq, Repr

/-- The public ref a landing in a queue writes for a change. -/
def queueRef (queue : Str) (change : ChangeId) : Str :=
  if queue = "trunk".toList then "public/".toList ++ change
  else "public/".toList ++ queue ++ ['/'] ++ change

/-- Advance a draft change to public. -/
def publishChange (g : ChangeGraph) (id : ChangeId) (change : Change) :
    Except WorkError ChangeGraph :=
  if change.phase = .draft then (g.setPhase id .published).mapError .identity else .ok g

/-- The note of the operation that lands a change. -/
def landNote (policy : QueuePolicy) (id : ChangeId) : Str :=
  "land change ".toList ++ id ++
    if policy.name = "trunk".toList then [] else " (queue ".toList ++ policy.name ++ ")".toList

/-- The loop that lands the changes one by one. -/
def landChanges (policy : QueuePolicy) :
    List ChangeId → ChangeGraph → OpLog → List ChangeId →
      Except WorkError (List ChangeId × ChangeGraph × OpLog)
  | [], g, log, landed => .ok (landed, g, log)
  | id :: ids, g, log, landed =>
      match g.change id with
      | none => .error (.unknownChange id)
      | some change => do
          let g ← publishChange g id change
          landChanges policy ids g
            (log.setRef (queueRef policy.name id) (g.tip id) (some (landNote policy id)))
            (landed ++ [id])

/-- Why a validator's verdict refuses. -/
def refusalReason (gates : QueueGates) : Str :=
  if gates.validated = some false then "validator exited non-zero".toList
  else "validator was not run".toList

/-- The message of a landing. -/
def landMessage (submission : Submission) (policy : QueuePolicy) (gates : QueueGates) : Str :=
  "Submission ".toList ++ submission.id ++ " landed in queue ".toList ++ policy.name ++
    if gates.carriedValues > 0 then
      ", carrying ".toList ++ Nat.toDigits 10 gates.carriedValues ++ " conflict value(s)".toList
    else []

/-- Land a submission into a queue, applying the queue's policy. -/
def landSubmissionInQueue (submission : Submission) (policy : QueuePolicy) (gates : QueueGates)
    (g : ChangeGraph) (log : OpLog) : Except WorkError (LandResult × ChangeGraph × OpLog) :=
  if policy.requireApproval && !submission.isApproved then
    .error (.submissionNotApproved submission.id)
  else if gates.carriedValues > 0 && !policy.allowCarried then
    .error (.queueCarriedRefused policy.name gates.carriedValues)
  else if policy.validate.isSome && gates.validated != some true then
    .error (.queueValidationFailed policy.name (refusalReason gates))
  else do
    let (landed, g, log) ← landChanges policy submission.changes g log []
    pure (⟨submission.id, landed, landMessage submission policy gates⟩, g, log)

/-! ## What a landing does -/

theorem QueueRegistry.resolve_name {reg : QueueRegistry} {name : Str} {policy : QueuePolicy}
    (h : reg.resolve name = .ok policy) : policy.name = name := by
  unfold resolve get at h
  cases hfind : reg.queues.find? fun q => q.name == name with
  | some q =>
      simp only [hfind, Except.ok.injEq] at h
      subst h
      simpa using List.find?_some hfind
  | none =>
      simp only [hfind] at h
      split at h
      · rename_i htrunk
        rw [Except.ok.injEq] at h
        rw [← h, htrunk, QueuePolicy.trunk]
      · simp at h

theorem queueRef_injective (queue : Str) : Function.Injective (queueRef queue) := by
  intro c c' h
  unfold queueRef at h
  split at h
  · exact List.append_cancel_left h
  · exact List.append_cancel_left h

theorem publishChange_ok {g g' : ChangeGraph} {id : ChangeId} {change : Change}
    (h : publishChange g id change = .ok g') (c : ChangeId) :
    g'.tip c = g.tip c ∧ (g'.change c).isSome = (g.change c).isSome := by
  unfold publishChange at h
  split at h
  · cases hset : g.setPhase id .published with
    | error e => simp [hset, Except.mapError] at h
    | ok g₁ =>
        rw [hset, Except.mapError, Except.ok.injEq] at h
        exact h ▸ ChangeGraph.setPhase_ok hset c
  · rw [Except.ok.injEq] at h
    simp [h]

/-- A change that is there can be published. -/
theorem publishChange_isOk {g : ChangeGraph} {id : ChangeId} {change : Change}
    (h : g.change id = some change) : ∃ g', publishChange g id change = .ok g' := by
  unfold publishChange
  split
  · rename_i hdraft
    unfold ChangeGraph.setPhase
    unfold ChangeGraph.change at h
    simp only [h, hdraft, reduceCtorEq, false_and, if_false, Except.mapError]
    exact ⟨_, rfl⟩
  · exact ⟨g, rfl⟩

/-- Landing changes sets their public refs to their tips and leaves every other ref. -/
theorem landChanges_ok {policy : QueuePolicy} {ids landed landed' : List ChangeId}
    {g g' : ChangeGraph} {log log' : OpLog}
    (h : landChanges policy ids g log landed = .ok (landed', g', log')) :
    (∀ c, g'.tip c = g.tip c ∧ (g'.change c).isSome = (g.change c).isSome) ∧
      (∀ c ∈ ids, (g.change c).isSome ∧ log'.refsNow[queueRef policy.name c]? = g.tip c) ∧
      ∀ name, (∀ c ∈ ids, name ≠ queueRef policy.name c) →
        log'.refsNow[name]? = log.refsNow[name]? := by
  induction ids generalizing g log landed with
  | nil =>
      obtain ⟨-, rfl, rfl⟩ : landed = landed' ∧ g = g' ∧ log = log' := by simpa [landChanges] using h
      simp
  | cons id ids ih =>
      unfold landChanges at h
      cases hc : g.change id with
      | none => simp [hc] at h
      | some change =>
          simp only [hc] at h
          cases hpub : publishChange g id change with
          | error e => simp [hpub, bind, Except.bind] at h
          | ok g₁ =>
              simp only [hpub, bind, Except.bind] at h
              have hg₁ := publishChange_ok hpub
              obtain ⟨hg', hset, hframe⟩ := ih h
              refine ⟨fun c => ?_, fun c hmem => ?_, fun name hname => ?_⟩
              · rw [(hg' c).1, (hg' c).2]
                exact hg₁ c
              · by_cases hin : c ∈ ids
                · rw [← (hg₁ c).1, ← (hg₁ c).2]
                  exact hset c hin
                · obtain rfl : c = id := (List.mem_cons.mp hmem).resolve_right hin
                  have hother : ∀ c' ∈ ids, queueRef policy.name c ≠ queueRef policy.name c' := by
                    rintro c' hc' heq
                    exact hin (queueRef_injective policy.name heq ▸ hc')
                  refine ⟨by simp [hc], ?_⟩
                  rw [hframe _ hother, OpLog.getElem?_refsNow_setRef, if_pos rfl, (hg₁ c).1]
              · rw [hframe _ fun c hc => hname c (List.mem_cons_of_mem _ hc),
                  OpLog.getElem?_refsNow_setRef, if_neg (Ne.symm (hname id (by simp)))]

/-- What the gates of a queue let through. -/
structure GatesPass (policy : QueuePolicy) (gates : QueueGates) (submission : Submission) : Prop where
  approved : policy.requireApproval = true → submission.isApproved = true
  carried : policy.allowCarried = false → gates.carriedValues = 0
  validated : policy.validate.isSome = true → gates.validated = some true

/-- The gates pass where none of the checks of a landing refuses. -/
theorem gatesPass_iff {submission : Submission} {policy : QueuePolicy} {gates : QueueGates} :
    GatesPass policy gates submission ↔
      (policy.requireApproval && !submission.isApproved) = false ∧
        (decide (gates.carriedValues > 0) && !policy.allowCarried) = false ∧
          (policy.validate.isSome && gates.validated != some true) = false := by
  constructor
  · intro h
    refine ⟨?_, ?_, ?_⟩
    · cases hreq : policy.requireApproval with
      | false => rfl
      | true => simp [h.approved hreq]
    · cases hallow : policy.allowCarried with
      | true => simp
      | false => simp [h.carried hallow]
    · cases hval : policy.validate.isSome with
      | false => rfl
      | true => simp [h.validated hval]
  · rintro ⟨happroved, hcarried, hvalidated⟩
    refine ⟨fun hreq => ?_, fun hallow => ?_, fun hval => ?_⟩
    · simpa [hreq] using happroved
    · simpa [hallow] using hcarried
    · simpa [hval] using hvalidated

/-- A submission that lands has passed the gates, and its changes are public at their tips. -/
theorem landSubmissionInQueue_ok {submission : Submission} {policy : QueuePolicy}
    {gates : QueueGates} {g g' : ChangeGraph} {log log' : OpLog} {result : LandResult}
    (h : landSubmissionInQueue submission policy gates g log = .ok (result, g', log')) :
    GatesPass policy gates submission ∧
      ∃ landed, landChanges policy submission.changes g log [] = .ok (landed, g', log') := by
  unfold landSubmissionInQueue at h
  split at h
  · simp at h
  · rename_i happroved
    split at h
    · simp at h
    · rename_i hcarried
      split at h
      · simp at h
      · rename_i hvalidated
        cases hland : landChanges policy submission.changes g log [] with
        | error e => simp [hland, bind, Except.bind] at h
        | ok r =>
            obtain ⟨landed, g₁, log₁⟩ := r
            simp only [hland, bind, Except.bind, pure, Except.pure, Except.ok.injEq, Prod.mk.injEq] at h
            obtain ⟨-, rfl, rfl⟩ := h
            rw [Bool.not_eq_true] at happroved hcarried hvalidated
            exact ⟨gatesPass_iff.mpr ⟨happroved, hcarried, hvalidated⟩, landed, rfl⟩

end Omoplata
