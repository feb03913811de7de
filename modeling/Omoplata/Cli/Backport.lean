-- SUMMARY: The commutation witness that carries an approval forward, and what its verdict does not see.
import Omoplata.Cli.Gates

/-!
# Carrying an approval forward

The witness compares the current tip of a change with the reviewed one and with the
rest of its queue, definition by definition. A definition that differs from both
breaks the carry.

The comparison reads definitions by key, containers by their shell, and nothing else
of a Rust file. So a carry admits only reviewed content where the rest of it is
reviewed.
-/

namespace Omoplata

/-! ## The witness -/

/-- The texts of a change as reviewed and now, with those its queue has landed without it. -/
structure BackportTexts where
  reviewed : TextFiles
  current : TextFiles
  landed : TextFiles

/-- Check the three contents out. -/
def backportTexts (host : Host) (store : Store) (registry : QueueRegistry) (refs : Refs)
    (sourceQueue : Str) (change : ChangeId) (reviewed current : ObjectId) :
    Except CliError BackportTexts := do
  let reviewedFiles ← checkOut host store reviewed
  let currentFiles ← checkOut host store current
  let landed ← materializeQueueBase host store registry refs sourceQueue
    (some (queueRef sourceQueue change))
  pure ⟨readTreeFiles reviewedFiles, readTreeFiles currentFiles, landed⟩

/-- The support of an edit: nothing if there is none. -/
def supportOf (host : Host) (base new : Str) (isRs : Bool) : BTreeSet Str :=
  if base = new then ∅ else fileSupport host isRs base new

/-- A key as a reader sees it. -/
def prettyDef (key : Str) : Str := if key = wholeFileToken then "whole file".toList else key

def defLabel (file key : Str) : Str := joinTexts [file, " (".toList, prettyDef key, ")".toList]

/-- Texts in order, each once. -/
def sortDedup (texts : List Str) : List Str := (Std.ExtTreeSet.ofList texts).toList

def isRustPath (path : Str) : Bool := ".rs".toList.isSuffixOf path

namespace BackportTexts

variable (host : Host) (texts : BackportTexts)

/-- The files of either tip. -/
def files : List Str := sortDedup (texts.reviewed.keys ++ texts.current.keys)

/-- What the move changed in a file. -/
def moved (file : Str) : BTreeSet Str :=
  supportOf host (texts.reviewed.textAt file) (texts.current.textAt file) (isRustPath file)

/-- Where a file differs from what the queue has landed. -/
def novel (file : Str) : BTreeSet Str :=
  supportOf host (texts.landed.textAt file) (texts.current.textAt file) (isRustPath file)

/-- What the move changed in a file that no landing has brought. -/
def disturbed (file : Str) : List Str :=
  (texts.moved host file).toList.filter (texts.novel host file).contains

end BackportTexts

def witnessText (sourceQueue : Str) (movedDefs : List Str) : Str :=
  joinTexts ["commutation (Tier-0 disjoint support, I10): the move rebased past ".toList,
    Nat.toDigits 10 movedDefs.length, " definition(s) [".toList,
    if movedDefs.isEmpty then "no definitions moved".toList else commaSeparated movedDefs,
    "], each matching ".toList, sourceQueue,
    "'s landed history — no definition the review approved was altered".toList]

/-- The verdict: the text of the witness, or the definitions that break the carry. -/
def BackportTexts.verdict (host : Host) (texts : BackportTexts) (sourceQueue : Str) :
    Except (List Str) Str :=
  let disturbed := texts.files.flatMap fun file =>
    (texts.disturbed host file).map (defLabel file)
  let movedDefs := texts.files.flatMap fun file =>
    (texts.moved host file).toList.map (defLabel file)
  if !disturbed.isEmpty then .error (sortDedup disturbed)
  else .ok (witnessText sourceQueue (sortDedup movedDefs))

/-- Whether an approval of `reviewed` carries to `current`. -/
def commutationWitness (host : Host) (store : Store) (registry : QueueRegistry) (refs : Refs)
    (sourceQueue : Str) (change : ChangeId) (reviewed current : ObjectId) :
    Except CliError (Except (List Str) Str) := do
  let texts ← backportTexts host store registry refs sourceQueue change reviewed current
  pure (texts.verdict host sourceQueue)

/-! ## The command -/

/-- The queue a change is landed in, and the tip landed there: the trunk first, then the
    registered queues. -/
def findLanded (refs : Refs) (registry : QueueRegistry) (change : ChangeId) : Option (Str × CommitId) :=
  match refs[queueRef "trunk".toList change]? with
  | some tip => some ("trunk".toList, tip)
  | none => registry.queues.findSome? fun q =>
      refs[queueRef q.name change]?.map fun tip => (q.name, tip)

def noApprovalText (sub : Submission) : Str :=
  joinTexts ["submission ".toList, sub.id,
    " has no approval to carry forward — approve and land it first".toList]

def noSnapshotText (change : ChangeId) : Str :=
  joinTexts ["change ".toList, change, " has no snapshot; nothing to backport".toList]

def notLandedText (change : ChangeId) : Str :=
  joinTexts ["change ".toList, change, " is not landed in any queue; land it first — ".toList,
    "backport carries an existing landing's approval forward".toList]

def notAnIdText (change : ChangeId) (what : Str) (tip : CommitId) : Str :=
  joinTexts ["change ".toList, change, ": ".toList, what, tip, " is not an object id".toList]

def disturbedText (change : ChangeId) (sourceQueue : Str) (disturbed : List Str) : Str :=
  joinTexts ["change ".toList, change, " moved since it landed in ".toList, sourceQueue,
    ", and the move disturbed definition(s) the review approved: ".toList, commaSeparated disturbed,
    ". Approval cannot be carried forward — re-review and land the new content.".toList]

def identityText (sourceQueue : Str) : Str :=
  joinTexts ["identity: content byte-identical to the tip reviewed and landed in ".toList, sourceQueue]

/-- A tip that has to be an object id. -/
def requireTip (tip : CommitId) (refusal : Str) : Except CliError ObjectId := do
  match ← parseTip tip with
  | some id => pure id
  | none => .error (.bail refusal)

/-- The witness that carries the approval of a landed tip to the current one. -/
def carryWitness (host : Host) (store : Store) (registry : QueueRegistry) (refs : Refs)
    (sourceQueue : Str) (change : ChangeId) (landedTip tip : CommitId) : Except CliError Str :=
  if landedTip = tip then pure (identityText sourceQueue)
  else do
    let reviewed ← requireTip landedTip (notAnIdText change "landed tip ".toList landedTip)
    let current ← requireTip tip (notAnIdText change "tip ".toList tip)
    match ← commutationWitness host store registry refs sourceQueue change reviewed current with
    | .ok witness => pure witness
    | .error disturbed => .error (.bail (disturbedText change sourceQueue disturbed))

/-- The certificates of the changes so far, with the graph and the tips to observe. -/
structure Certified where
  certificates : List ApprovalCertificate
  graph : ChangeGraph
  tips : List ObjectId

/-- Certify one change. -/
def certify (host : Host) (store : Store) (registry : QueueRegistry) (refs : Refs) (reviewer : Str)
    (s : Certified) (change : ChangeId) : Except CliError Certified :=
  match refs[change]? with
  | none => .error (.bail (noSnapshotText change))
  | some tip =>
      match findLanded refs registry change with
      | none => .error (.bail (notLandedText change))
      | some (sourceQueue, landedTip) => do
          let witness ← carryWitness host store registry refs sourceQueue change landedTip tip
          let (graph, tips) ← addTip (s.graph, s.tips) (change, some tip)
          pure ⟨s.certificates ++ [⟨change, landedTip, tip, reviewer, witness⟩], graph, tips⟩

/-- What a backport has checked by the time it saves the submission: the policy of the
    queue, the submission with its certificates, and the graph and the tips of its changes. -/
structure BackportRequest where
  policy : QueuePolicy
  sub : Submission
  graph : ChangeGraph
  tips : List ObjectId

/-- Resolve the queue, load the submission and certify its changes. -/
def backportRequest (host : Host) (repo : Repo) (id : SubmissionId) (queue : Str) :
    Except CliError BackportRequest := do
  let policy ← liftWork (repo.queues.resolve queue)
  let sub ← repo.loadSubmission id
  match sub.approval with
  | .approved reviewer _ => do
      let certified ← sub.changes.foldlM
        (certify host repo.store repo.queues repo.log.refsNow reviewer) ⟨[], .new, []⟩
      pure ⟨policy, certified.certificates.foldl Submission.addCertificate sub, certified.graph,
        certified.tips⟩
  | _ => .error (.bail (noApprovalText sub))

/-- `omo backport`. -/
def cmdBackport (host : Host) (repo : Repo) (id : SubmissionId) (queue : Str) :
    Except CliError LandResult × Repo :=
  match backportRequest host repo id queue with
  | .error e => (.error e, repo)
  | .ok request =>
      let repo := repo.saveSubmission request.sub
      match observeBatchGates host repo.store repo.queues repo.log.refsNow request.policy.name
          [(request.sub.id, request.tips)] request.policy with
      | .error e => (.error e, repo)
      | .ok batch => repo.mutateLocked fun log => do
          let (result, _, log) ← landSubmissionInQueue request.sub request.policy
            ⟨batch.carriedValues, batch.validated⟩ request.graph log
          pure (result, log)

/-! ## Reviewed material -/

/-- The text of a range outside of others. -/
def textOutside (src : Str) (r : Range) (holes : List Range) : Str :=
  (src.zipIdx.filter fun p => decide (r.start ≤ p.2 ∧ p.2 < r.stop ∧
    ∀ hole ∈ holes, p.2 < hole.start ∨ hole.stop ≤ p.2)).map Prod.fst

/-- The text outside of all definitions. -/
def outsideText (src : Str) (defs : List Definition) : Str :=
  textOutside src ⟨0, src.length⟩ (defs.map Definition.byteRange)

def DefinitionKind.isContainer : DefinitionKind → Bool
  | impl | module | trait => true
  | _ => false

/-- What a definition consists of: a container of its text outside the definitions behind
    it in source order, any other of all its text. -/
def Definition.material (src : Str) (d : Definition) (behind : List Definition) : Str :=
  if d.kind.isContainer then textOutside src d.byteRange (behind.map Definition.byteRange)
  else (getRange src d.byteRange).getD []

/-- The definitions of a text, by key. -/
def occurrences (src : Str) : List Definition → List (Str × Str)
  | [] => []
  | d :: behind => (d.key, d.material src behind) :: occurrences src behind

/-- The definitions whose material a comparison by key does not read: containers and those
    with a later one of their key, or all of them where nothing is compared. -/
def unseen (src : Str) (compared : Bool) : List Definition → List (Str × Str)
  | [] => []
  | d :: behind =>
      if !compared || d.kind.isContainer || behind.any (fun e => e.key == d.key) then
        (d.key, d.material src behind) :: unseen src compared behind
      else unseen src compared behind

namespace Grammar

variable (G : Grammar)

/-- The definitions found in a text. -/
def definitions (text : Str) : List Definition := (G.extractDefinitions text).toOption.getD []

/-- Whether a text can be compared by its definitions. -/
def readable (text : Str) : Bool := G.accepts text && (G.extractDefinitions text).toOption.isSome

/-- A definition is reviewed if the reviewed or the landed text has one like it. -/
def Reviewed (reviewed landed : Str) (occurrence : Str × Str) : Prop :=
  occurrence ∈ occurrences reviewed (G.definitions reviewed) ∨
    occurrence ∈ occurrences landed (G.definitions landed)

/-- The text outside of definitions is that of the reviewed or of the landed text. -/
def OutsideReviewed (reviewed landed current : Str) : Prop :=
  outsideText current (G.definitions current) = outsideText reviewed (G.definitions reviewed) ∨
    outsideText current (G.definitions current) = outsideText landed (G.definitions landed)

/-- A file consists of reviewed material. -/
def FileReviewed (isRs : Bool) (reviewed landed current : Str) : Prop :=
  if isRs && G.readable current then
    (∀ o ∈ occurrences current (G.definitions current), G.Reviewed reviewed landed o) ∧
      G.OutsideReviewed reviewed landed current
  else current = reviewed ∨ current = landed

instance (isRs : Bool) (reviewed landed current : Str) :
    Decidable (G.FileReviewed isRs reviewed landed current) := by
  unfold FileReviewed OutsideReviewed Reviewed
  infer_instance

/-- What the comparison does not read of a Rust file is reviewed: its text outside of
    definitions, and the definitions it does not compare. -/
def UnseenReviewed (isRs : Bool) (reviewed landed current : Str) : Prop :=
  (isRs && G.readable current) = true →
    (∀ o ∈ unseen current (G.readable reviewed && G.readable landed) (G.definitions current),
      G.Reviewed reviewed landed o) ∧
      G.OutsideReviewed reviewed landed current

end Grammar

/-! ## Every file of the tips -/

/-- The trees of a change as reviewed and now, with those its queue has landed without it, in
    the order in which they are laid over one another. -/
structure BackportTrees where
  reviewed : Files
  current : Files
  landed : List Files

/-- The trees of the public refs of a queue, in ref order. -/
def queueTrees (host : Host) (store : Store) (registry : QueueRegistry) (refs : Refs) (queue : Str)
    (exclude : Option Str) : Except CliError (List Files) :=
  refs.toList.foldlM (fun trees (name, commit) =>
    if exclude = some name then pure trees
    else if !publicSpace.isPrefixOf name then pure trees
    else if refOwner registry (name.drop publicSpace.length) ≠ queue then pure trees
    else do
      match ← parseTip commit with
      | none => pure trees
      | some id => do
          let files ← checkOut host store id
          pure (trees.concat files)) []

/-- Check the trees out. -/
def backportTrees (host : Host) (store : Store) (registry : QueueRegistry) (refs : Refs)
    (sourceQueue : Str) (change : ChangeId) (reviewed current : ObjectId) :
    Except CliError BackportTrees := do
  let reviewed ← checkOut host store reviewed
  let current ← checkOut host store current
  let landed ← queueTrees host store registry refs sourceQueue (some (queueRef sourceQueue change))
  pure ⟨reviewed, current, landed⟩

/-- The texts of trees laid over one another. -/
def overlayAll (trees : List Files) : TextFiles :=
  trees.foldl (fun base files => overlay base (readTreeFiles files)) ∅

namespace BackportTrees

/-- What of the trees the witness reads. -/
def texts (trees : BackportTrees) : BackportTexts :=
  ⟨readTreeFiles trees.reviewed, readTreeFiles trees.current, overlayAll trees.landed⟩

/-- What the queue has landed at a path: the last tree that has something there. -/
def landedAt (trees : BackportTrees) (path : Str) : Option Content :=
  trees.landed.reverse.findSome? fun files => files[path]?

/-- A path of either tip. -/
def Holds (trees : BackportTrees) (path : Str) : Prop :=
  trees.reviewed[path]? ≠ none ∨ trees.current[path]? ≠ none

variable (host : Host)

/-- What the current tip has at a path is reviewed material: a file that is not text is as a
    whole the reviewed or the landed one. -/
def Reviewed (trees : BackportTrees) (path : Str) : Prop :=
  match trees.current[path]? with
  | some (.binary bytes) =>
      trees.reviewed[path]? = some (.binary bytes) ∨ trees.landedAt path = some (.binary bytes)
  | _ => host.tools.grammar.FileReviewed (isRustPath path) (trees.texts.reviewed.textAt path)
      (trees.texts.landed.textAt path) (trees.texts.current.textAt path)

/-- What the comparison does not read at a path is reviewed: a file that is not text, and what
    it does not read of a Rust file. -/
def UnseenReviewed (trees : BackportTrees) (path : Str) : Prop :=
  match trees.current[path]? with
  | some (.binary bytes) =>
      trees.reviewed[path]? = some (.binary bytes) ∨ trees.landedAt path = some (.binary bytes)
  | _ => host.tools.grammar.UnseenReviewed (isRustPath path) (trees.texts.reviewed.textAt path)
      (trees.texts.landed.textAt path) (trees.texts.current.textAt path)

instance (trees : BackportTrees) (path : Str) : Decidable (trees.Reviewed host path) := by
  unfold Reviewed
  split <;> infer_instance

end BackportTrees

theorem overlayAll_concat (trees : List Files) (files : Files) :
    overlayAll (trees.concat files) = overlay (overlayAll trees) (readTreeFiles files) := by
  unfold overlayAll
  rw [List.concat_eq_append, List.foldl_append]
  rfl

/-- The content of a queue's refs is the texts of their trees laid over one another. -/
theorem materializeQueueBase_overlayAll (host : Host) (store : Store) (registry : QueueRegistry) (refs : Refs)
    (queue : Str) (exclude : Option Str) :
    materializeQueueBase host store registry refs queue exclude =
      (queueTrees host store registry refs queue exclude).map overlayAll := by
  unfold materializeQueueBase queueTrees
  rw [show (∅ : TextFiles) = overlayAll [] from rfl]
  generalize ([] : List Files) = trees
  induction refs.toList generalizing trees with
  | nil => rfl
  | cons entry entries ih =>
      obtain ⟨name, commit⟩ := entry
      rw [List.foldlM_cons, List.foldlM_cons]
      dsimp only
      -- A ref that does not count is passed over in both; one that does is laid over the rest.
      split
      · exact ih trees
      · split
        · exact ih trees
        · split
          · exact ih trees
          · cases parseTip commit with
            | error e => rfl
            | ok tip =>
                cases tip with
                | none => exact ih trees
                | some id =>
                    cases hfiles : checkOut host store id with
                    | error e => simp [bind, Except.bind, hfiles, Except.map]
                    | ok files =>
                        have hrest := ih (trees.concat files)
                        rw [overlayAll_concat] at hrest
                        simpa [bind, Except.bind, hfiles, pure, Except.pure] using hrest

/-- The witness reads the texts of the trees. -/
theorem backportTexts_eq (host : Host) (store : Store) (registry : QueueRegistry) (refs : Refs)
    (sourceQueue : Str) (change : ChangeId) (reviewed current : ObjectId) :
    backportTexts host store registry refs sourceQueue change reviewed current =
      (backportTrees host store registry refs sourceQueue change reviewed current).map BackportTrees.texts := by
  unfold backportTexts backportTrees
  rw [materializeQueueBase_overlayAll]
  cases checkOut host store reviewed with
  | error e => rfl
  | ok reviewed =>
      cases checkOut host store current with
      | error e => rfl
      | ok current =>
          cases queueTrees host store registry refs sourceQueue (some (queueRef sourceQueue change)) <;> rfl

/-! ## What the supports read -/

theorem effectiveText_of_not_container (src : Str) {d : Definition} (h : d.kind.isContainer = false) :
    effectiveText src d = (getRange src d.byteRange).getD [] := by
  unfold effectiveText
  cases hk : d.kind <;> simp_all [DefinitionKind.isContainer]

/-- A key tells the kind of its definition. -/
theorem kind_eq_of_key_eq {d e : Definition} (h : d.key = e.key) : d.kind = e.kind := by
  -- A label has no space, so it is what stands in front of the first one.
  have htake : ∀ (k : DefinitionKind) (rest : Str),
      (k.label ++ ' ' :: rest).takeWhile (· != ' ') = k.label := by
    intro k rest
    cases k <;> rfl
  have hlabel : ∀ k l : DefinitionKind, k.label = l.label → k = l := by
    intro k l
    cases k <;> cases l <;> decide
  have hfront := congrArg (List.takeWhile (· != ' ')) h
  simp only [Definition.key, List.append_assoc, List.singleton_append, htake] at hfront
  exact hlabel _ _ hfront

/-- Comparison texts by key, entered into a map. -/
private theorem getElem?_effective_of_notMem (src : Str) (defs : List Definition)
    (m : BTreeMap Str Str) {key : Str} (h : ∀ d ∈ defs, d.key ≠ key) :
    (defs.foldl (fun map d => map.insert d.key (effectiveText src d)) m)[key]? = m[key]? := by
  induction defs generalizing m with
  | nil => rfl
  | cons d defs ih =>
      rw [List.foldl_cons, ih _ fun e he => h e (List.mem_cons_of_mem _ he),
        BTreeMap.getElem?_insert, if_neg (h d (by simp))]

theorem exists_of_effectiveTexts {src : Str} {defs : List Definition} {key text : Str}
    (h : (effectiveTexts src defs)[key]? = some text) :
    ∃ d ∈ defs, d.key = key ∧ effectiveText src d = text := by
  have hloop : ∀ (defs : List Definition) (m : BTreeMap Str Str),
      (defs.foldl (fun map d => map.insert d.key (effectiveText src d)) m)[key]? = some text →
        m[key]? = some text ∨ ∃ d ∈ defs, d.key = key ∧ effectiveText src d = text := by
    intro defs
    induction defs with
    | nil => exact fun m hm => .inl hm
    | cons d defs ih =>
        intro m hm
        rcases ih _ hm with hacc | ⟨e, he, hkey, htext⟩
        · rw [BTreeMap.getElem?_insert] at hacc
          by_cases hkey : d.key = key
          · rw [if_pos hkey, Option.some.injEq] at hacc
            exact .inr ⟨d, by simp, hkey, hacc⟩
          · rw [if_neg hkey] at hacc
            exact .inl hacc
        · exact .inr ⟨e, List.mem_cons_of_mem _ he, hkey, htext⟩
  rcases hloop defs ∅ h with hempty | hfound
  · simp at hempty
  · exact hfound

theorem mem_occurrences (src : Str) {defs : List Definition} {d : Definition} (hd : d ∈ defs)
    (hkind : d.kind.isContainer = false) :
    (d.key, (getRange src d.byteRange).getD []) ∈ occurrences src defs := by
  induction defs with
  | nil => simp at hd
  | cons e defs ih =>
      rcases List.mem_cons.mp hd with rfl | hd
      · simp [occurrences, Definition.material, hkind]
      · exact List.mem_cons_of_mem _ (ih hd)

/-- A definition is unseen, or it is compared by all its text. -/
theorem unseen_or_compared (src : Str) (compared : Bool) {defs : List Definition} {o : Str × Str}
    (ho : o ∈ occurrences src defs) :
    o ∈ unseen src compared defs ∨ compared = true ∧ ∃ d ∈ defs, d.key = o.1 ∧
      d.kind.isContainer = false ∧ (effectiveTexts src defs)[o.1]? = some o.2 := by
  have hloop : ∀ (defs : List Definition) (m : BTreeMap Str Str), o ∈ occurrences src defs →
      o ∈ unseen src compared defs ∨ compared = true ∧ ∃ d ∈ defs, d.key = o.1 ∧
        d.kind.isContainer = false ∧
          (defs.foldl (fun map d => map.insert d.key (effectiveText src d)) m)[o.1]? = some o.2 := by
    intro defs
    induction defs with
    | nil => simp [occurrences]
    | cons d behind ih =>
        intro m ho
        rcases List.mem_cons.mp ho with rfl | ho
        · unfold unseen
          -- an occurrence is unseen unless it is the last one of its key and no container
          by_cases hskip : (!compared || d.kind.isContainer || behind.any fun e => e.key == d.key) = true
          · rw [if_pos hskip]
            exact .inl (by simp)
          · refine .inr ?_
            simp only [Bool.or_eq_true, Bool.not_eq_true', List.any_eq_true, beq_iff_eq, not_or,
              Bool.not_eq_false, Bool.not_eq_true, not_exists, not_and] at hskip
            obtain ⟨⟨hcompared, hkind⟩, hlast⟩ := hskip
            refine ⟨hcompared, d, by simp, rfl, hkind, ?_⟩
            rw [List.foldl_cons, getElem?_effective_of_notMem src behind _ hlast,
              BTreeMap.getElem?_insert, if_pos rfl, effectiveText_of_not_container src hkind]
            simp [Definition.material, hkind]
        · rcases ih (m.insert d.key (effectiveText src d)) ho with hunseen | ⟨hc, e, he, hrest⟩
          · unfold unseen
            split
            · exact .inl (List.mem_cons_of_mem _ hunseen)
            · exact .inl hunseen
          · exact .inr ⟨hc, e, List.mem_cons_of_mem _ he, hrest⟩
  exact hloop defs ∅ ho

/-- The support of an edit between readable texts: the keys whose comparison texts differ. -/
theorem rustSupport_readable {G : Grammar} {base new : Str} (hbase : G.readable base = true)
    (hnew : G.readable new = true) :
    ∃ support, rustSupport G base new = some support ∧ ∀ key, key ∈ support ↔
      (effectiveTexts base (G.definitions base))[key]? ≠ (effectiveTexts new (G.definitions new))[key]? := by
  unfold Grammar.readable at hbase hnew
  rw [Bool.and_eq_true, Option.isSome_iff_exists] at hbase hnew
  obtain ⟨hb, baseDefs, hbaseDefs⟩ := hbase
  obtain ⟨hn, newDefs, hnewDefs⟩ := hnew
  unfold rustSupport Grammar.definitions
  simp only [hb, hn, hbaseDefs, hnewDefs, Option.getD_some]
  refine ⟨_, rfl, fun key => ?_⟩
  simp only [Std.ExtTreeSet.mem_ofList, List.contains_iff_mem, List.mem_append, List.mem_map,
    List.mem_filter, Prod.exists, Std.ExtTreeMap.mem_toList_iff_getElem?_eq_some,
    exists_and_right, exists_eq_right, Std.ExtTreeMap.mem_keys,
    Std.ExtTreeMap.mem_iff_isSome_getElem?, Std.ExtTreeMap.contains_eq_isSome_getElem?]
  cases (effectiveTexts new newDefs)[key]? <;>
    cases (effectiveTexts base baseDefs)[key]? <;> simp

theorem rustSupport_unreadable {G : Grammar} {base new : Str}
    (h : (G.readable base && G.readable new) = false) : rustSupport G base new = none := by
  unfold Grammar.readable at h
  unfold rustSupport
  by_cases hb : G.accepts base = true <;> by_cases hn : G.accepts new = true <;>
    cases hbd : (G.extractDefinitions base).toOption <;>
    cases hnd : (G.extractDefinitions new).toOption <;> simp_all

/-! ## What a verdict says -/

variable {host : Host}

/-- A verdict that admits a move: no file has a definition that is both moved and novel. -/
theorem verdict_ok {texts : BackportTexts} {sourceQueue witness : Str}
    (h : texts.verdict host sourceQueue = .ok witness) :
    ∀ file ∈ texts.files, ∀ key ∈ texts.moved host file, key ∉ texts.novel host file := by
  have hnone : (texts.files.flatMap fun file => (texts.disturbed host file).map (defLabel file)) = [] := by
    unfold BackportTexts.verdict at h
    by_contra hsome
    rw [← List.isEmpty_iff, Bool.not_eq_true] at hsome
    simp [hsome] at h
  intro file hfile key hmoved hnovel
  have hdisturbed : key ∈ texts.disturbed host file :=
    List.mem_filter.mpr ⟨Std.ExtTreeSet.mem_toList.mpr hmoved, hnovel⟩
  have hlabel : defLabel file key ∈ (texts.disturbed host file).map (defLabel file) :=
    List.mem_map_of_mem hdisturbed
  rw [List.flatMap_eq_nil_iff.mp hnone file hfile] at hlabel
  simp at hlabel

theorem supportOf_readable {base new : Str} (hne : base ≠ new)
    (hbase : host.tools.grammar.readable base = true) (hnew : host.tools.grammar.readable new = true)
    (key : Str) :
    key ∈ supportOf host base new true ↔
      (effectiveTexts base (host.tools.grammar.definitions base))[key]? ≠
        (effectiveTexts new (host.tools.grammar.definitions new))[key]? := by
  obtain ⟨support, hsupport, hmem⟩ := rustSupport_readable hbase hnew
  simp only [supportOf, if_neg hne, fileSupport, if_true, hsupport, Option.getD_some, hmem]

/-- An edit to a file that is not compared by definitions is one of the whole file. -/
theorem wholeFileToken_mem_supportOf {base new : Str} (hne : base ≠ new) {isRs : Bool}
    (h : (isRs && host.tools.grammar.readable new) = false) :
    wholeFileToken ∈ supportOf host base new isRs := by
  have hwhole : wholeFileToken ∈ wholeFileSupport := by
    simp [wholeFileSupport]
  unfold supportOf fileSupport
  rw [if_neg hne]
  cases isRs with
  | false => simpa using hwhole
  | true =>
      rw [if_pos rfl, rustSupport_unreadable (by simpa using fun _ => h)]
      exact hwhole

theorem mem_occurrences_of_unseen {src : Str} {compared : Bool} {defs : List Definition}
    {o : Str × Str} (h : o ∈ unseen src compared defs) : o ∈ occurrences src defs := by
  induction defs with
  | nil => simp [unseen] at h
  | cons d behind ih =>
      unfold unseen at h
      split at h
      · rcases List.mem_cons.mp h with rfl | h
        · exact List.mem_cons_self
        · exact List.mem_cons_of_mem _ (ih h)
      · exact List.mem_cons_of_mem _ (ih h)

/-- A definition compared by all its text is in a text whose comparison texts agree on it. -/
theorem mem_occurrences_of_compared {src : Str} {defs : List Definition} {d : Definition}
    {o : Str × Str} (hkey : d.key = o.1) (hkind : d.kind.isContainer = false)
    (h : (effectiveTexts src defs)[o.1]? = some o.2) : o ∈ occurrences src defs := by
  obtain ⟨e, he, hekey, htext⟩ := exists_of_effectiveTexts h
  have hkind' : e.kind.isContainer = false := by
    rw [kind_eq_of_key_eq (hekey.trans hkey.symm), hkind]
  have hmem := mem_occurrences src he hkind'
  rwa [← effectiveText_of_not_container src hkind', htext, hekey] at hmem

/-- Where no definition of a file is both moved and novel, the file consists of reviewed
    material if and only if the part of it that is not compared does. -/
theorem fileReviewed_iff {isRs : Bool} {reviewed landed current : Str}
    (h : ∀ key ∈ supportOf host reviewed current isRs, key ∉ supportOf host landed current isRs) :
    host.tools.grammar.FileReviewed isRs reviewed landed current ↔
      host.tools.grammar.UnseenReviewed isRs reviewed landed current := by
  unfold Grammar.FileReviewed Grammar.UnseenReviewed
  cases hcur : isRs && host.tools.grammar.readable current with
  | false =>
      simp only [Bool.false_eq_true, if_false, false_imp_iff, iff_true]
      by_contra hneither
      rw [not_or] at hneither
      exact h _ (wholeFileToken_mem_supportOf (Ne.symm hneither.1) hcur)
        (wholeFileToken_mem_supportOf (Ne.symm hneither.2) hcur)
  | true =>
      simp only [if_true, true_imp_iff]
      refine and_congr_left fun _ => ⟨fun hall o ho => hall o (mem_occurrences_of_unseen ho), ?_⟩
      intro hunseen o ho
      obtain ⟨rfl, hcurrent⟩ := Bool.and_eq_true_iff.mp hcur
      rcases unseen_or_compared current
        (host.tools.grammar.readable reviewed && host.tools.grammar.readable landed) ho with
        hskipped | ⟨hcompared, d, hd, hkey, hkind, htext⟩
      · exact hunseen o hskipped
      · obtain ⟨hreviewed, hlanded⟩ := Bool.and_eq_true_iff.mp hcompared
        by_cases hsame : reviewed = current
        · exact .inl (hsame ▸ ho)
        by_cases hbrought : landed = current
        · exact .inr (hbrought ▸ ho)
        -- The key of the definition is not both moved and novel.
        have hkeys := h o.1
        rw [supportOf_readable hsame hreviewed hcurrent, supportOf_readable hbrought hlanded hcurrent,
          htext, not_not] at hkeys
        by_cases hmoved : (effectiveTexts reviewed (host.tools.grammar.definitions reviewed))[o.1]? = some o.2
        · exact .inl (mem_occurrences_of_compared hkey hkind hmoved)
        · exact .inr (mem_occurrences_of_compared hkey hkind (hkeys hmoved))

theorem textAt_of_notMem {files : TextFiles} {file : Str} (h : file ∉ files.keys) : files.textAt file = [] := by
  rw [Std.ExtTreeMap.mem_keys] at h
  unfold TextFiles.textAt
  rw [Std.ExtTreeMap.getElem?_eq_none h]
  rfl

/-- A file of neither tip has not moved. -/
theorem moved_of_notMem_files {texts : BackportTexts} {file : Str} (h : file ∉ texts.files) (key : Str) :
    key ∉ texts.moved host file := by
  unfold BackportTexts.files sortDedup at h
  simp only [Std.ExtTreeSet.mem_toList, Std.ExtTreeSet.mem_ofList, List.contains_iff_mem, List.mem_append,
    not_or] at h
  unfold BackportTexts.moved supportOf
  rw [textAt_of_notMem h.1, textAt_of_notMem h.2, if_pos rfl]
  exact Std.ExtTreeSet.not_mem_empty

/-- A Rust file that holds no definition. -/
def mainFile : Files := (∅ : Files).insert "m.rs".toList (.text "use x;\n".toList)

/-- The tree of a change reviewed without that file and moved to one with it. -/
def movedTree : Files := (emptyFiles ["a".toList]).insert "m.rs".toList (.text "use x;\n".toList)

def movedStore : Store :=
  [emptyFiles ["a".toList], mainFile, movedTree].foldl
    (fun store files => (store.write sampleHost.treeId files).2) ⟨∅⟩

/-- The change `c` has landed as it was reviewed and has moved. -/
def movedRefs : Refs :=
  ((∅ : Refs).insert "c".toList (sampleHost.treeId movedTree).toText).insert "public/c".toList
    (sampleHost.treeId (emptyFiles ["a".toList])).toText

end Omoplata
