-- SUMMARY: The repository a command works on, the content of queues, and the reconciliation of changes.
import Omoplata.Drivers.Select
import Omoplata.Work.Queue
import Omoplata.Work.Workspace

/-!
# The repository

A command works on the shared state of a repository: the object store, the log,
the registries and the submissions. The `Host` stands for what is outside of it:
the hash, the merge tools and the validators.

The content of a queue is its reconciled head, or the overlay of its public refs
where it has none. `reconcileCore` folds the changes of submissions onto it.
-/

namespace Omoplata

/-- What the commands call outside the repository. -/
structure Host where
  tools : Tools
  treeId : Files → ObjectId
  validator : Str → Files → Except Str Bool

/-- The shared state of a repository. -/
structure Repo where
  store : Store
  log : OpLog
  queues : QueueRegistry
  workspaces : WorkspaceRegistry
  dirs : WorkingDirs
  submissions : BTreeMap SubmissionId Submission

/-- Why a command fails. -/
inductive CliError where
  | work (e : WorkError)
  | driver (e : DriverError)
  | bail (message : Str)
  | panicked
  deriving DecidableEq

/-- Several texts in a row. -/
def joinTexts (parts : List Str) : Str := parts.flatten

/-- A failure of the working model, as a command reports it. -/
def liftWork {α : Type} (r : Except WorkError α) : Except CliError α := r.mapError .work

/-- A commit id as an object id, if it is one. -/
def parseTip (tip : CommitId) : Except CliError (Option ObjectId) :=
  match ObjectId.parse tip with
  | .ok r => .ok r.toOption
  | .error _ => .error .panicked

theorem parseTip_toText (id : ObjectId) : parseTip id.toText = .ok (some id) := by
  unfold parseTip
  rw [ObjectId.parse_toText]
  rfl

/-- Check a stored tree out. -/
def checkOut (host : Host) (store : Store) (id : ObjectId) : Except CliError Files :=
  (store.read host.treeId id).mapError fun e => .work (.store e)

/-! ## The content of a queue -/

/-- The part of a text before and behind its first slash. -/
def splitOnceSlash (s : Str) : Option (Str × Str) :=
  (findChar '/' s).map fun i => (s.take i, s.drop (i + 1))

def publicSpace : Str := "public/".toList

def reconciledSpace : Str := "reconciled/".toList

/-- The queue that owns a public ref, by what stands behind `public/`. -/
def refOwner (registry : QueueRegistry) (rest : Str) : Str :=
  match splitOnceSlash rest with
  | some (first, _) => if (registry.get first).isSome then first else "trunk".toList
  | none => "trunk".toList

/-- Lay the text files of a tree over others. -/
def overlay (base files : TextFiles) : TextFiles :=
  files.toList.foldl (fun base (path, text) => base.insert path text) base

/-- The public refs of a queue laid over one another, in ref order; later ones win. -/
def materializeQueueBase (host : Host) (store : Store) (registry : QueueRegistry) (refs : Refs)
    (queue : Str) (exclude : Option Str) : Except CliError TextFiles :=
  refs.toList.foldlM (fun base (name, commit) =>
    if exclude = some name then pure base
    else if !publicSpace.isPrefixOf name then pure base
    else if refOwner registry (name.drop publicSpace.length) ≠ queue then pure base
    else do
      match ← parseTip commit with
      | none => pure base
      | some id => do
          let files ← checkOut host store id
          pure (overlay base (readTreeFiles files))) ∅

/-- The ref of a queue's reconciled head. -/
def reconciledRef (queue : Str) : Str := reconciledSpace ++ queue

/-- The content of a queue: its reconciled head, or else the overlay of its refs. -/
def materializeTrunk (host : Host) (store : Store) (registry : QueueRegistry) (refs : Refs)
    (queue : Str) : Except CliError TextFiles := do
  let head ← match refs[reconciledRef queue]? with
    | some tip => parseTip tip
    | none => pure none
  match head with
  | some id => do
      let files ← checkOut host store id
      pure (readTreeFiles files)
  | none => materializeQueueBase host store registry refs queue none

/-- The content of a queue with a readable head. -/
theorem materializeTrunk_of_head {host : Host} {store : Store} {registry : QueueRegistry} {refs : Refs} {queue : Str}
    {tip : ObjectId} {files : Files} (htip : refs[reconciledRef queue]? = some tip.toText)
    (hfiles : checkOut host store tip = .ok files) :
    materializeTrunk host store registry refs queue = .ok (readTreeFiles files) := by
  unfold materializeTrunk
  simp only [htip, parseTip_toText, hfiles, bind, Except.bind, pure, Except.pure]

/-- The transaction time of a change's first commit. -/
def changeFirstCommitSeq (log : OpLog) (change : ChangeId) : Option Nat :=
  log.ops.findSome? fun op =>
    match op.kind with
    | .commit _ c _ _ _ => if c = change then some op.seq else none
    | _ => none

/-! ## Reconciliation -/

/-- What folding submissions onto a queue's content gives. -/
structure Reconciliation where
  tip : ObjectId
  files : Nat
  carried : Nat
  conflicted : List Str

/-- The merged content so far and the paths that conflicted. -/
structure FoldState where
  acc : TextFiles
  conflicted : BTreeSet Str

/-- Merge one file of a change. -/
def reconcileFile (host : Host) (base : TextFiles) (s : FoldState) (path version : Str) :
    Except CliError FoldState := do
  let out ← (selectDriver host.tools path ⟨base.textAt path, s.acc.textAt path, version, path⟩).mapError
    CliError.driver
  pure ⟨s.acc.insert path out.merged,
    if out.conflicts.isEmpty then s.conflicted else s.conflicted.insert path⟩

/-- Fold one change onto the merged content, over the content its author started from:
    that of the queue at the change's first commit. -/
def reconcileChange (host : Host) (store : Store) (registry : QueueRegistry) (log : OpLog)
    (queue : Str) (s : FoldState) (change : ChangeId) : Except CliError FoldState :=
  match log.refsNow[change]? with
  | none => pure s
  | some tip => do
      match ← parseTip tip with
      | none => pure s
      | some id => do
          let files ← checkOut host store id
          let base ← match changeFirstCommitSeq log change with
            | some seq => materializeTrunk host store registry (log.refsAt seq) queue
            | none => pure s.acc
          (readTreeFiles files).toList.foldlM
            (fun s (path, version) => reconcileFile host base s path version) s

/-- How many conflict values the Rust files of a content carry. -/
def countCarried (host : Host) (files : TextFiles) : Nat :=
  (files.toList.map fun (path, text) =>
    if ".rs".toList.isSuffixOf path then
      ((conflictValues host.tools.grammar text).map List.length).getD 0
    else 0).sum

/-- Fold the changes of submissions onto a queue's content and store the result. -/
def reconcileCore (host : Host) (store : Store) (registry : QueueRegistry) (log : OpLog)
    (policy : QueuePolicy) (subs : List Submission) : Except CliError (Reconciliation × Store) := do
  let acc ← materializeTrunk host store registry log.refsNow policy.name
  let s ← (subs.flatMap Submission.changes).foldlM
    (reconcileChange host store registry log policy.name) ⟨acc, ∅⟩
  match writeFiles s.acc with
  | none => .error (.work (.io "out".toList))
  | some files =>
      let (tip, store) := store.write host.treeId files
      pure (⟨tip, s.acc.size, countCarried host s.acc, s.conflicted.toList⟩, store)

/-! ## Observing the gates -/

/-- A name with its separators replaced. -/
def flatName (s : Str) : Str := s.map fun c => if c = '/' ∨ c = '\\' then '_' else c

/-- Check a tree out into a directory of a content: what was there goes, its control
    directories apart. -/
def materializeInto (content : Files) (dir : Str) (files : Files) : Files :=
  let inside : Str := dir ++ ['/']
  let kept := content.filter fun path _ =>
    !inside.isPrefixOf path || controlNames.any fun name =>
      let rest := path.drop inside.length
      rest == name || (name ++ ['/']).isPrefixOf rest
  files.toList.foldl (fun content (path, c) => content.insert (inside ++ path) c) kept

/-- The directory the `i`-th tip of a submission is checked out into. -/
def tipDirectory (submission : SubmissionId) (i : Nat) : Str :=
  joinTexts ["sub-".toList, flatName submission, "/change-".toList, Nat.toDigits 10 i]

/-- Check a tip of a submission out into `content` and read its files over `texts`. -/
def observeTip (host : Host) (store : Store) (submission : SubmissionId) (s : Files × TextFiles)
    (tip : ObjectId × Nat) : Except CliError (Files × TextFiles) := do
  let files ← checkOut host store tip.1
  pure (materializeInto s.1 (tipDirectory submission tip.2) files, overlay s.2 (readTreeFiles files))

/-- Observe the tips of one submission. -/
def observeSubmission (host : Host) (store : Store) (content : Files)
    (sub : SubmissionId × List ObjectId) : Except CliError (Files × TextFiles) :=
  sub.2.zipIdx.foldlM (observeTip host store sub.1) (content, ∅)

/-- The support of a file that may be Rust. -/
def fileSupport (host : Host) (isRs : Bool) (base new : Str) : BTreeSet Str :=
  if isRs then (rustSupport host.tools.grammar base new).getD wholeFileSupport
  else wholeFileSupport

/-- The support of each file of a submission against a queue's content. -/
def manifestOf (host : Host) (base texts : TextFiles) : BTreeMap Str (BTreeSet Str) :=
  texts.filterMap fun path text =>
    if base.textAt path = text then none
    else
      let support := fileSupport host (".rs".toList.isSuffixOf path) (base.textAt path) text
      if support.isEmpty then none else some support

/-- Observe one more submission, with its manifest. -/
def observeManifest (host : Host) (store : Store) (base : TextFiles)
    (s : Files × List (SubmissionId × BTreeMap Str (BTreeSet Str)))
    (sub : SubmissionId × List ObjectId) :
    Except CliError (Files × List (SubmissionId × BTreeMap Str (BTreeSet Str))) := do
  let (content, texts) ← observeSubmission host store s.1 sub
  pure (content, s.2 ++ [(sub.1, manifestOf host base texts)])

/-- The extension of a path: a name that starts with its only dot has none. -/
def pathExtension (path : Str) : Option Str :=
  let name := fileName path
  match rfindChar '.' name with
  | some i => if i = 0 ∨ name = "..".toList then none else some (name.drop (i + 1))
  | none => none

/-- Add the conflict values of one file, if it is a Rust file. -/
def observeFile (host : Host) (count : Nat) (file : Str × Content) : Except CliError Nat :=
  if file.2 = .directory ∨ pathExtension file.1 ≠ some "rs".toList then .ok count
  else
    match file.2.readToString with
    | none => .error (.bail (joinTexts ["reading ".toList, file.1]))
    | some text =>
        match conflictValues host.tools.grammar text with
        | none => .error (.bail (joinTexts [file.1, ": malformed conflict markers".toList]))
        | some values => .ok (count + values.length)

/-- Count the conflict values of the Rust files of a directory. -/
def observeCarried (host : Host) (content : Files) : Except CliError Nat :=
  content.toList.foldlM (observeFile host) 0

/-- Run the validator of a queue, if it has one, on a directory. -/
def runValidator (host : Host) (policy : QueuePolicy) (content : Files) :
    Except CliError (Option Bool) :=
  match policy.validate with
  | none => .ok none
  | some cmd => (host.validator cmd content).mapError .bail |>.map some

/-- Observe what the gates of a queue are about: the support of the submissions, the
    conflict values in their content, and the validator's verdict on it. -/
def observeBatchGates (host : Host) (store : Store) (registry : QueueRegistry) (refs : Refs)
    (queue : Str) (subTips : List (SubmissionId × List ObjectId)) (policy : QueuePolicy) :
    Except CliError BatchGates := do
  let base ← materializeQueueBase host store registry refs queue none
  let (content, manifests) ← subTips.foldlM (observeManifest host store base) (∅, [])
  let carriedValues ← observeCarried host content
  let validated ← runValidator host policy content
  pure ⟨manifests, carriedValues, validated⟩

end Omoplata
