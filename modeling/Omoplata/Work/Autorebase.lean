-- SUMMARY: Rebasing a change in the store, the operation log and the change graph at once.
import Omoplata.Algebra.Rebase
import Omoplata.Identity.Change
import Omoplata.Store.Repository
import Omoplata.Work.OpLog

/-!
# Auto-rebase

A commit of a change is a blob with its text. A rebase stores the replayed text as a new
blob, appends an operation to the log, and lets the new commit supersede the old one in
the change graph.
-/

namespace Omoplata

/-- The outcome of rebasing one change. -/
structure RebaseOutcome where
  newTip : CommitId
  conflicts : List Conflict
  clean : Bool
  deriving DecidableEq, Repr

/-- One change of a stack to rebase. -/
structure StackItem where
  change : ChangeId
  base : CommitId
  tip : CommitId
  deriving DecidableEq, Repr

/-- A repository, an operation log and a change graph. -/
structure RebaseEngine where
  repo : Repository
  log : OpLog
  graph : ChangeGraph

/-- Make a commit a revision of a change, which is created as a draft on first sight. -/
def ensureRevision (g : ChangeGraph) (change : ChangeId) (commit : CommitId) : Except WorkError ChangeGraph :=
  match g.change change with
  | none => .ok (g.addChange ⟨change, [commit], .draft⟩)
  | some c => if commit ∈ c.revisions then .ok g else (g.addRevision change commit).mapError .identity

/-- Record in the graph that a rebase took a change from `oldTip` to `newTip`. What a call that
    fails has registered stays. -/
def recordSupersession (g : ChangeGraph) (change : ChangeId) (oldTip newTip : CommitId) :
    Except WorkError Unit × ChangeGraph :=
  match ensureRevision g change oldTip with
  | .error e => (.error e, g)
  | .ok g =>
      if newTip = oldTip then (.ok (), g)
      else
        match ensureRevision g change newTip with
        | .error e => (.error e, g)
        | .ok g =>
            match g.supersede oldTip newTip with
            | .error e => (.error (.identity e), g)
            | .ok g => (.ok (), g)

namespace RebaseEngine

section

variable (sha256 : List UInt8 → ObjectId)

/-- An engine that continues a log. -/
def withLog (repo : Repository) (log : OpLog) : RebaseEngine := ⟨repo, log, .new⟩

/-- The text of a commit. -/
def loadDoc (repo : Repository) (commit : CommitId) : ExceptT WorkError (Except Panic) Doc :=
  ExceptT.mk do
    match ← ObjectId.parse commit with
    | .error e => pure (.error (.content (.malformedId commit e)))
    | .ok id =>
        match ← repo.readObject sha256 id with
        | .error e => pure (.error (.store e))
        | .ok (.blob bytes) =>
            match fromUtf8 bytes with
            | none => pure (.error (.content (.notUtf8 commit)))
            | some text => pure (.ok (.fromStr text))
        | .ok (.tree _) => pure (.error (.content (.tree commit)))

/-- Store a document as a blob. -/
def storeDoc (repo : Repository) (doc : Doc) : CommitId × Repository :=
  let (id, repo) := repo.writeBlob sha256 (utf8 doc.toStr)
  (id.toText, repo)

/-- The texts a rebase replays. -/
def loadDocs (repo : Repository) (base oldTip onto : CommitId) : ExceptT WorkError (Except Panic) (Doc × Doc × Doc) := do
  let base ← loadDoc sha256 repo base
  let mine ← loadDoc sha256 repo oldTip
  let onto ← loadDoc sha256 repo onto
  pure (base, mine, onto)

/-- Rebase a change from `base` onto `onto`. An error of the change graph comes after the
    operation is in the log. -/
def autoRebase (e : RebaseEngine) (change : ChangeId) (base oldTip onto : CommitId) :
    Except Panic (Except WorkError RebaseOutcome × RebaseEngine) := do
  match ← (loadDocs sha256 e.repo base oldTip onto).run with
  | .error err => pure (.error err, e)
  | .ok (baseDoc, mine, ontoDoc) =>
      let rebased := rebase baseDoc mine ontoDoc
      let (newTip, repo) := storeDoc sha256 e.repo rebased.result
      let log := e.log.append (.rebase change oldTip newTip onto rebased.conflicts.length) none nofun
      let (recorded, graph) := recordSupersession e.graph change oldTip newTip
      pure (recorded.map fun () => ⟨newTip, rebased.conflicts, rebased.conflicts.isEmpty⟩, ⟨repo, log, graph⟩)

/-- Rebase the changes of a stack, the first onto `onto` and each other one onto the new tip before it. -/
def autoRebaseStack (e : RebaseEngine) :
    List StackItem → CommitId → Except Panic (Except WorkError (List RebaseOutcome) × RebaseEngine)
  | [], _ => pure (.ok [], e)
  | item :: stack, onto => do
      match ← e.autoRebase sha256 item.change item.base item.tip onto with
      | (.error err, e) => pure (.error err, e)
      | (.ok outcome, e) =>
          let (rest, e) ← e.autoRebaseStack stack outcome.newTip
          pure (rest.map (outcome :: ·), e)

end

end RebaseEngine

end Omoplata
