-- SUMMARY: The change graph: changes, their revisions and phases, and the tip of a change.
import Omoplata.Identity
import Omoplata.Identity.Definition
import Omoplata.Lib.BTreeMap

/-!
# The change graph

Changes own commits, and a commit may be superseded by another one. A landing builds
a graph in memory from the tips it reads and advances the phases of the changes it
lands.
-/

namespace Omoplata

/-- A change: the revisions it has gone through and its phase. -/
structure Change where
  id : ChangeId
  revisions : List CommitId
  phase : Phase
  deriving DecidableEq, Repr

/-- A draft change without revisions. -/
def Change.draft (id : ChangeId) : Change := ⟨id, [], .draft⟩

/-- Changes by id, the change each commit belongs to, and which commit obsoletes which. -/
structure ChangeGraph where
  changes : BTreeMap ChangeId Change
  commitOwner : BTreeMap CommitId ChangeId
  supersededBy : BTreeMap CommitId CommitId

namespace ChangeGraph

def new : ChangeGraph := ⟨∅, ∅, ∅⟩

/-- Register a change with its revisions. -/
def addChange (g : ChangeGraph) (c : Change) : ChangeGraph :=
  { g with
    commitOwner := c.revisions.foldl (fun owner commit => owner.insert commit c.id) g.commitOwner
    changes := g.changes.insert c.id c }

/-- Append a revision to a change. -/
def addRevision (g : ChangeGraph) (id : ChangeId) (commit : CommitId) : Except IdentityError ChangeGraph :=
  match g.changes[id]? with
  | none => .error (.unknownChange id)
  | some c =>
      .ok { g with
        commitOwner := g.commitOwner.insert commit id
        changes := g.changes.insert id { c with revisions := c.revisions ++ [commit] } }

def change (g : ChangeGraph) (id : ChangeId) : Option Change := g.changes[id]?

/-- The commit that obsoletes a commit. -/
def newer (g : ChangeGraph) (commit : CommitId) : Option CommitId := g.supersededBy[commit]?

/-- Follow the supersession edges from `cursor` to the target, up to a commit seen before. -/
def reachesLoop (supersededBy : BTreeMap CommitId CommitId) (target : CommitId) :
    Nat → List CommitId → CommitId → Bool
  | 0, _, _ => false
  | fuel + 1, seen, cursor =>
      match supersededBy[cursor]? with
      | some next =>
          if next = target then true
          else if next ∈ seen then false
          else reachesLoop supersededBy target fuel (next :: seen) next
      | none => false

/-- Does a commit lead to another one? There are no more turns than edges. -/
def reaches (g : ChangeGraph) (source target : CommitId) : Bool :=
  if source = target then true
  else reachesLoop g.supersededBy target (g.supersededBy.size + 1) [] source

/-- The phase of a change; one that is not there counts as a draft. -/
def phaseOf (g : ChangeGraph) (id : ChangeId) : Phase := (g.changes[id]?.map Change.phase).getD .draft

/-- Record that `new` obsoletes `old`. -/
def supersede (g : ChangeGraph) (old new : CommitId) : Except IdentityError ChangeGraph :=
  match g.commitOwner[old]? with
  | none => .error (.unknownCommit old)
  | some owner =>
      if g.commitOwner[new]?.isNone then .error (.unknownCommit new)
      else if g.phaseOf owner = .published then .error (.publicImmutable old)
      else if g.reaches new old then .error (.supersessionCycle old new)
      else .ok { g with supersededBy := g.supersededBy.insert old new }

/-- Follow the supersession edges from `cursor`, up to a commit seen before. -/
def followTip (supersededBy : BTreeMap CommitId CommitId) :
    Nat → List CommitId → CommitId → CommitId
  | 0, _, cursor => cursor
  | fuel + 1, seen, cursor =>
      match supersededBy[cursor]? with
      | some next =>
          if next ∈ seen then cursor else followTip supersededBy fuel (next :: seen) next
      | none => cursor

/-- The current revision of a change: its first one, brought forward. Each turn of the
    loop sees another superseding commit, so there are no more turns than edges. -/
def tip (g : ChangeGraph) (id : ChangeId) : Option CommitId := do
  let c ← g.changes[id]?
  let cursor ← c.revisions.head?
  some (followTip g.supersededBy (g.supersededBy.size + 1) [cursor] cursor)

/-- Set a phase; a public change does not become a draft again. -/
def setPhase (g : ChangeGraph) (id : ChangeId) (phase : Phase) : Except IdentityError ChangeGraph :=
  match g.changes[id]? with
  | none => .error (.unknownChange id)
  | some c =>
      if c.phase = .published ∧ phase = .draft then .error (.phaseRegression id)
      else .ok { g with changes := g.changes.insert id { c with phase := phase } }

/-- A call on a change graph. -/
inductive Call where
  | addChange (c : Change)
  | addRevision (id : ChangeId) (commit : CommitId)
  | supersede (old new : CommitId)
  | setPhase (id : ChangeId) (phase : Phase)
  deriving DecidableEq, Repr

/-- The graph after a call. One that fails has changed nothing. -/
def apply (g : ChangeGraph) : Call → ChangeGraph
  | .addChange c => g.addChange c
  | .addRevision id commit => (g.addRevision id commit).toOption.getD g
  | .supersede old new => (g.supersede old new).toOption.getD g
  | .setPhase id phase => (g.setPhase id phase).toOption.getD g

/-- The graph after some calls. -/
def run (g : ChangeGraph) (calls : List Call) : ChangeGraph := calls.foldl apply g

/-- Without supersession the tip of a change is its first revision. -/
theorem tip_of_not_superseded {g : ChangeGraph} (h : g.supersededBy = ∅) (id : ChangeId) :
    g.tip id = g.changes[id]?.bind fun c => c.revisions.head? := by
  unfold tip
  cases hc : g.changes[id]? with
  | none => rfl
  | some c =>
      cases hr : c.revisions.head? with
      | none => simp [hr]
      | some r => simp [hr, h, followTip]

/-- Setting a phase moves no tip and loses no change. -/
theorem setPhase_ok {g g' : ChangeGraph} {id : ChangeId} {phase : Phase}
    (h : g.setPhase id phase = .ok g') (c : ChangeId) :
    g'.tip c = g.tip c ∧ (g'.change c).isSome = (g.change c).isSome := by
  unfold setPhase at h
  cases hc : g.changes[id]? with
  | none => simp [hc] at h
  | some change =>
      simp only [hc] at h
      split at h
      · simp at h
      · rw [Except.ok.injEq] at h
        subst h
        simp only [tip, ChangeGraph.change, BTreeMap.getElem?_insert]
        by_cases hid : id = c
        · subst hid
          simp [hc]
        · simp [hid]

end ChangeGraph

end Omoplata
