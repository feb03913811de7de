-- SUMMARY: Workspaces, snapshots of their working directories, and the automatic snapshot.
import Omoplata.Work.OpLog

/-!
# Workspaces

A workspace is a working directory with the change it edits. A snapshot stores the
directory's tree; the automatic one records it as a commit when it differs from
the change's tip.
-/

namespace Omoplata

/-- A registered workspace. -/
structure Workspace where
  name : Str
  workingDir : Str
  change : ChangeId
  deriving DecidableEq, Repr

/-- The registered workspaces, in registration order. -/
structure WorkspaceRegistry where
  workspaces : List Workspace
  deriving DecidableEq, Repr

namespace WorkspaceRegistry

def get (reg : WorkspaceRegistry) (name : Str) : Option Workspace := reg.workspaces.find? fun w => w.name = name

/-- Point the first workspace of a name at another change, if there is one. -/
def pointTo (name : Str) (change : ChangeId) : List Workspace → Option (List Workspace)
  | [] => none
  | w :: workspaces =>
      if w.name = name then some ({ w with change } :: workspaces)
      else (pointTo name change workspaces).map (w :: ·)

/-- Repoint a workspace's current change. -/
def setChange (reg : WorkspaceRegistry) (name : Str) (change : ChangeId) : Option WorkspaceRegistry :=
  (pointTo name change reg.workspaces).map WorkspaceRegistry.mk

theorem names_pointTo {name : Str} {change : ChangeId} {workspaces workspaces' : List Workspace}
    (h : pointTo name change workspaces = some workspaces') :
    workspaces'.map Workspace.name = workspaces.map Workspace.name := by
  induction workspaces generalizing workspaces' with
  | nil => cases h
  | cons w workspaces ih =>
      unfold pointTo at h
      split at h
      · cases h
        rfl
      · obtain ⟨rest, hrest, rfl⟩ := Option.map_eq_some_iff.mp h
        rw [List.map_cons, List.map_cons, ih hrest]

theorem find?_pointTo {ws : Workspace} {change : ChangeId} {workspaces workspaces' : List Workspace}
    (hfind : (workspaces.find? fun w => w.name = ws.name) = some ws)
    (h : pointTo ws.name change workspaces = some workspaces') :
    (workspaces'.find? fun w => w.name = ws.name) = some { ws with change } := by
  induction workspaces generalizing workspaces' with
  | nil => cases h
  | cons w workspaces ih =>
      unfold pointTo at h
      split at h
      · rename_i hname
        rw [List.find?_cons_of_pos (by simpa using hname), Option.some.injEq] at hfind
        cases h
        rw [List.find?_cons_of_pos (by simpa using hname), hfind]
      · rename_i hname
        rw [List.find?_cons_of_neg (by simpa using hname)] at hfind
        obtain ⟨rest, hrest, rfl⟩ := Option.map_eq_some_iff.mp h
        rw [List.find?_cons_of_neg (by simpa using hname)]
        exact ih hfind hrest

theorem names_setChange {reg reg' : WorkspaceRegistry} {name : Str} {change : ChangeId}
    (h : reg.setChange name change = some reg') :
    reg'.workspaces.map Workspace.name = reg.workspaces.map Workspace.name := by
  obtain ⟨workspaces', hpoint, rfl⟩ := Option.map_eq_some_iff.mp h
  exact names_pointTo hpoint

/-- A workspace is found under its name, with the change it has been pointed at. -/
theorem get_setChange {reg reg' : WorkspaceRegistry} {ws : Workspace} {change : ChangeId} (hget : reg.get ws.name = some ws)
    (h : reg.setChange ws.name change = some reg') : reg'.get ws.name = some { ws with change } := by
  obtain ⟨workspaces', hpoint, rfl⟩ := Option.map_eq_some_iff.mp h
  exact find?_pointTo hget hpoint

end WorkspaceRegistry

/-- The files of each working directory, control directories left out. -/
abbrev WorkingDirs := BTreeMap Str Files

section

variable (treeId : Files → ObjectId) (dirs : WorkingDirs)

/-- Store the tree of a working directory. -/
def snapshot (store : Store) (dir : Str) : Except WorkError (ObjectId × Store) :=
  match dirs[dir]? with
  | none => .error (.io dir)
  | some files => .ok (store.write treeId files)

/-- Whether a working directory differs from the tip it is expected at, with the commit
    its snapshot gives. Without a tip it is expected to be empty. -/
def isDirty (store : Store) (dir : Str) (expected : Option CommitId) :
    Except WorkError ((Bool × CommitId) × Store) := do
  let (id, store) ← snapshot treeId dirs store dir
  let current := id.toText
  match expected with
  | some tip => pure ((decide (current ≠ tip), current), store)
  | none =>
      let (empty, store) := store.write treeId ∅
      pure ((decide (current ≠ empty.toText), current), store)

/-- Snapshot a workspace into a new commit of its change, if it is dirty. -/
def autoSnapshot (store : Store) (log : OpLog) (ws : Workspace) :
    Except WorkError ((CommitId × Bool) × Store × OpLog) := do
  let currentTip := log.refsNow[ws.change]?
  let ((dirty, currentCommit), store) ← isDirty treeId dirs store ws.workingDir currentTip
  if dirty then do
    let (tree, store) ← snapshot treeId dirs store ws.workingDir
    let newCommit := tree.toText
    let msg := "auto-snapshot workspace ".toList ++ ws.name
    pure ((newCommit, true), store,
      log.append (.commit ws.name ws.change newCommit currentTip (some msg)) (some msg) nofun)
  else pure ((currentCommit, false), store, log)

/-- A snapshot whose failure is ignored. -/
def trySnapshot (s : Store × OpLog) (ws : Workspace) : Store × OpLog :=
  match autoSnapshot treeId dirs s.1 s.2 ws with
  | .ok (_, s') => s'
  | .error _ => s

/-- The workspaces a command about `changes` snapshots, in the order it does. -/
def workspacesOf (reg : WorkspaceRegistry) (changes : List ChangeId) : List Workspace :=
  changes.flatMap fun c => reg.workspaces.filter fun ws => ws.change == c || ws.name == c

/-- Snapshot the workspaces of `changes`. -/
def snapshotChanges (reg : WorkspaceRegistry) (changes : List ChangeId) (s : Store × OpLog) :
    Store × OpLog :=
  (workspacesOf reg changes).foldl (trySnapshot treeId dirs) s

/-! ## What a snapshot moves -/

theorem getElem?_refsNow_commit (log : OpLog) (workspace : Str) (change : ChangeId) (commit : CommitId)
    (parent : Option CommitId) (message note : Option Str) (a : ChangeId) :
    (log.append (.commit workspace change commit parent message) note nofun).refsNow[a]? =
      if change = a then some commit else log.refsNow[a]? := by
  rw [OpLog.append, OpLog.refsNow_appendAt log rfl, OpKind.applyTo, BTreeMap.getElem?_insert]

/-- Whether a snapshot of a workspace would record a commit, at these refs. -/
def Workspace.dirtyAt (refs : Refs) (ws : Workspace) : Bool :=
  match dirs[ws.workingDir]? with
  | none => false
  | some files => decide ((treeId files).toText ≠ refs[ws.change]?.getD (treeId ∅).toText)

/-- What a snapshot leaves as the ref of a change: the tree of a dirty workspace that edits
    it, or what was there. -/
theorem getElem?_trySnapshot (s : Store × OpLog) (ws : Workspace) (a : ChangeId) :
    (trySnapshot treeId dirs s ws).2.refsNow[a]? =
      if ws.change = a ∧ ws.dirtyAt treeId dirs s.2.refsNow = true then
        dirs[ws.workingDir]?.map fun files => (treeId files).toText
      else s.2.refsNow[a]? := by
  obtain ⟨store, log⟩ := s
  unfold trySnapshot autoSnapshot isDirty snapshot Workspace.dirtyAt
  cases hdir : dirs[ws.workingDir]? with
  | none => simp [bind, Except.bind]
  | some files =>
      cases htip : log.refsNow[ws.change]? with
      | none =>
          by_cases hdirty : (treeId files).toText = (treeId ∅).toText
          · simp [Store.write, bind, Except.bind, pure, Except.pure, hdirty]
          · simp [Store.write, bind, Except.bind, pure, Except.pure, hdirty, getElem?_refsNow_commit]
      | some tip =>
          by_cases hdirty : (treeId files).toText = tip
          · simp [Store.write, bind, Except.bind, pure, Except.pure, hdirty]
          · simp [Store.write, bind, Except.bind, pure, Except.pure, hdirty, getElem?_refsNow_commit]

/-- A snapshot leaves the ref of a change, unless the workspace edits it and is dirty. -/
theorem trySnapshot_refs {s : Store × OpLog} {ws : Workspace} {a : ChangeId}
    (h : ws.change = a → ws.dirtyAt treeId dirs s.2.refsNow = false) :
    (trySnapshot treeId dirs s ws).2.refsNow[a]? = s.2.refsNow[a]? := by
  rw [getElem?_trySnapshot, if_neg]
  rintro ⟨hchange, hdirty⟩
  rw [h hchange] at hdirty
  cases hdirty

/-- The automatic snapshots of a command leave the ref of a change all of whose workspaces
    among them are clean. -/
theorem foldl_trySnapshot_refs {workspaces : List Workspace} {s : Store × OpLog} {a : ChangeId}
    (h : ∀ ws ∈ workspaces, ws.change = a → ws.dirtyAt treeId dirs s.2.refsNow = false) :
    (workspaces.foldl (trySnapshot treeId dirs) s).2.refsNow[a]? = s.2.refsNow[a]? := by
  induction workspaces generalizing s with
  | nil => rfl
  | cons ws workspaces ih =>
      have hfirst := trySnapshot_refs treeId dirs (h ws (by simp))
      rw [List.foldl_cons, ih, hfirst]
      intro ws' hmem hchange
      have hclean := h ws' (List.mem_cons_of_mem _ hmem) hchange
      -- Whether it is dirty depends on the ref of its change, which has not moved.
      unfold Workspace.dirtyAt at hclean ⊢
      rw [hchange] at hclean ⊢
      rw [hfirst]
      exact hclean

/-- A change has a ref after the snapshots of a command exactly where it had one, or one of
    its workspaces among them is dirty. -/
theorem isSome_foldl_trySnapshot {workspaces : List Workspace} {s : Store × OpLog} {a : ChangeId} :
    ((workspaces.foldl (trySnapshot treeId dirs) s).2.refsNow[a]?).isSome = true ↔
      s.2.refsNow[a]?.isSome = true ∨
        ∃ ws ∈ workspaces, ws.change = a ∧ ws.dirtyAt treeId dirs s.2.refsNow = true := by
  induction workspaces generalizing s with
  | nil => simp
  | cons ws workspaces ih =>
      rw [List.foldl_cons, ih, getElem?_trySnapshot]
      by_cases hdirty : ws.change = a ∧ ws.dirtyAt treeId dirs s.2.refsNow = true
      · have hsome : (dirs[ws.workingDir]?).isSome = true := by
          have hws := hdirty.2
          unfold Workspace.dirtyAt at hws
          cases hdir : dirs[ws.workingDir]? with
          | none => simp [hdir] at hws
          | some files => rfl
        simp only [if_pos hdirty, Option.isSome_map, hsome, true_or, true_iff]
        exact .inr ⟨ws, by simp, hdirty⟩
      · rw [if_neg hdirty]
        -- The workspaces still to come find the ref of the change as it was.
        have hsame : ∀ ws' : Workspace, ws'.change = a →
            ws'.dirtyAt treeId dirs (trySnapshot treeId dirs s ws).2.refsNow = ws'.dirtyAt treeId dirs s.2.refsNow := by
          intro ws' hchange
          unfold Workspace.dirtyAt
          rw [hchange, getElem?_trySnapshot, if_neg hdirty]
        simp only [List.exists_mem_cons_iff, hdirty, false_or]
        apply or_congr_right
        exact exists_congr fun ws' => and_congr_right fun _ => and_congr_right fun hchange => by rw [hsame ws' hchange]

end

end Omoplata
