-- SUMMARY: Switching a workspace to another change: how a target resolves, and where the switch leaves the workspace.
import Omoplata.Work.Queue
import Omoplata.Work.RoundTrip

/-!
# Switching

A switch resolves its target against the refs, checks the tip out into the directory of a
workspace, and points the workspace at the change that the ref names. It appends nothing to
the log. So the directory is at the tip that the change has there only where the change's
own ref is at the tip of the target.
-/

open Listing

namespace Omoplata

/-- What a switch reads and writes. -/
structure SwitchState where
  repo : Repository
  log : OpLog
  workspaces : WorkspaceRegistry
  dirs : BTreeMap Str WorkFolder
  names : (workspaces.workspaces.map Workspace.name).Nodup

/-- Why a switch fails. -/
inductive SwitchError where
  | noWorkspace (name : Str)
  | noWorkspaces
  | currentDirectory
  | severalWorkspaces
  | noTarget (target : Str)
  | folder (e : FolderError)
  | uncommitted (workspace : Str) (change : ChangeId)
  | invalidTip (change : ChangeId) (tip : CommitId)
  | unknownWorkspace (name : Str)
  | panicked (p : Panic)
  deriving DecidableEq

/-- The workspace a command is about. `cwdIn` tells whether the current directory, where there
    is one, lies in a working directory. -/
def resolveWorkspace (cwdIn : Option (Str → Bool)) (reg : WorkspaceRegistry) (name : Option Str) :
    Except SwitchError Workspace :=
  match name with
  | some name =>
      match reg.get name with
      | some ws => .ok ws
      | none => .error (.noWorkspace name)
  | none =>
      match reg.workspaces with
      | [] => .error .noWorkspaces
      | [only] => .ok only
      | many =>
          match cwdIn with
          | none => .error .currentDirectory
          | some cwdIn =>
              match many.find? fun w => cwdIn w.workingDir with
              | some ws => .ok ws
              | none => .error .severalWorkspaces

def stripPrefix (front s : Str) : Option Str := if front.isPrefixOf s then some (s.drop front.length) else none

/-- The change that a ref ultimately names: it without `remotes/<remote>/` and `public/`. -/
def changeIdOfRef (refname : Str) : ChangeId :=
  let rest :=
    match stripPrefix "remotes/".toList refname with
    | some afterRemotes => ((splitOnce '/' afterRemotes).map (·.2)).getD afterRemotes
    | none => refname
  (stripPrefix "public/".toList rest).getD rest

/-- The refs that `<remote>/<change>` is short for. -/
def remoteRefs (remote rest : Str) : List Str :=
  let front := "remotes/".toList ++ remote
  [front ++ "/public/".toList ++ rest, front ++ "/public/ws/".toList ++ rest, front ++ ['/'] ++ rest]

/-- Resolve a target to a change and a tip; the first hit wins. -/
def resolveSwitchTarget (refs : Refs) (reg : WorkspaceRegistry) (target : Str) : Option (ChangeId × CommitId) :=
  (refs[target]?.map fun tip => (changeIdOfRef target, tip)) <|>
    ((reg.get target).bind fun ws => refs[ws.change]?.map fun tip => (ws.change, tip)) <|>
    (refs["ws/".toList ++ target]?.map fun tip => ("ws/".toList ++ target, tip)) <|>
    (refs[queueRef "trunk".toList target]?.map fun tip => (target, tip)) <|>
    ((splitOnce '/' target).bind fun (remote, rest) =>
      (remoteRefs remote rest).findSome? fun cand => refs[cand]?.map fun tip => (changeIdOfRef cand, tip))

/-- Point a workspace at the change of a target, with the target's tip in its directory. -/
def cmdSwitch (sha256 : List UInt8 → ObjectId) (fuel : Nat) (cwdIn : Option (Str → Bool)) (s : SwitchState)
    (target : Str) (workspace : Option Str) (force : Bool) : Except SwitchError (ChangeId × CommitId) × SwitchState :=
  match resolveWorkspace cwdIn s.workspaces workspace with
  | .error e => (.error e, s)
  | .ok ws =>
      match resolveSwitchTarget s.log.refsNow s.workspaces target with
      | none => (.error (.noTarget target), s)
      | some (change, tip) =>
          match s.dirs[ws.workingDir]? with
          | none => (.error (.folder (.io [])), s)
          | some folder =>
              match Folder.isDirty sha256 folder.listing s.log.refsNow[ws.change]? s.repo with
              | (.error e, repo) => (.error (.folder e), { s with repo })
              | (.ok (dirty, _), repo) =>
                  let s := { s with repo }
                  if dirty && !force then (.error (.uncommitted ws.name ws.change), s)
                  else
                    match ObjectId.parse tip with
                    | .error p => (.error (.panicked p), s)
                    | .ok (.error _) => (.error (.invalidTip change tip), s)
                    | .ok (.ok id) =>
                        let (r, folder) := Folder.checkout sha256 repo fuel id folder
                        let s := { s with dirs := s.dirs.insert ws.workingDir folder }
                        match r with
                        | .error e => (.error (.folder e), s)
                        | .ok () =>
                            match hset : s.workspaces.setChange ws.name change with
                            | none => (.error (.unknownWorkspace ws.name), s)
                            | some reg =>
                                (.ok (change, tip),
                                  { s with workspaces := reg, names := WorkspaceRegistry.names_setChange hset ▸ s.names })

/-! ## The workspace -/

theorem get_of_mem {reg : WorkspaceRegistry} (hnames : (reg.workspaces.map Workspace.name).Nodup) {ws : Workspace}
    (h : ws ∈ reg.workspaces) : reg.get ws.name = some ws := by
  obtain ⟨workspaces⟩ := reg
  unfold WorkspaceRegistry.get
  simp only at hnames h ⊢
  induction workspaces with
  | nil => cases h
  | cons w workspaces ih =>
      rw [List.map_cons, List.nodup_cons] at hnames
      cases List.mem_cons.mp h with
      | inl heq =>
          subst heq
          simp
      | inr hmem =>
          have hne : w.name ≠ ws.name := fun heq => hnames.1 (heq ▸ List.mem_map_of_mem hmem)
          rw [List.find?_cons_of_neg (by simpa using hne)]
          exact ih hnames.2 hmem

theorem mem_of_resolveWorkspace {cwdIn : Option (Str → Bool)} {reg : WorkspaceRegistry} {name : Option Str}
    {ws : Workspace} (h : resolveWorkspace cwdIn reg name = .ok ws) : ws ∈ reg.workspaces := by
  unfold resolveWorkspace at h
  split at h
  · split at h
    · rename_i hget
      cases h
      exact List.mem_of_find?_eq_some hget
    · cases h
  · split at h
    · cases h
    · rename_i hworkspaces
      cases h
      rw [hworkspaces]
      exact List.mem_singleton_self _
    · split at h
      · cases h
      · split at h
        · rename_i hfind
          cases h
          exact List.mem_of_find?_eq_some hfind
        · cases h

/-! ## What a switch does -/

/-- What a switch that succeeds has done. -/
theorem cmdSwitch_ok {sha256 : List UInt8 → ObjectId} {fuel : Nat} {cwdIn : Option (Str → Bool)} {s s' : SwitchState}
    {target : Str} {workspace : Option Str} {force : Bool} {change : ChangeId} {tip : CommitId}
    (h : cmdSwitch sha256 fuel cwdIn s target workspace force = (.ok (change, tip), s')) :
    ∃ ws folder id, resolveWorkspace cwdIn s.workspaces workspace = .ok ws ∧
      resolveSwitchTarget s.log.refsNow s.workspaces target = some (change, tip) ∧
      s.dirs[ws.workingDir]? = some folder ∧ ObjectId.parse tip = .ok (.ok id) ∧
      s'.repo = (Folder.isDirty sha256 folder.listing s.log.refsNow[ws.change]? s.repo).2 ∧
      (Folder.checkout sha256 s'.repo fuel id folder).1 = .ok () ∧
      s'.dirs = s.dirs.insert ws.workingDir (Folder.checkout sha256 s'.repo fuel id folder).2 ∧
      s.workspaces.setChange ws.name change = some s'.workspaces ∧ s'.log = s.log := by
  unfold cmdSwitch at h
  split at h
  · cases h
  rename_i ws hws
  split at h
  · cases h
  rename_i change' tip' htarget
  split at h
  · cases h
  rename_i folder hfolder
  split at h
  · cases h
  rename_i dirty current repo hdirty
  simp only at h
  split at h
  · cases h
  split at h
  · cases h
  · cases h
  rename_i id hid
  split at h
  · cases h
  rename_i hout
  split at h
  · cases h
  rename_i reg hset
  cases h
  exact ⟨ws, folder, id, hws, htarget, hfolder, hid, by rw [hdirty], hout, rfl, hset, rfl⟩

/-! ## Where a switch leaves the workspace -/

/-- The directory of a workspace is at the tip that the log has for its change, and an automatic
    snapshot of it records nothing. -/
def AtTip (sha256 : List UInt8 → ObjectId) (s : SwitchState) (name : Str) : Prop :=
  ∃ ws folder id, s.workspaces.get name = some ws ∧ s.dirs[ws.workingDir]? = some folder ∧
    (Folder.snapshot sha256 folder.listing s.repo).1 = .ok id ∧ s.log.refsNow[ws.change]? = some id.toText ∧
    (Folder.autoSnapshot sha256 folder.listing ws s.log s.repo).2.1 = s.log

/-- The tree of a tip, its entries under control names left out, if the store has all of it. -/
def workingTree (sha256 : List UInt8 → ObjectId) (repo : Repository) (fuel : Nat) (tip : CommitId) : Option Tree :=
  match ObjectId.parse tip with
  | .ok (.ok id) =>
      match Folder.stored sha256 repo fuel id with
      | (.ok (), some (.directory l)) => (Folder.treeOf sha256 l .new).toOption
      | _ => none
  | _ => none

namespace Folder

/-- A directory that is at the tip of its change is left unrecorded by an automatic snapshot. -/
theorem autoSnapshot_log {sha256 : List UInt8 → ObjectId} {l : WorkListing} {ws : Workspace} {log : OpLog}
    {repo : Repository} {id : ObjectId} (h : (snapshot sha256 l repo).1 = .ok id)
    (htip : log.refsNow[ws.change]? = some id.toText) : (autoSnapshot sha256 l ws log repo).2.1 = log := by
  have hclean : isDirty sha256 l (some id.toText) repo = (.ok (false, id.toText), (snapshot sha256 l repo).2) :=
    isDirty_eq_clean_iff.mpr ⟨id, Prod.ext h rfl, rfl, rfl⟩
  unfold autoSnapshot
  simp only [htip, hclean]

/-- Behind a checkout the snapshot of a folder is that of what the store has of the tree. -/
theorem snapshot_checkout {sha256 : List UInt8 → ObjectId} {repo : Repository} {fuel : Nat} {id : ObjectId}
    {folder : WorkFolder} (h : (checkout sha256 repo fuel id folder).1 = .ok ()) :
    ∃ l t, stored sha256 repo fuel id = (.ok (), some (.directory l)) ∧ treeOf sha256 l .new = .ok t ∧
      ∀ repo', (snapshot sha256 (checkout sha256 repo fuel id folder).2.listing repo').1 =
        .ok ((Object.tree t).id sha256) := by
  have hok : (materialize sha256 repo fuel id (some (.directory folder.listing))).1 = .ok () := h
  obtain ⟨hend, hcontent⟩ := materialize_spec (fun e he => by rw [hok] at he; cases he)
  obtain ⟨l, hstored⟩ := exists_directory_of_stored (hend.symm.trans hok)
  obtain ⟨t, ht, -⟩ := treeOf_stored hstored
  obtain ⟨l', hl'⟩ := exists_directory ((hcontent []).trans (by simp [hstored]))
  have hlisting : (checkout sha256 repo fuel id folder).2.listing = l' := by
    unfold checkout
    simp only [hl', listingAt]
  refine ⟨l, t, hstored, ht, snapshot_fst t ?_⟩
  refine treeOf_congr (apart_stored fuel id _ (congrArg Prod.snd hstored))
    (checkout sha256 repo fuel id folder).2.apart (fun n hn path => ?_) ht
  have hname : isControlName (utf8 n) = false := isControlName_of_tracked (trackedName_eq_some_iff.mpr ⟨rfl, hn⟩)
  rw [hlisting, ← content_cons_path, ← content_cons_path, ← contentAt_directory l', ← hl', hcontent, hstored,
    keptContent_cons, hname]
  simp

end Folder

/-- What a switch that succeeds leaves: a directory that gives the tree of the target's tip, its
    entries under control names left out, and a workspace that is at the tip of its change exactly
    where the change has this tree. -/
theorem exists_tree_of_cmdSwitch {sha256 : List UInt8 → ObjectId} {fuel : Nat} {cwdIn : Option (Str → Bool)}
    {s s' : SwitchState} {target : Str} {workspace : Option Str} {force : Bool} {change : ChangeId} {tip : CommitId}
    (h : cmdSwitch sha256 fuel cwdIn s target workspace force = (.ok (change, tip), s')) :
    ∃ ws folder id l t, resolveWorkspace cwdIn s.workspaces workspace = .ok ws ∧
      s.dirs[ws.workingDir]? = some folder ∧
      resolveSwitchTarget s.log.refsNow s.workspaces target = some (change, tip) ∧
      s'.workspaces.get ws.name = some { ws with change } ∧
      s'.repo = (Folder.isDirty sha256 folder.listing s.log.refsNow[ws.change]? s.repo).2 ∧
      ObjectId.parse tip = .ok (.ok id) ∧ Folder.stored sha256 s'.repo fuel id = (.ok (), some (.directory l)) ∧
      Folder.treeOf sha256 l .new = .ok t ∧
      (AtTip sha256 s' ws.name ↔ s.log.refsNow[change]? = some ((Object.tree t).id sha256).toText) := by
  obtain ⟨ws, folder, id, hws, htarget, hfolder, hid, hrepo, hout, hdirs, hset, hlog⟩ := cmdSwitch_ok h
  have hget := WorkspaceRegistry.get_setChange (get_of_mem s.names (mem_of_resolveWorkspace hws)) hset
  obtain ⟨l, t, hstored, ht, hsnapshot⟩ := Folder.snapshot_checkout hout
  have hdir : s'.dirs[ws.workingDir]? = some (Folder.checkout sha256 s'.repo fuel id folder).2 := by
    rw [hdirs, BTreeMap.getElem?_insert, if_pos rfl]
  refine ⟨ws, folder, id, l, t, hws, hfolder, htarget, hget, hrepo, hid, hstored, ht, ?_⟩
  rw [← hlog]
  constructor
  · rintro ⟨ws', folder', id', hws', hfolder', hid', htip, -⟩
    rw [hget, Option.some.injEq] at hws'
    subst hws'
    rw [hdir, Option.some.injEq] at hfolder'
    subst hfolder'
    rw [hsnapshot, Except.ok.injEq] at hid'
    rw [hid']
    exact htip
  · intro htip
    exact ⟨_, _, _, hget, hdir, hsnapshot _, htip, Folder.autoSnapshot_log (hsnapshot _) htip⟩

/-- A switch to a change whose own ref is at the target leaves the workspace at it, where no name
    in the tree is a control name. -/
theorem atTip_of_own_ref {sha256 : List UInt8 → ObjectId} {fuel : Nat} {cwdIn : Option (Str → Bool)}
    {s s' : SwitchState} {target : Str} {workspace : Option Str} {force : Bool} {change : ChangeId} {id : ObjectId}
    (h : cmdSwitch sha256 fuel cwdIn s target workspace force = (.ok (change, id.toText), s'))
    (hown : s.log.refsNow[change]? = some id.toText)
    (hplain : ∀ l, Folder.stored sha256 s'.repo fuel id = (.ok (), some (.directory l)) → Folder.Plain l) :
    ∃ ws, resolveWorkspace cwdIn s.workspaces workspace = .ok ws ∧ AtTip sha256 s' ws.name := by
  obtain ⟨ws, folder, id', l, t, hws, -, -, -, -, hid, hstored, ht, hiff⟩ := exists_tree_of_cmdSwitch h
  rw [ObjectId.parse_toText] at hid
  cases hid
  obtain ⟨t', ht', hsame⟩ := Folder.treeOf_stored hstored
  obtain rfl : t = t' := Except.ok.inj (ht.symm.trans ht')
  rw [hsame (hplain l hstored)] at hiff
  exact ⟨ws, hws, hiff.mpr hown⟩

/-- A switch leaves the workspace at the tip of its change, with nothing to record, exactly where
    the change that the target's ref names has a ref of its own at the target's tree. -/
theorem cmdSwitch_atTip_iff (sha256 : List UInt8 → ObjectId) (fuel : Nat) (cwdIn : Option (Str → Bool))
    (s : SwitchState) (target : Str) (workspace : Option Str) (force : Bool) {change : ChangeId} {tip : CommitId}
    {s' : SwitchState} (h : cmdSwitch sha256 fuel cwdIn s target workspace force = (.ok (change, tip), s')) :
    ∃ ws folder, resolveWorkspace cwdIn s.workspaces workspace = .ok ws ∧ s.dirs[ws.workingDir]? = some folder ∧
      resolveSwitchTarget s.log.refsNow s.workspaces target = some (change, tip) ∧
      s'.workspaces.get ws.name = some { ws with change } ∧
      (AtTip sha256 s' ws.name ↔
        ∃ t, workingTree sha256 (Folder.isDirty sha256 folder.listing s.log.refsNow[ws.change]? s.repo).2 fuel tip = some t ∧
          s.log.refsNow[change]? = some ((Object.tree t).id sha256).toText) := by
  obtain ⟨ws, folder, id, l, t, hws, hfolder, htarget, hget, hrepo, hid, hstored, ht, hiff⟩ := exists_tree_of_cmdSwitch h
  refine ⟨ws, folder, hws, hfolder, htarget, hget, hiff.trans ?_⟩
  have hworking : workingTree sha256 s'.repo fuel tip = some t := by
    rw [workingTree, hid]
    simp only [hstored, ht]
    rfl
  rw [← hrepo, hworking]
  simp

/-- The tree of a file. -/
def fileTree (b : UInt8) : Tree := .build [⟨"f".toList, .blob, (Object.blob [b]).id ObjectId.ofSha256⟩]

/-- Two changes with a file each, and a workspace with the file of the first. -/
def besideOther : SwitchState where
  repo := .ofObjects ObjectId.ofSha256 [.blob [1], .tree (fileTree 1), .blob [2], .tree (fileTree 2)]
  log := (OpLog.new.setRef "a".toList (some ((Object.tree (fileTree 1)).id ObjectId.ofSha256).toText) none).setRef
    "b".toList (some ((Object.tree (fileTree 2)).id ObjectId.ofSha256).toText) none
  workspaces := ⟨[⟨"w".toList, "d".toList, "a".toList⟩]⟩
  dirs := (∅ : BTreeMap Str WorkFolder).insert "d".toList
    ⟨.leaf (utf8 "f".toList) (.regular [1]) .nil, List.not_mem_nil, trivial⟩
  names := by decide

/-- A switch to the other change leaves the workspace with its file, and nothing to record. -/
theorem cmdSwitch_atTip_iff_file :
    ∃ s', cmdSwitch ObjectId.ofSha256 2 none besideOther "b".toList none false =
        (.ok ("b".toList, ((Object.tree (fileTree 2)).id ObjectId.ofSha256).toText), s') ∧
      AtTip ObjectId.ofSha256 s' "w".toList := by
  cases hswitch : cmdSwitch ObjectId.ofSha256 2 none besideOther "b".toList none false with
  | mk r s' =>
      have hrun : (cmdSwitch ObjectId.ofSha256 2 none besideOther "b".toList none false).1 =
          .ok ("b".toList, ((Object.tree (fileTree 2)).id ObjectId.ofSha256).toText) := by decide +kernel
      rw [hswitch] at hrun
      subst hrun
      obtain ⟨ws, folder, hws, hfolder, -, -, hiff⟩ :=
        cmdSwitch_atTip_iff ObjectId.ofSha256 2 none besideOther "b".toList none false hswitch
      have hresolved : resolveWorkspace none besideOther.workspaces none =
          .ok ⟨"w".toList, "d".toList, "a".toList⟩ := by rfl
      obtain rfl := Except.ok.inj (hresolved.symm.trans hws)
      refine ⟨s', rfl, hiff.mpr ⟨fileTree 2, ?_, by decide +kernel⟩⟩
      obtain rfl := Option.some.inj (hfolder.symm.trans (show besideOther.dirs["d".toList]? = some _ from rfl))
      decide +kernel

/-- A change that has been edited behind its landing, in a workspace that is clean. -/
def editedBehindLanding : SwitchState where
  repo := .ofObjects ObjectId.ofSha256 [.blob [1], .tree (fileTree 1), .blob [2], .tree (fileTree 2)]
  log := (OpLog.new.setRef "public/a".toList (some ((Object.tree (fileTree 1)).id ObjectId.ofSha256).toText) none).setRef
    "a".toList (some ((Object.tree (fileTree 2)).id ObjectId.ofSha256).toText) none
  workspaces := ⟨[⟨"w".toList, "d".toList, "a".toList⟩]⟩
  dirs := (∅ : BTreeMap Str WorkFolder).insert "d".toList
    ⟨.leaf (utf8 "f".toList) (.regular [2]) .nil, List.not_mem_nil, trivial⟩
  names := by decide

/-- A switch to the landed change binds the workspace to the edited one, and the next automatic
    snapshot takes the edit back. -/
theorem cmdSwitch_records_landed :
    let sha256 := ObjectId.ofSha256
    let landed := ((Object.tree (fileTree 1)).id sha256).toText
    let edited := ((Object.tree (fileTree 2)).id sha256).toText
    let r := cmdSwitch sha256 2 none editedBehindLanding "public/a".toList none false
    r.1 = .ok ("a".toList, landed) ∧ r.2.log.refsNow["a".toList]? = some edited ∧ landed ≠ edited ∧
      (r.2.dirs["d".toList]?.bind fun folder => r.2.workspaces.workspaces.head?.map fun ws =>
        ((Folder.snapshot sha256 folder.listing r.2.repo).1,
          (Folder.autoSnapshot sha256 folder.listing ws r.2.log r.2.repo).2.1.refsNow["a".toList]?)) =
        some (.ok ((Object.tree (fileTree 1)).id sha256), some landed) := by
  decide +kernel

end Omoplata
