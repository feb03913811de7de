-- SUMMARY: Working directories as maps from paths to contents, which say what a snapshot stores.
import Omoplata.Work.RoundTrip

/-!
# Flat directories

The commands know a working directory by what stands at its paths: the files that a
snapshot takes, read as text where they are, and the directories it takes nothing of. Two
directories that are alike so have one tree, so the id of a tree is a function of the paths.
-/

open Listing

namespace Omoplata

namespace Folder

/-- What a file holds, as text if it is UTF-8. -/
def contentOf (bytes : List UInt8) : Content :=
  match fromUtf8 bytes with
  | some s => .text s
  | none => .binary bytes

/-- What a snapshot takes of a directory, by the names on the way. -/
def entries : WorkListing → List (List Str × Content)
  | .nil => []
  | .leaf name (.regular bytes) rest =>
      match trackedName name with
      | none => entries rest
      | some n => ([n], contentOf bytes) :: entries rest
  | .leaf _ (.special _) rest => entries rest
  | .directory name below rest =>
      match trackedName name with
      | none => entries rest
      | some n =>
          let inside := if (entries below).isEmpty then [([], Content.directory)] else entries below
          inside.map (fun e => (n :: e.1, e.2)) ++ entries rest

/-- What a snapshot takes of a node. -/
def nodeEntries : Node OsName Leaf → List (List Str × Content)
  | .leaf (.regular bytes) => [([], contentOf bytes)]
  | .leaf (.special _) => []
  | .directory below => if (entries below).isEmpty then [([], .directory)] else entries below

/-- What a snapshot takes of a place. -/
def taken : Place → List (List Str × Content)
  | none => []
  | some node => nodeEntries node

/-- A path as the commands write it. -/
def joined (names : List Str) : Str := ['/'].intercalate names

/-- The files and the empty directories that a snapshot takes, by path. -/
def filesOf (l : WorkListing) : Files := (entries l).foldl (fun files e => files.insert (joined e.1) e.2) ∅

variable {l l' : WorkListing} {node : Node OsName Leaf} {n : Str} {path : List Str} {c : Content}

theorem contentOf_injective : Function.Injective contentOf := by
  intro bytes bytes' h
  unfold contentOf at h
  split at h
  · rename_i s hs
    split at h
    · rename_i s' hs'
      rw [← utf8_of_fromUtf8 hs, ← utf8_of_fromUtf8 hs', Content.text.inj h]
    · cases h
  · split at h
    · cases h
    · exact Content.binary.inj h

theorem contentOf_ne_directory (bytes : List UInt8) : contentOf bytes ≠ .directory := by
  unfold contentOf
  split <;> nofun

theorem entries_cons (name : OsName) (node : Node OsName Leaf) (rest : WorkListing) :
    entries (cons name node rest) =
      ((trackedName name).elim [] fun n => (nodeEntries node).map fun e => (n :: e.1, e.2)) ++ entries rest := by
  cases node with
  | leaf c => cases c <;> cases htracked : trackedName name <;> simp [cons, entries, nodeEntries, htracked]
  | directory below => cases htracked : trackedName name <;> simp [cons, entries, nodeEntries, htracked]

theorem nil_notMem_entries : ([], c) ∉ entries l := by
  induction l using consRec with
  | nil => exact List.not_mem_nil
  | cons name node rest _ ih =>
      rw [entries_cons, List.mem_append, not_or]
      refine ⟨?_, ih⟩
      cases trackedName name with
      | none => exact List.not_mem_nil
      | some n => simp

/-- What is taken under a name is what is taken of the place there. -/
theorem mem_entries_iff (h : l.Apart) :
    (n :: path, c) ∈ entries l ↔ n ∉ controlNames ∧ (path, c) ∈ taken (l.get (utf8 n)) := by
  induction l using consRec with
  | nil => simp [entries, taken]
  | cons name node rest _ ih =>
      obtain ⟨hfresh, -, hrest⟩ := (apart_cons name node rest).mp h
      rw [← get_eq_none_iff] at hfresh
      rw [entries_cons, List.mem_append, ih hrest]
      cases htracked : trackedName name with
      | none =>
          simp only [Option.elim_none, List.not_mem_nil, false_or]
          refine and_congr_right fun hn => ?_
          rw [get_cons_of_untracked htracked hn]
      | some m =>
          obtain ⟨rfl, hm⟩ := trackedName_eq_some_iff.mp htracked
          simp only [Option.elim_some, List.mem_map, Prod.mk.injEq, List.cons.injEq, Prod.exists]
          by_cases hn : n = m
          · subst hn
            simp [hm, hfresh, taken]
          · rw [get_cons_utf8_of_ne hn]
            simp [Ne.symm hn]

theorem nodeEntries_directory_ne_nil (below : WorkListing) : nodeEntries (.directory below) ≠ [] := by
  rw [nodeEntries]
  split
  · nofun
  · rename_i hsome
    exact fun hnil => hsome (List.isEmpty_iff.mpr hnil)

theorem eq_regular_of_mem_nodeEntries {bytes : List UInt8} (h : ([], contentOf bytes) ∈ nodeEntries node) :
    node = .leaf (.regular bytes) := by
  cases node with
  | leaf c =>
      cases c with
      | regular bytes' =>
          rw [nodeEntries, List.mem_singleton, Prod.mk.injEq] at h
          rw [contentOf_injective h.2]
      | special what => cases h
  | directory below =>
      rw [nodeEntries] at h
      split at h
      · rw [List.mem_singleton, Prod.mk.injEq] at h
        exact absurd h.2 (contentOf_ne_directory bytes)
      · exact absurd h nil_notMem_entries

theorem mem_nodeEntries_directory {below : WorkListing} : (path, c) ∈ nodeEntries (.directory below) ↔
    (path, c) ∈ entries below ∨ entries below = [] ∧ path = [] ∧ c = .directory := by
  rw [nodeEntries]
  split
  · rename_i hempty
    rw [List.isEmpty_iff.mp hempty]
    simp
  · rename_i hsome
    rw [List.isEmpty_iff] at hsome
    simp [hsome]

/-- A directory is a directory by what is taken of it. -/
theorem exists_directory {below : WorkListing} {p : Place}
    (h : ∀ path c, (path, c) ∈ nodeEntries (.directory below) ↔ (path, c) ∈ taken p) :
    ∃ below', p = some (.directory below') ∧ ∀ path c, (path, c) ∈ entries below ↔ (path, c) ∈ entries below' := by
  obtain ⟨⟨path, c⟩, hmem⟩ := List.exists_mem_of_ne_nil _ (nodeEntries_directory_ne_nil below)
  match p with
  | none => exact absurd ((h path c).mp hmem) List.not_mem_nil
  | some (.leaf (.special what)) => exact absurd ((h path c).mp hmem) List.not_mem_nil
  | some (.leaf (.regular bytes)) =>
      cases eq_regular_of_mem_nodeEntries ((h [] (contentOf bytes)).mpr (List.mem_singleton_self _))
  | some (.directory below') =>
      refine ⟨below', rfl, fun path c => ?_⟩
      -- the entry of a directory that nothing is taken of has the empty path
      by_cases hpath : path = []
      · subst hpath
        exact iff_of_false nil_notMem_entries nil_notMem_entries
      · simpa [taken, mem_nodeEntries_directory, hpath] using h path c

/-- A place that nothing is taken of has nothing that a snapshot takes. -/
theorem bind_trackedNode_of_taken_nil {p : Place} (h : taken p = []) : p.bind trackedNode = none := by
  match p with
  | none => rfl
  | some (.leaf (.special what)) => rfl
  | some (.leaf (.regular bytes)) => cases h
  | some (.directory below) => exact absurd h (nodeEntries_directory_ne_nil below)

theorem taken_eq_nil_of {p p' : Place} (h : ∀ path c, (path, c) ∈ taken p ↔ (path, c) ∈ taken p')
    (hnil : taken p = []) : taken p' = [] :=
  List.eq_nil_iff_forall_not_mem.mpr fun e he => by simpa [hnil] using (h e.1 e.2).mpr he

/-- Directories that snapshots take the same of are of one content, as far as it is taken. -/
theorem content_tracked_congr (h : l.Apart) (h' : l'.Apart)
    (hsame : ∀ path c, (path, c) ∈ entries l ↔ (path, c) ∈ entries l') (path : List OsName) :
    (tracked l).content path = (tracked l').content path := by
  induction l using belowRec generalizing l' path with
  | step l ih =>
      cases path with
      | nil => rfl
      | cons name path =>
          rw [content_cons_path, content_cons_path, get_tracked h, get_tracked h']
          cases htracked : trackedName name with
          | none => rfl
          | some n =>
              obtain ⟨rfl, hn⟩ := trackedName_eq_some_iff.mp htracked
              have hplace : ∀ path c, (path, c) ∈ taken (l.get (utf8 n)) ↔ (path, c) ∈ taken (l'.get (utf8 n)) := by
                intro path c
                simpa [mem_entries_iff h, mem_entries_iff h', hn] using hsame (n :: path) c
              rw [Option.bind_some, Option.bind_some]
              match hget : l.get (utf8 n) with
              | some (.leaf (.regular bytes)) =>
                  have hfile := (hplace [] (contentOf bytes)).mp (by rw [hget]; exact List.mem_singleton_self _)
                  cases hget' : l'.get (utf8 n) with
                  | none => simp [hget', taken] at hfile
                  | some node' =>
                      rw [hget'] at hfile
                      rw [eq_regular_of_mem_nodeEntries hfile]
              | some (.directory below) =>
                  rw [hget] at hplace
                  obtain ⟨below', hget', hbelow⟩ := exists_directory hplace
                  rw [hget']
                  exact ih _ below hget (h.get hget) (h'.get hget') hbelow path
              | none =>
                  rw [bind_trackedNode_of_taken_nil (taken_eq_nil_of hplace (by rw [hget]; rfl))]
                  rfl
              | some (.leaf (.special what)) =>
                  rw [bind_trackedNode_of_taken_nil (taken_eq_nil_of hplace (by rw [hget]; rfl))]
                  rfl

/-! ## The paths of a directory -/

/-- A snapshot takes one thing at a path. -/
theorem entries_functional (h : l.Apart) {c' : Content} {names : List Str} (hmem : (names, c) ∈ entries l)
    (hmem' : (names, c') ∈ entries l) : c = c' := by
  induction l using belowRec generalizing names with
  | step l ih =>
      cases names with
      | nil => exact absurd hmem nil_notMem_entries
      | cons n names =>
          obtain ⟨-, hmem⟩ := (mem_entries_iff h).mp hmem
          obtain ⟨-, hmem'⟩ := (mem_entries_iff h).mp hmem'
          match hget : l.get (utf8 n) with
          | none => simp [hget, taken] at hmem
          | some (.leaf (.special what)) => simp [hget, taken, nodeEntries] at hmem
          | some (.leaf (.regular bytes)) =>
              simp only [hget, taken, nodeEntries, List.mem_singleton, Prod.mk.injEq] at hmem hmem'
              rw [hmem.2, hmem'.2]
          | some (.directory below) =>
              rw [hget] at hmem hmem'
              rcases mem_nodeEntries_directory.mp hmem with hbelow | ⟨hnil, rfl, rfl⟩
              · rcases mem_nodeEntries_directory.mp hmem' with hbelow' | ⟨hnil, -, -⟩
                · exact ih _ below hget (h.get hget) hbelow hbelow'
                · simp [hnil] at hbelow
              · rcases mem_nodeEntries_directory.mp hmem' with hbelow' | ⟨-, -, rfl⟩
                · simp [hnil] at hbelow'
                · rfl

variable {sha256 : List UInt8 → ObjectId}

/-- No name on the way to what is taken has a slash in it. -/
theorem slash_notMem_of_mem_entries {t : Tree} (h : l.Apart) (htree : treeOf sha256 l .new = .ok t)
    {names : List Str} (hmem : (names, c) ∈ entries l) : ∀ name ∈ names, '/' ∉ name := by
  induction l using belowRec generalizing names t with
  | step l ih =>
      cases names with
      | nil => exact absurd hmem nil_notMem_entries
      | cons n names =>
          obtain ⟨hn, hmem⟩ := (mem_entries_iff h).mp hmem
          have hholdable := ((treeOf_ok_iff h).mp htree).1 n hn
          match hget : l.get (utf8 n) with
          | none => simp [hget, taken] at hmem
          | some (.leaf (.special what)) => simp [hget, taken, nodeEntries] at hmem
          | some (.leaf (.regular bytes)) =>
              simp only [hget, taken, nodeEntries, List.mem_singleton, Prod.mk.injEq] at hmem
              obtain ⟨-, -, -, hslash, -⟩ : ValidName n := hholdable _ hget
              simp [hmem.1, hslash]
          | some (.directory below) =>
              rw [hget] at hmem
              obtain ⟨⟨-, -, -, hslash, -⟩, subtree, hsubtree⟩ := hholdable _ hget
              refine List.forall_mem_cons.mpr ⟨hslash, ?_⟩
              rcases mem_nodeEntries_directory.mp hmem with hbelow | ⟨-, rfl, -⟩
              · exact ih _ below hget (h.get hget) hsubtree hbelow
              · exact List.forall_mem_nil _

/-- The names on the way are read off a path. -/
theorem splitOn_joined {t : Tree} (h : l.Apart) (htree : treeOf sha256 l .new = .ok t) {names : List Str}
    (hmem : (names, c) ∈ entries l) : (joined names).splitOn '/' = names :=
  List.splitOn_intercalate '/' (slash_notMem_of_mem_entries h htree hmem) fun hnil =>
    nil_notMem_entries (hnil ▸ hmem)

/-- What is taken of a directory is in its files. -/
theorem getElem?_filesOf {t : Tree} (h : l.Apart) (htree : treeOf sha256 l .new = .ok t) {names : List Str}
    (hmem : (names, c) ∈ entries l) : (filesOf l)[joined names]? = some c := by
  obtain ⟨c', hc'⟩ := BTreeMap.exists_getElem?_collect (f := fun e => joined e.1) (g := Prod.snd) hmem
  obtain ⟨⟨names', c''⟩, hmem', hjoined, hc''⟩ := BTreeMap.mem_of_getElem?_collect hc'
  have hnames : names' = names := by
    rw [← splitOn_joined h htree hmem, ← splitOn_joined h htree hmem']
    exact congrArg _ hjoined
  subst hnames hc''
  rw [entries_functional h hmem hmem']
  exact hc'

theorem entries_subset_of_filesOf {t t' : Tree} (h : l.Apart) (h' : l'.Apart) (htree : treeOf sha256 l .new = .ok t)
    (htree' : treeOf sha256 l' .new = .ok t') (hfiles : filesOf l = filesOf l') {names : List Str}
    (hmem : (names, c) ∈ entries l) : (names, c) ∈ entries l' := by
  have hget := getElem?_filesOf h htree hmem
  rw [hfiles] at hget
  obtain ⟨⟨names', c'⟩, hmem', hjoined, hc⟩ := BTreeMap.mem_of_getElem?_collect hget
  have hnames : names' = names := by
    rw [← splitOn_joined h htree hmem, ← splitOn_joined h' htree' hmem']
    exact congrArg _ hjoined
  subst hnames hc
  exact hmem'

/-- The tree of a directory is that of its files and its empty directories. -/
theorem treeOf_filesOf {t t' : Tree} (h : l.Apart) (h' : l'.Apart) (htree : treeOf sha256 l .new = .ok t)
    (htree' : treeOf sha256 l' .new = .ok t') (hfiles : filesOf l = filesOf l') : t = t' := by
  have hsame : ∀ path c, (path, c) ∈ entries l ↔ (path, c) ∈ entries l' := fun path c =>
    ⟨entries_subset_of_filesOf h h' htree htree' hfiles, entries_subset_of_filesOf h' h htree' htree hfiles.symm⟩
  have htracked := treeOf_congr (apart_tracked h) (apart_tracked h')
    (fun n _ path => by rw [← content_cons_path, ← content_cons_path, content_tracked_congr h h' hsame])
    (by rw [treeOf_tracked, htree])
  rw [treeOf_tracked, htree', Except.ok.injEq] at htracked
  exact htracked.symm

/-! ## Ids of trees by their files -/

/-- A function of the files gives the id of the tree of every folder. -/
def IdsTrees (sha256 : List UInt8 → ObjectId) (treeId : Files → ObjectId) : Prop :=
  ∀ (folder : WorkFolder) (t : Tree), treeOf sha256 folder.listing .new = .ok t →
    treeId (filesOf folder.listing) = (Object.tree t).id sha256

/-- There is such a function, whatever the hash. -/
theorem exists_idsTrees (sha256 : List UInt8 → ObjectId) : ∃ treeId, IdsTrees sha256 treeId := by
  classical
  refine ⟨fun files => if h : ∃ t, ∃ folder : WorkFolder, treeOf sha256 folder.listing .new = .ok t ∧
    filesOf folder.listing = files then (Object.tree h.choose).id sha256 else (Object.tree .new).id sha256, ?_⟩
  intro folder t htree
  have h : ∃ t, ∃ folder' : WorkFolder, treeOf sha256 folder'.listing .new = .ok t ∧
      filesOf folder'.listing = filesOf folder.listing := ⟨t, folder, htree, rfl⟩
  obtain ⟨folder', htree', hfiles⟩ := h.choose_spec
  refine (dif_pos h).trans ?_
  rw [treeOf_filesOf folder'.apart folder.apart htree' htree hfiles]

variable {treeId : Files → ObjectId} {dirs : WorkingDirs} {dir : Str} {folder : WorkFolder}

/-- A snapshot of a flat directory gives the id of a snapshot of the folder. -/
theorem IdsTrees.snapshot (hids : IdsTrees sha256 treeId) (hdir : dirs[dir]? = some (filesOf folder.listing))
    {id : ObjectId} {repo repo' : Repository} (h : snapshot sha256 folder.listing repo = (.ok id, repo'))
    (store : Store) : ∃ store', Omoplata.snapshot treeId dirs store dir = .ok (id, store') := by
  obtain ⟨t, htree, rfl, -⟩ := snapshot_eq_ok_iff.mp h
  unfold Omoplata.snapshot Store.write
  rw [hdir, ← hids folder t htree]
  exact ⟨_, rfl⟩

/-- A flat directory is dirty where the folder is. -/
theorem IdsTrees.isDirty (hids : IdsTrees sha256 treeId) (hdir : dirs[dir]? = some (filesOf folder.listing))
    {expected : Option CommitId} {r : Bool × CommitId} {repo repo' : Repository}
    (h : isDirty sha256 folder.listing expected repo = (.ok r, repo')) (store : Store) :
    ∃ store', Omoplata.isDirty treeId dirs store dir expected = .ok (r, store') := by
  have hempty : treeId ∅ = (Object.tree .new).id sha256 := hids ⟨.nil, trivial⟩ .new rfl
  unfold Folder.isDirty at h
  split at h
  · cases h
  · rename_i id repo₁ hsnapshot
    obtain ⟨store₁, hflat⟩ := hids.snapshot hdir hsnapshot store
    unfold Omoplata.isDirty
    rw [hflat]
    cases expected with
    | some tip =>
        cases h
        exact ⟨_, by simp [bind, Except.bind, pure, Except.pure, bne, beq_eq_decide]; rfl⟩
    | none =>
        cases h
        exact ⟨_, by simp [bind, Except.bind, pure, Except.pure, Store.write, bne, beq_eq_decide, hempty]; rfl⟩

/-- A workspace with a flat directory is snapshot as one with the folder: the same commit, and
    the same log behind it. -/
theorem IdsTrees.autoSnapshot (hids : IdsTrees sha256 treeId) {ws : Workspace}
    (hdir : dirs[ws.workingDir]? = some (filesOf folder.listing)) {log log' : OpLog} {r : CommitId × Bool}
    {repo repo' : Repository} (h : autoSnapshot sha256 folder.listing ws log repo = (.ok r, log', repo'))
    (store : Store) : ∃ store', Omoplata.autoSnapshot treeId dirs store log ws = .ok (r, store', log') := by
  unfold Folder.autoSnapshot at h
  simp only at h
  split at h
  · cases h
  · rename_i commit repo₁ hdirty
    obtain ⟨store₁, hflat⟩ := hids.isDirty hdir hdirty store
    split at h
    · cases h
    · rename_i id repo₂ hsnapshot
      obtain ⟨store₂, htree⟩ := hids.snapshot hdir hsnapshot store₁
      cases h
      exact ⟨store₂, by simp [Omoplata.autoSnapshot, bind, Except.bind, pure, Except.pure, hflat, htree]⟩
  · rename_i commit repo₁ hdirty
    obtain ⟨store₁, hflat⟩ := hids.isDirty hdir hdirty store
    cases h
    exact ⟨store₁, by simp [Omoplata.autoSnapshot, bind, Except.bind, pure, Except.pure, hflat]⟩

end Folder

end Omoplata
