-- SUMMARY: Working directories with all their entries: snapshots of them and checkouts into them.
import Omoplata.Identity
import Omoplata.Lib.Listing
import Omoplata.Work.Checkout
import Omoplata.Work.Workspace

/-!
# Folders

A working directory lists files, directories and entries of other kinds, links among them,
under names that need not be text. A snapshot stores what a tree can hold of it and passes
over the rest: other kinds, names that are not UTF-8, and control names at every level. A
checkout removes everything but the control entries at the top.

What an entry of another kind leads to is not modelled, so a checkout that would write
through one ends there, with an error of its own.
-/

open Listing

namespace Omoplata

/-- A name as a directory has it. -/
abbrev OsName := List UInt8

/-- An entry that is not a directory: a file, or something of another kind. -/
inductive Leaf where
  | regular (bytes : List UInt8)
  | special (what : List UInt8)
  deriving DecidableEq

/-- What a working directory lists. -/
abbrev WorkListing := Listing OsName Leaf

/-- A working directory. -/
abbrev WorkFolder := Listing.Folder OsName Leaf

/-- What stands at a path of the machine, if anything does. -/
abbrev Place := Option (Node OsName Leaf)

/-- Why a snapshot or a checkout of a folder fails. -/
inductive FolderError where
  | store (e : StoreError)
  | content (reason : Str)
  | entryName (name : Str) (e : ObjectError)
  | io (path : List Str)
  | special (path : List Str)
  | panicked (p : Panic)
  | unfinished
  deriving DecidableEq

/-- A control name that a checkout leaves alone. -/
def isControlName (name : OsName) : Bool :=
  match fromUtf8 name with
  | some n => controlNames.contains n
  | none => false

/-- A name as a tree entry has it, unless a snapshot passes over it. -/
def trackedName (name : OsName) : Option Str :=
  match fromUtf8 name with
  | some n => if controlNames.contains n then none else some n
  | none => none

namespace Folder

/-- The check of a tree on the name of an entry. -/
def insertNamed (t : Tree) (name : Str) (kind : EntryKind) (id : ObjectId) : Except FolderError Tree :=
  (t.insert name kind id).mapError (.entryName name)

section

variable (sha256 : List UInt8 → ObjectId)

/-! ## Snapshots -/

/-- The loop of a snapshot over the entries of a directory, with the tree so far. -/
def snapshotTree : WorkListing → Tree → Repository → Except FolderError Tree × Repository
  | .nil, t, repo => (.ok t, repo)
  | .leaf name (.regular bytes) rest, t, repo =>
      match trackedName name with
      | none => snapshotTree rest t repo
      | some n =>
          let (id, repo) := repo.writeBlob sha256 bytes
          match insertNamed t n .blob id with
          | .error e => (.error e, repo)
          | .ok t => snapshotTree rest t repo
  | .leaf _ (.special _) rest, t, repo => snapshotTree rest t repo
  | .directory name below rest, t, repo =>
      match trackedName name with
      | none => snapshotTree rest t repo
      | some n =>
          match snapshotTree below .new repo with
          | (.error e, repo) => (.error e, repo)
          | (.ok subtree, repo) =>
              let (id, repo) := repo.writeObject sha256 (.tree subtree)
              match insertNamed t n .tree id with
              | .error e => (.error e, repo)
              | .ok t => snapshotTree rest t repo

/-- Store the tree of a directory. -/
def snapshot (l : WorkListing) (repo : Repository) : Except FolderError ObjectId × Repository :=
  match snapshotTree sha256 l .new repo with
  | (.error e, repo) => (.error e, repo)
  | (.ok t, repo) =>
      let (id, repo) := repo.writeObject sha256 (.tree t)
      (.ok id, repo)

/-- Whether a directory differs from the tip it is expected at, with the commit its snapshot
    gives. Without a tip it is expected to be empty. -/
def isDirty (l : WorkListing) (expected : Option CommitId) (repo : Repository) :
    Except FolderError (Bool × CommitId) × Repository :=
  match snapshot sha256 l repo with
  | (.error e, repo) => (.error e, repo)
  | (.ok id, repo) =>
      match expected with
      | some tip => (.ok (id.toText != tip, id.toText), repo)
      | none =>
          let (empty, repo) := repo.writeObject sha256 (.tree .new)
          (.ok (id.toText != empty.toText, id.toText), repo)

/-- Snapshot the directory of a workspace into a new commit of its change, if it is dirty. -/
def autoSnapshot (l : WorkListing) (ws : Workspace) (log : OpLog) (repo : Repository) :
    Except FolderError (CommitId × Bool) × OpLog × Repository :=
  let currentTip := log.refsNow[ws.change]?
  match isDirty sha256 l currentTip repo with
  | (.error e, repo) => (.error e, log, repo)
  | (.ok (true, _), repo) =>
      match snapshot sha256 l repo with
      | (.error e, repo) => (.error e, log, repo)
      | (.ok tree, repo) =>
          let newCommit := tree.toText
          let msg := "auto-snapshot workspace ".toList ++ ws.name
          (.ok (newCommit, true),
            log.append (.commit ws.name ws.change newCommit currentTip (some msg)) (some msg) nofun, repo)
  | (.ok (false, currentCommit), repo) => (.ok (currentCommit, false), log, repo)

/-! ## Checkouts -/

/-- Read an object that has to be a tree. -/
def openTree (repo : Repository) (id : ObjectId) : Except FolderError Tree :=
  match repo.readObject sha256 id with
  | .error p => .error (.panicked p)
  | .ok (.error e) => .error (.store e)
  | .ok (.ok (.blob _)) => .error (.content (notTreeText id))
  | .ok (.ok (.tree t)) => .ok t

/-- Read the object of an entry that has to be a blob. -/
def openBlob (repo : Repository) (e : TreeEntry) : Except FolderError (List UInt8) :=
  match repo.readObject sha256 e.id with
  | .error p => .error (.panicked p)
  | .ok (.error err) => .error (.store err)
  | .ok (.ok (.tree _)) => .error (.content (notBlobText e.name))
  | .ok (.ok (.blob bytes)) => .ok bytes

/-- Write a file to a place. -/
def writeFile (path : List Str) (bytes : List UInt8) : Place → Except FolderError Place
  | some (.directory _) => .error (.io path)
  | some (.leaf (.special _)) => .error (.special path)
  | _ => .ok (some (.leaf (.regular bytes)))

/-- The entries of the directory at a place, which is made where nothing is. -/
def makeDirectory (path : List Str) : Place → Except FolderError WorkListing
  | none => .ok .nil
  | some (.directory l) => .ok l
  | some (.leaf (.regular _)) => .error (.io path)
  | some (.leaf (.special _)) => .error (.special path)

/-- What a directory has under a name is from now on this. -/
def setPlace (l : WorkListing) (name : OsName) : Place → WorkListing
  | none => l
  | some node => l.put name node

variable (repo : Repository)

/-- Write an entry of a tree to its place; `writeTree` writes a subtree. -/
def writeEntry (writeTree : ObjectId → List Str → Place → Except FolderError Unit × Place) (path : List Str)
    (e : TreeEntry) (place : Place) : Except FolderError Unit × Place :=
  match e.kind with
  | .blob =>
      match openBlob sha256 repo e with
      | .error err => (.error err, place)
      | .ok bytes =>
          match writeFile path bytes place with
          | .error err => (.error err, place)
          | .ok place => (.ok (), place)
  | .tree => writeTree e.id path place

/-- The loop over the entries of a tree. -/
def writeEntries (writeTree : ObjectId → List Str → Place → Except FolderError Unit × Place) (path : List Str) :
    List TreeEntry → WorkListing → Except FolderError Unit × WorkListing
  | [], l => (.ok (), l)
  | e :: entries, l =>
      match writeEntry sha256 repo writeTree (path ++ [e.name]) e (l.get (utf8 e.name)) with
      | (.error err, place) => (.error err, setPlace l (utf8 e.name) place)
      | (.ok (), place) => writeEntries writeTree path entries (setPlace l (utf8 e.name) place)

/-- Write a tree to a place. -/
def writeTreeInto : Nat → ObjectId → List Str → Place → Except FolderError Unit × Place
  | 0, _, _, place => (.error .unfinished, place)
  | fuel + 1, id, path, place =>
      match openTree sha256 repo id with
      | .error e => (.error e, place)
      | .ok t =>
          match makeDirectory path place with
          | .error e => (.error e, place)
          | .ok l =>
              let (r, l) := writeEntries sha256 repo (writeTreeInto fuel) path t.entries l
              (r, some (.directory l))

/-- Remove the entries of a directory, its control entries apart. -/
def removeWorkingContent : Place → Except FolderError Place
  | none => .ok none
  | some (.directory l) => .ok (some (.directory (l.filter isControlName)))
  | some (.leaf _) => .error (.io [])

/-- Check a tree out into a directory. -/
def materialize (fuel : Nat) (id : ObjectId) (dir : Place) : Except FolderError Unit × Place :=
  match removeWorkingContent dir with
  | .error e => (.error e, dir)
  | .ok dir => writeTreeInto sha256 repo fuel id [] dir

end

end Folder

end Omoplata
