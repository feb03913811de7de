-- SUMMARY: Git repositories on disk: their loose and packed objects, their refs, the gate over them, and importing one.
import Mathlib.Data.List.Sort
import Omoplata.Git.Import
import Omoplata.Git.Pack
import Omoplata.Lib.Table
import Omoplata.Store.Path

/-!
# Git repositories

The objects of a repository are loose, each in a file named after its id, or in packs.
Its refs are in files of their own or in one file together. A path is the git directory
itself, or the worktree that has it under `.git`.
-/

open FileSystem

namespace Omoplata

/-- Sort by a key. -/
def sortByKey {α β : Type} [Ord β] (key : α → β) (l : List α) : List α :=
  l.insertionSort fun a b => (compare (key a) (key b)).isLE

theorem perm_sortByKey {α β : Type} [Ord β] (key : α → β) (l : List α) : (sortByKey key l).Perm l :=
  List.perm_insertionSort _ l

/-- A disk with git repositories. -/
abbrev GitDisk := Table Str (List UInt8)

instance : Std.TransOrd (List Str) := List.instTransOrd

namespace GitDisk

/-- The bytes of a file. -/
def read (fs : GitDisk) (loc : List Str) : Except GitError (List UInt8) :=
  match fs[loc]? with
  | some (.file bytes) => .ok bytes
  | _ => .error (.io (loc.map .down))

/-- The names in a directory, or nothing where it is not there. -/
def list (fs : GitDisk) (dir : List Str) : Except GitError (List Str) :=
  match fs[dir]? with
  | none => .ok []
  | some .directory => .ok (fs.readDir dir)
  | some (.file _) => .error (.io (dir.map .down))

/-- The text of a file, or nothing where it is not there. -/
def readText (fs : GitDisk) (loc : List Str) : Except GitError (Option Str) :=
  match fs[loc]? with
  | none => .ok none
  | some .directory => .error (.io (loc.map .down))
  | some (.file bytes) =>
      match fromUtf8 bytes with
      | some text => .ok (some text)
      | none => .error (.io (loc.map .down))

/-- How deep locations go. -/
def depth (fs : GitDisk) : Nat := (fs.keys.map List.length).foldr max 0

end GitDisk

/-! ## Loose objects -/

def objectsDir (gitDir : List Str) : List Str := gitDir ++ ["objects".toList]

def isHexDigit (c : Char) : Bool := ('0' ≤ c ∧ c ≤ '9') ∨ ('a' ≤ c ∧ c ≤ 'f') ∨ ('A' ≤ c ∧ c ≤ 'F')

/-- A name of so many hexadecimal digits. -/
def isHexName (n : Nat) (name : Str) : Bool := name.length = n ∧ name.all isHexDigit

/-- The id that the path of a loose object stands for. -/
def oidFromLoosePath (path : List Str) : Except GitError GitOid :=
  match path.getLast?, path.dropLast.getLast? with
  | some file, some dir =>
      if (utf8 dir).length ≠ 2 ∨ (utf8 file).length ≠ 38 then .error (.badLoosePath path)
      else (GitOid.fromHex (dir ++ file)).mapError fun _ => .badLoosePath path
  | _, _ => .error (.badLoosePath path)

/-- The directory of the loose objects with an id's first byte. -/
def looseShard (gitDir : List Str) (oid : GitOid) : List Str := objectsDir gitDir ++ [oid.hex.take 2]

/-- The name of a loose object in there. -/
def looseName (oid : GitOid) : Str := oid.hex.drop 2

section

variable (sha1 : List UInt8 → GitOid) (inflate : Inflate)

/-- Read a loose object, and compare its hash with its path. -/
def readLoose (fs : GitDisk) (path : List Str) : Except GitError (GitOid × GitObject) := do
  let raw ← fs.read path
  let inflated ← Pack.inflateAt inflate raw
  let object ← GitObject.decode inflated
  let expected ← oidFromLoosePath path
  if sha1 inflated ≠ expected then .error (.oidMismatch expected.hex (sha1 inflated).hex)
  else .ok (sha1 inflated, object)

/-- The loose objects in a directory of them. -/
def walkShard (fs : GitDisk) (shard : List Str) : Except GitError (List (GitOid × GitObject)) :=
  match fs[shard]? with
  | some .directory =>
      ((fs.readDir shard).filter (isHexName 38)).mapM fun name => readLoose sha1 inflate fs (shard ++ [name])
  | _ => .error (.io (shard.map .down))

def walkLoose (fs : GitDisk) (gitDir : List Str) : Except GitError (List (GitOid × GitObject)) := do
  let shards ← fs.list (objectsDir gitDir)
  let found ← (shards.filter (isHexName 2)).mapM fun name => walkShard sha1 inflate fs (objectsDir gitDir ++ [name])
  .ok found.flatten

/-! ## Packs -/

def packDir (gitDir : List Str) : List Str := objectsDir gitDir ++ ["pack".toList]

/-- A file name without its extension, and the extension. -/
def splitExtension (name : Str) : Str × Option Str :=
  match rfindChar '.' name with
  | none => (name, none)
  | some 0 => (name, none)
  | some (i + 1) => if name = ['.', '.'] then (name, none) else (name.take (i + 1), some (name.drop (i + 2)))

def isPackName (name : Str) : Bool := (splitExtension name).2 = some "pack".toList

/-- The names of the packs, sorted. -/
def packPaths (fs : GitDisk) (gitDir : List Str) : Except GitError (List Str) :=
  (fs.list (packDir gitDir)).map fun names =>
    sortByKey id (names.filter isPackName)

/-- Read a pack with the index beside it. -/
def readPackFile (fs : GitDisk) (dir : List Str) (name : Str) : Except GitError (List (GitOid × GitObject)) := do
  let idx ← fs.read (dir ++ [(splitExtension name).1 ++ ".idx".toList])
  let pack ← fs.read (dir ++ [name])
  Pack.readPack sha1 inflate idx pack

def readAllPacks (fs : GitDisk) (gitDir : List Str) : Except GitError (List (GitOid × GitObject)) := do
  let packs ← packPaths fs gitDir
  let found ← packs.mapM (readPackFile sha1 inflate fs (packDir gitDir))
  .ok found.flatten

/-- How many packs there are. -/
def packFileCount (fs : GitDisk) (gitDir : List Str) : Nat :=
  match fs.list (packDir gitDir) with
  | .ok names => (names.filter isPackName).length
  | .error _ => 0

end

/-! ## Refs -/

/-- What a ref file says. -/
inductive RawRef where
  | oid (oid : GitOid)
  | symbolic (target : Str)
  deriving DecidableEq

def parseRefContent (name content : Str) : Except GitError RawRef :=
  let content := trim content
  if "ref:".toList.isPrefixOf content then .ok (.symbolic (trim (content.drop 4)))
  else
    match GitOid.fromHex content with
    | .ok oid => .ok (.oid oid)
    | .error _ => .error (.badRef name "not a 40-hex oid or a `ref:` symref".toList)

/-- A line of `packed-refs`, unless it is a comment or says what a tag leads to. -/
def readPackedRef (line : Str) (raw : BTreeMap Str RawRef) : Except GitError (BTreeMap Str RawRef) :=
  if line = [] ∨ line.head? = some '#' ∨ line.head? = some '^' then .ok raw
  else
    match splitOnce ' ' line with
    | none => .error (.badRef line "packed-refs line is not `<oid> <refname>`".toList)
    | some (oid, name) =>
        match GitOid.fromHex (trim oid) with
        | .ok oid => .ok (raw.insert (trim name) (.oid oid))
        | .error _ => .error (.badRef (trim name) "packed-refs oid is not 40-hex".toList)

def readPackedRefs (fs : GitDisk) (gitDir : List Str) (raw : BTreeMap Str RawRef) :
    Except GitError (BTreeMap Str RawRef) := do
  match ← fs.readText (gitDir ++ ["packed-refs".toList]) with
  | none => .ok raw
  | some content => (textLines content).foldlM (fun raw line => readPackedRef line raw) raw

/-- The name of the ref at a path below `refs`. -/
def refName (path : List Str) : Str := "refs".toList ++ path.flatMap ('/' :: ·)

/-- Read the refs below a directory, at most so deep. -/
def readLooseRefs (fs : GitDisk) (root : List Str) :
    Nat → List Str → BTreeMap Str RawRef → Except GitError (BTreeMap Str RawRef)
  | 0, _, raw => .ok raw
  | depth + 1, below, raw => do
      let names ← fs.list (root ++ below)
      names.foldlM (fun raw name =>
        match (fs[root ++ below ++ [name]]? : Option (Entry (List UInt8))) with
        | some .directory => readLooseRefs fs root depth (below ++ [name]) raw
        | _ => do
            match ← fs.readText (root ++ below ++ [name]) with
            | none => .error (.io ((root ++ below ++ [name]).map .down))
            | some content =>
                let name := refName (below ++ [name])
                let ref ← parseRefContent name content
                .ok (raw.insert name ref)) raw

def readHead (fs : GitDisk) (gitDir : List Str) (raw : BTreeMap Str RawRef) :
    Except GitError (BTreeMap Str RawRef) := do
  match ← fs.readText (gitDir ++ ["HEAD".toList]) with
  | none => .ok raw
  | some content =>
      let ref ← parseRefContent "HEAD".toList content
      .ok (raw.insert "HEAD".toList ref)

/-- Follow a ref to an id, through at most so many refs. -/
def resolveRef (raw : BTreeMap Str RawRef) : Nat → Str → Except GitError (Option GitOid)
  | 0, name => .error (.badRef name "symbolic ref chain too deep (possible cycle)".toList)
  | left + 1, name =>
      match raw[name]? with
      | some (.oid oid) => .ok (some oid)
      | some (.symbolic target) => resolveRef raw left target
      | none => .ok none

/-- The refs that lead to an id, sorted by name. -/
def readRefs (fs : GitDisk) (gitDir : List Str) : Except GitError (List (Str × GitOid)) := do
  let raw ← readPackedRefs fs gitDir ∅
  let raw ← readLooseRefs fs (gitDir ++ ["refs".toList]) (fs.depth + 1) [] raw
  let raw ← readHead fs gitDir raw
  let out ← raw.keys.mapM fun name => (resolveRef raw 9 name).map fun oid => oid.map fun oid => (name, oid)
  .ok (sortByKey Prod.fst (out.filterMap id))

/-! ## Git directories -/

/-- Whether a location looks like a git directory. -/
def looksLikeGitDir (fs : GitDisk) (path : List Str) : Bool :=
  let hasObjects := fs[objectsDir path]? = some .directory
  let hasRefs := fs[path ++ ["refs".toList]]? = some .directory
  let hasHead := (fs.read (path ++ ["HEAD".toList])).isOk
  hasObjects && (hasRefs || hasHead)

def resolveGitDir (fs : GitDisk) (path : List Str) : Except GitError (List Str) :=
  match fs[path ++ [".git".toList]]? with
  | some .directory => .ok (path ++ [".git".toList])
  | some (.file _) => .error (.notARepository path)
  | none => if looksLikeGitDir fs path then .ok path else .error (.notARepository path)

/-! ## The gate -/

/-- How many objects of each type passed the gate, and how many packs there are. -/
structure GitReport where
  blobs : Nat
  trees : Nat
  commits : Nat
  tags : Nat
  packfiles : Nat

def GitReport.total (r : GitReport) : Nat := r.blobs + r.trees + r.commits + r.tags

def GitReport.tally (r : GitReport) : GitObject → GitReport
  | .blob _ => { r with blobs := r.blobs + 1 }
  | .tree _ => { r with trees := r.trees + 1 }
  | .commit _ => { r with commits := r.commits + 1 }
  | .tag _ => { r with tags := r.tags + 1 }

section

variable (sha1 : List UInt8 → GitOid) (inflate : Inflate)

/-- Put objects through the gate. -/
def gateAll : List (GitOid × GitObject) → GitReport → Except GitError GitReport
  | [], report => .ok report
  | (oid, object) :: found, report => do
      let gated ← roundtripOk sha1 object.encode
      if gated ≠ oid then .error (.oidMismatch oid.hex gated.hex)
      else gateAll found (report.tally object)

def verifyRepo (fs : GitDisk) (path : List Str) : Except GitError GitReport := do
  let gitDir ← resolveGitDir fs path
  let loose ← walkLoose sha1 inflate fs gitDir
  let report ← gateAll sha1 loose ⟨0, 0, 0, 0, packFileCount fs gitDir⟩
  let packed ← readAllPacks sha1 inflate fs gitDir
  let report ← gateAll sha1 packed report
  if report.total = 0 ∧ report.packfiles = 0 then .error (.emptyRepository path) else .ok report

/-! ## Importing a repository -/

/-- Objects by their ids. A packed object does not replace a loose one. -/
def mergeObjects (loose packed : List (GitOid × GitObject)) : GitObjects :=
  packed.foldl (fun m e => if e.1 ∈ m then m else m.insert e.1 e.2) (loose.foldl (fun m e => m.insert e.1 e.2) ∅)

/-- The loose and packed objects of a git directory. -/
def storedObjects (fs : GitDisk) (gitDir : List Str) : Except GitError GitObjects := do
  let loose ← walkLoose sha1 inflate fs gitDir
  let packed ← readAllPacks sha1 inflate fs gitDir
  .ok (mergeObjects loose packed)

variable (sha256 : List UInt8 → ObjectId)

def importRepo (depth turns : Nat) (fs : GitDisk) (path : List Str) (repo : Repository) :
    Except ImportStop (GitImport × Repository) := do
  let gitDir ← (resolveGitDir fs path).mapError .failed
  let _ ← (verifyRepo sha1 inflate fs gitDir).mapError .failed
  let objects ← (storedObjects sha1 inflate fs gitDir).mapError .failed
  let refs ← (readRefs fs gitDir).mapError .failed
  if refs = [] then .error (.failed (.emptyRepository path))
  else do
    let (made, repo) ← importObjects sha1 sha256 objects depth turns refs repo
    if made.commits + made.trees + made.blobs + made.tags = 0 then .error (.failed (.emptyRepository path))
    else .ok (made, repo)

end

end Omoplata
