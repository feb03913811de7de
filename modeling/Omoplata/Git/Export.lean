-- SUMMARY: Exporting an import as loose objects and refs, and comparing the objects with those of its source.
import Omoplata.Git.Repo

/-!
# Exporting

An export writes every object of an import as a loose object, and every ref as a file at
its name. The export is compared with the source object by object, loose and packed ones,
in their byte form before compression.
-/

open Codec FileSystem

namespace Omoplata

/-- What an export wrote. -/
structure GitExport where
  outDir : List Str
  objects : Nat
  refs : Nat
  deriving DecidableEq

section

variable (sha1 : List UInt8 → GitOid) (deflate : List UInt8 → List UInt8)

/-- Write an object as a loose one, at the path of its id. -/
def writeLoose (fs : GitDisk) (outDir : List Str) (object : GitObject) : Except GitError GitOid × GitDisk :=
  let encoded := object.encode
  let oid := sha1 encoded
  match fs.put ((looseShard outDir oid).map .down) (looseName oid) (deflate encoded) with
  | none => (.error (.io ((looseShard outDir oid ++ [looseName oid]).map .down)), fs)
  | some fs => (.ok oid, fs)

/-- Write a ref to a file at its name. -/
def writeRef (fs : GitDisk) (outDir : List Str) (name : Str) (oid : GitOid) : Except GitError Unit × GitDisk :=
  let path := outDir.map .down ++ stepsOf name
  let written := match stepOf ((name.splitOn '/').getLastD []) with
    | some (.down last) =>
        if representable (stepsOf name) then fs.put path.dropLast last (utf8 (oid.hex ++ ['\n'])) else none
    | _ => none
  match written with
  | none => (.error (.io path), fs)
  | some fs => (.ok (), fs)

def exportObjects (outDir : List Str) :
    List (GitOid × GitObject) → Nat → GitDisk → Except GitError Nat × GitDisk
  | [], objects, fs => (.ok objects, fs)
  | (oid, object) :: ordered, objects, fs =>
      match writeLoose sha1 deflate fs outDir object with
      | (.error e, fs) => (.error e, fs)
      | (.ok written, fs) =>
          if written ≠ oid then (.error (.oidMismatch oid.hex written.hex), fs)
          else exportObjects outDir ordered (objects + 1) fs

def exportRefs (outDir : List Str) : List (Str × GitOid) → Nat → GitDisk → Except GitError Nat × GitDisk
  | [], refs, fs => (.ok refs, fs)
  | (name, oid) :: rest, refs, fs =>
      match writeRef fs outDir name oid with
      | (.error e, fs) => (.error e, fs)
      | (.ok _, fs) => exportRefs outDir rest (refs + 1) fs

/-- The objects of an import, sorted by id. -/
def GitImport.ordered (made : GitImport) : List (GitOid × GitObject) :=
  sortByKey (fun e => e.1.hex) made.gitObjects.toList

/-- Write the objects of an import, and then its refs. -/
def exportRepo (made : GitImport) (outDir : List Str) (fs : GitDisk) : Except GitError GitExport × GitDisk :=
  match exportObjects sha1 deflate outDir made.ordered 0 fs with
  | (.error e, fs) => (.error e, fs)
  | (.ok objects, fs) =>
      match exportRefs outDir made.refs 0 fs with
      | (.error e, fs) => (.error e, fs)
      | (.ok refs, fs) => (.ok ⟨outDir, objects, refs⟩, fs)

end

section

variable (sha1 : List UInt8 → GitOid) (inflate : Inflate)

/-- The byte forms of objects by the text of their ids. A packed object does not replace a loose one. -/
def mergeBytes (loose packed : List (GitOid × GitObject)) : BTreeMap Str (List UInt8) :=
  packed.foldl (fun m e => if e.1.hex ∈ m then m else m.insert e.1.hex e.2.encode)
    (loose.foldl (fun m e => m.insert e.1.hex e.2.encode) ∅)

/-- The byte form of every object of a git directory. -/
def allObjectBytes (fs : GitDisk) (gitDir : List Str) : Except GitError (BTreeMap Str (List UInt8)) := do
  let loose ← walkLoose sha1 inflate fs gitDir
  let packed ← readAllPacks sha1 inflate fs gitDir
  .ok (mergeBytes loose packed)

/-- Whether an export has the same objects as its source, with the same bytes. -/
def exportMatchesSource (fs : GitDisk) (gitDir outDir : List Str) : Except GitError Bool := do
  let source ← allObjectBytes sha1 inflate fs gitDir
  let exported ← allObjectBytes sha1 inflate fs outDir
  .ok (decide (source.toList = exported.toList))

end

end Omoplata
