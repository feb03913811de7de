-- SUMMARY: Packfiles: their index, entries and deltas, and decoding them with an index and without one.
import Omoplata.Git.Object

/-!
# Packfiles

A packfile holds its objects one after the other, whole or as deltas on other objects,
which are named by how far back they are or by their id. With an index the ids are known
at once. Without one each entry has to be read to find the next, and a delta on an id
waits until an object of that id has been read.

Inflating a zlib stream is a parameter: what the stream at the front of some bytes holds,
and how many bytes it takes up.
-/

open Codec

namespace Omoplata

/-- What the stream at the front of some bytes holds, and how many bytes it takes up. -/
abbrev Inflate := List UInt8 → Except Str (List UInt8 × Nat)

namespace Pack

def maxDeltaDepth : Nat := 200

def maxObjectSize : Nat := 2 ^ 34

def objCommit : Nat := 1
def objTree : Nat := 2
def objBlob : Nat := 3
def objTag : Nat := 4
def objOfsDelta : Nat := 6
def objRefDelta : Nat := 7

/-! ## Numbers -/

/-- Shift in 64 bits, by less than 64. -/
def checkedShl (v shift : Nat) : Option Nat := if shift < 64 then some (v <<< shift % 2 ^ 64) else none

def takeByte : List UInt8 → Except GitError (UInt8 × List UInt8)
  | [] => .error (.pack "packfile: unexpected end of data".toList)
  | b :: rest => .ok (b, rest)

/-- Four bytes, the most significant first. -/
def readBeU32 (data : List UInt8) (pos : Nat) : Except GitError Nat :=
  if pos + 4 ≤ data.length then .ok (((data.drop pos).take 4).foldl (fun n b => n * 256 + b.toNat) 0)
  else .error (.pack "read past end (u32)".toList)

/-- Eight bytes, the most significant first. -/
def readBeU64 (data : List UInt8) (pos : Nat) : Except GitError Nat :=
  if pos + 8 ≤ data.length then .ok (((data.drop pos).take 8).foldl (fun n b => n * 256 + b.toNat) 0)
  else .error (.pack "read past end (u64)".toList)

/-- The bytes of a size behind the first one of a header. -/
def readSizeRest (size shift : Nat) : List UInt8 → Except GitError (Nat × List UInt8)
  | [] => .error (.pack "packfile: unexpected end of data".toList)
  | c :: rest =>
      match checkedShl (c.toNat % 128) shift with
      | none => .error (.pack "packfile: size varint overflow".toList)
      | some bits =>
          let size := size ||| bits
          if size > maxObjectSize then .error (.pack "packfile: object size exceeds limit".toList)
          else if c.toNat ≥ 128 then readSizeRest size (shift + 7) rest
          else .ok (size, rest)

/-- The type and the size of an entry. -/
def readEntryHeader : List UInt8 → Except GitError ((Nat × Nat) × List UInt8)
  | [] => .error (.pack "packfile: unexpected end of data".toList)
  | c :: rest =>
      let typeId := c.toNat / 16 % 8
      let size := c.toNat % 16
      if c.toNat ≥ 128 then (readSizeRest size 4 rest).map fun (size, rest) => ((typeId, size), rest)
      else .ok ((typeId, size), rest)

/-- The bytes of a back-offset behind its first one. -/
def readOffsetRest (off : Nat) : List UInt8 → Except GitError (Nat × List UInt8)
  | [] => .error (.pack "packfile: unexpected end of data".toList)
  | c :: rest =>
      if off + 1 ≥ 2 ^ 64 then .error (.pack "packfile: ofs-delta offset overflow".toList)
      else
        let off := (off + 1) <<< 7 % 2 ^ 64 ||| c.toNat % 128
        if c.toNat ≥ 128 then readOffsetRest off rest else .ok (off, rest)

/-- How far back the base of a delta is. -/
def readOfsDeltaOffset : List UInt8 → Except GitError (Nat × List UInt8)
  | [] => .error (.pack "packfile: unexpected end of data".toList)
  | c :: rest => if c.toNat ≥ 128 then readOffsetRest (c.toNat % 128) rest else .ok (c.toNat % 128, rest)

/-- A size in front of a delta, as far as it has been read. -/
def readDeltaSizeFrom (size shift : Nat) : List UInt8 → Except GitError (Nat × List UInt8)
  | [] => .error (.pack "packfile: unexpected end of data".toList)
  | c :: rest =>
      match checkedShl (c.toNat % 128) shift with
      | none => .error (.pack "packfile: delta size varint overflow".toList)
      | some bits =>
          let size := size ||| bits
          if c.toNat < 128 then .ok (size, rest)
          else if size > maxObjectSize then .error (.pack "packfile: delta size exceeds limit".toList)
          else readDeltaSizeFrom size (shift + 7) rest

def readDeltaSize : List UInt8 → Except GitError (Nat × List UInt8) := readDeltaSizeFrom 0 0

/-! ## Deltas -/

/-- A number of the bytes that the bits of an opcode select, each shifted to its place. -/
def readSelected (opcode : UInt8) : List (Nat × Nat) → Nat → List UInt8 → Except GitError (Nat × List UInt8)
  | [], v, bytes => .ok (v, bytes)
  | (bit, shift) :: places, v, bytes =>
      if opcode.toNat.testBit bit then do
        let (b, bytes) ← takeByte bytes
        readSelected opcode places (v ||| b.toNat <<< shift) bytes
      else readSelected opcode places v bytes

/-- A range of the base. No size at all stands for 64 KiB. -/
def copyRange (base : List UInt8) (cpOff cpSize : Nat) : Except GitError (List UInt8) :=
  let cpSize := if cpSize = 0 then 0x10000 else cpSize
  if cpOff + cpSize ≤ base.length then .ok ((base.drop cpOff).take cpSize)
  else .error (.pack "delta: copy range out of base bounds".toList)

/-- The part of the target that an instruction gives: a range of the base, or bytes of its own. -/
def readInstruction (base : List UInt8) : List UInt8 → Except GitError (List UInt8 × List UInt8)
  | [] => .error (.pack "packfile: unexpected end of data".toList)
  | opcode :: rest =>
      if opcode.toNat ≥ 128 then do
        let (cpOff, rest) ← readSelected opcode [(0, 0), (1, 8), (2, 16), (3, 24)] 0 rest
        let (cpSize, rest) ← readSelected opcode [(4, 0), (5, 8), (6, 16)] 0 rest
        let chunk ← copyRange base cpOff cpSize
        .ok (chunk, rest)
      else if opcode ≠ 0 then
        if opcode.toNat ≤ rest.length then .ok (rest.take opcode.toNat, rest.drop opcode.toNat)
        else .error (.pack "delta: insert runs past end of stream".toList)
      else .error (.pack "delta: reserved opcode 0".toList)

theorem length_readSelected {opcode : UInt8} {places : List (Nat × Nat)} {v : Nat} {bytes : List UInt8}
    {r : Nat × List UInt8} (h : readSelected opcode places v bytes = .ok r) : r.2.length ≤ bytes.length := by
  induction places generalizing v bytes with
  | nil => exact Except.ok.inj h ▸ le_rfl
  | cons place places ih =>
      unfold readSelected at h
      split at h
      · obtain ⟨⟨b, rest⟩, hbyte, h⟩ := bind_eq_ok.mp h
        cases bytes with
        | nil => cases hbyte
        | cons c bytes =>
            cases hbyte
            exact (ih h).trans (Nat.le_succ _)
      · exact ih h

theorem readInstruction_shorter (base l x rest : List UInt8) (h : readInstruction base l = .ok (x, rest)) :
    rest.length < l.length := by
  cases l with
  | nil => cases h
  | cons opcode l =>
      rw [List.length_cons, Nat.lt_succ_iff]
      rw [readInstruction] at h
      split at h
      · obtain ⟨off, hoff, h⟩ := bind_eq_ok.mp h
        obtain ⟨size, hsize, h⟩ := bind_eq_ok.mp h
        obtain ⟨chunk, -, h⟩ := bind_eq_ok.mp h
        cases h
        exact (length_readSelected hsize).trans (length_readSelected hoff)
      · split at h
        · split at h
          · cases h
            rw [List.length_drop]
            exact Nat.sub_le _ _
          · cases h
        · cases h

/-- Reads the instructions of a delta on a base. -/
def instructions (base : List UInt8) : Reader UInt8 (List UInt8) GitError :=
  ⟨readInstruction base, readInstruction_shorter base⟩

/-- Apply a delta to its base. -/
def applyDelta (base delta : List UInt8) : Except GitError (List UInt8) := do
  let (srcSize, rest) ← readDeltaSize delta
  if srcSize ≠ base.length then .error (.pack "delta: source size does not match base".toList)
  else do
    let (tgtSize, rest) ← readDeltaSize rest
    if tgtSize > maxObjectSize then .error (.pack "delta: target size exceeds limit".toList)
    else do
      let parts ← (instructions base).all rest
      if parts.flatten.length ≠ tgtSize then
        .error (.pack "delta: reconstructed size does not match target".toList)
      else .ok parts.flatten

/-! ## Entries -/

/-- An entry before its delta is resolved. -/
inductive RawEntry where
  | base (typeId : Nat) (data : List UInt8)
  | ofsDelta (baseOffset : Nat) (delta : List UInt8)
  | refDelta (baseOid : GitOid) (delta : List UInt8)
  deriving DecidableEq

/-- The object count of a packfile. -/
def parsePackHeader (bytes : List UInt8) : Except GitError Nat :=
  if bytes.length < 12 ∨ bytes.take 4 ≠ utf8 "PACK".toList then .error (.pack "packfile: bad magic".toList)
  else do
    let version ← readBeU32 bytes 4
    if version ≠ 2 ∧ version ≠ 3 then
      .error (.pack "packfile: unsupported version (expected 2 or 3)".toList)
    else readBeU32 bytes 8

theorem length_take_oid {bytes : List UInt8} (h : 20 ≤ bytes.length) : (bytes.take 20).length = 20 :=
  List.length_take_of_le h

/-- The id in front of a delta on an object. -/
def readBaseOid (bytes : List UInt8) : Except GitError (GitOid × List UInt8) :=
  if h : 20 ≤ bytes.length then .ok (⟨bytes.take 20, length_take_oid h⟩, bytes.drop 20)
  else .error (.pack "packfile: truncated ref-delta base oid".toList)

/-- The type of the entry at an offset. -/
def peekType (pack : List UInt8) (offset : Nat) : Except GitError Nat :=
  (readEntryHeader (pack.drop offset)).map fun ((typeId, _), _) => typeId

/-- The base of the entry at an offset, if it is a delta on an id. -/
def peekRefBase (pack : List UInt8) (offset : Nat) : Except GitError (Option GitOid) := do
  let ((typeId, _), rest) ← readEntryHeader (pack.drop offset)
  if typeId ≠ objRefDelta then .ok none
  else (readBaseOid rest).map fun (oid, _) => some oid

section

variable (inflate : Inflate)

/-- What the stream at the front of some bytes holds. -/
def inflateAt (bytes : List UInt8) : Except GitError (List UInt8) :=
  match inflate bytes with
  | .error e => .error (.zlib e)
  | .ok (data, _) => .ok data

/-- How many bytes the stream takes up. -/
def inflateConsumed (bytes : List UInt8) : Except GitError Nat :=
  match inflate bytes with
  | .error e => .error (.zlib e)
  | .ok (_, consumed) => .ok consumed

/-- The entry at an offset. -/
def parseEntryAt (pack : List UInt8) (offset : Nat) : Except GitError RawEntry := do
  let ((typeId, size), rest) ← readEntryHeader (pack.drop offset)
  if typeId = objCommit ∨ typeId = objTree ∨ typeId = objBlob ∨ typeId = objTag then do
    let data ← inflateAt inflate rest
    if data.length ≠ size then .error (.pack "packfile: object size mismatch".toList)
    else .ok (.base typeId data)
  else if typeId = objOfsDelta then do
    let (neg, rest) ← readOfsDeltaOffset rest
    if offset < neg then .error (.pack "packfile: ofs-delta base before start of pack".toList)
    else do
      let delta ← inflateAt inflate rest
      if delta.length ≠ size then .error (.pack "packfile: delta size mismatch".toList)
      else .ok (.ofsDelta (offset - neg) delta)
  else if typeId = objRefDelta then do
    let (oid, rest) ← readBaseOid rest
    let delta ← inflateAt inflate rest
    if delta.length ≠ size then .error (.pack "packfile: delta size mismatch".toList)
    else .ok (.refDelta oid delta)
  else .error (.pack "packfile: unknown object type".toList)

/-- Skip what names the base of a delta. -/
def skipReference (typeId : Nat) (bytes : List UInt8) : Except GitError (List UInt8) :=
  if typeId = objCommit ∨ typeId = objTree ∨ typeId = objBlob ∨ typeId = objTag then .ok bytes
  else if typeId = objOfsDelta then (readOfsDeltaOffset bytes).map Prod.snd
  else if typeId = objRefDelta then (readBaseOid bytes).map Prod.snd
  else .error (.pack "packfile: unknown object type".toList)

/-- The offset of the entry behind the one at an offset. -/
def skipEntry (pack : List UInt8) (offset : Nat) : Except GitError Nat := do
  let ((typeId, _), rest) ← readEntryHeader (pack.drop offset)
  let rest ← skipReference typeId rest
  let consumed ← inflateConsumed inflate rest
  .ok (pack.length - rest.length + consumed)

/-! ## Resolving deltas -/

/-- What has been resolved: the type and the body of the entry at an offset. -/
abbrev Memo := BTreeMap Nat (Nat × List UInt8)

/-- Resolve the entry at an offset, through at most so many deltas. -/
def resolve (pack : List UInt8) (oidToOffset : BTreeMap GitOid Nat) :
    Nat → Nat → Memo → Except GitError ((Nat × List UInt8) × Memo)
  | left, offset, memo =>
      match memo[offset]? with
      | some cached => .ok (cached, memo)
      | none =>
          match left with
          | 0 => .error (.pack "packfile: delta chain too deep (possible cycle)".toList)
          | left + 1 => do
              let entry ← parseEntryAt inflate pack offset
              let (resolved, memo) ← (match entry with
                | .base typeId data => .ok ((typeId, data), memo)
                | .ofsDelta baseOffset delta => do
                    let ((typeId, body), memo) ← resolve pack oidToOffset left baseOffset memo
                    let body ← applyDelta body delta
                    .ok ((typeId, body), memo)
                | .refDelta baseOid delta =>
                    match oidToOffset[baseOid]? with
                    | none => .error (.pack "packfile: ref-delta base not in this pack".toList)
                    | some baseOffset => do
                        let ((typeId, body), memo) ← resolve pack oidToOffset left baseOffset memo
                        let body ← applyDelta body delta
                        .ok ((typeId, body), memo))
              .ok (resolved, memo.insert offset resolved)

end

/-- The name of an object type. -/
def typeText (typeId : Nat) : Except GitError Str :=
  if typeId = objCommit then .ok "commit".toList
  else if typeId = objTree then .ok "tree".toList
  else if typeId = objBlob then .ok "blob".toList
  else if typeId = objTag then .ok "tag".toList
  else .error (.pack "packfile: delta base has non-object type".toList)

/-- A header holds no byte that ends it. -/
theorem typeText_plain {typeId : Nat} {ty : Str} (h : typeText typeId = .ok ty) : ' ' ∉ ty := by
  unfold typeText at h
  split at h
  · exact Except.ok.inj h ▸ show ' ' ∉ "commit".toList by decide
  · split at h
    · exact Except.ok.inj h ▸ show ' ' ∉ "tree".toList by decide
    · split at h
      · exact Except.ok.inj h ▸ show ' ' ∉ "blob".toList by decide
      · split at h
        · exact Except.ok.inj h ▸ show ' ' ∉ "tag".toList by decide
        · cases h

/-- The byte form of a resolved body. -/
def canonicalBytes (resolved : Nat × List UInt8) : Except GitError (List UInt8) := do
  let (typeId, body) := resolved
  let ty ← typeText typeId
  .ok (utf8 ty ++ 0x20 :: (utf8 (Nat.toDigits 10 body.length) ++ 0 :: body))

/-! ## The index -/

def idxMagic : List UInt8 := [0xff, 0x74, 0x4f, 0x63]

/-- The entry at a place of the index: its id and its offset, which may stand in the table of large ones. -/
def parseIdxEntry (bytes : List UInt8) (namesStart offsetsStart largeStart i : Nat) :
    Except GitError (GitOid × Nat) := do
  let name := (bytes.drop (namesStart + i * 20)).take 20
  if h : name.length = 20 then do
    let rawOffset ← readBeU32 bytes (offsetsStart + i * 4)
    let offset ← (if rawOffset ≥ 0x80000000 then readBeU64 bytes (largeStart + (rawOffset - 0x80000000) * 8)
      else .ok rawOffset)
    .ok (⟨name, h⟩, offset)
  else .error (.pack "pack index: truncated (name table)".toList)

/-- The entries of an index, in its order. -/
def parseIdx (bytes : List UInt8) : Except GitError (List (GitOid × Nat)) :=
  if bytes.length < 8 ∨ bytes.take 4 ≠ idxMagic then .error (.pack "pack index: bad magic (not v2)".toList)
  else do
    let version ← readBeU32 bytes 4
    if version ≠ 2 then .error (.pack "pack index: unsupported version (expected 2)".toList)
    else do
      let fanoutStart := 8
      let count ← readBeU32 bytes (fanoutStart + 255 * 4)
      let namesStart := fanoutStart + 256 * 4
      let crcsStart := namesStart + count * 20
      let offsetsStart := crcsStart + count * 4
      let largeStart := offsetsStart + count * 4
      if largeStart > bytes.length then .error (.pack "pack index: truncated (offset table)".toList)
      else (List.range count).mapM (parseIdxEntry bytes namesStart offsetsStart largeStart)

/-! ## Decoding with an index -/

/-- The last offset of each id. -/
def offsetsByOid (index : List (GitOid × Nat)) : BTreeMap GitOid Nat :=
  index.foldl (fun m e => m.insert e.1 e.2) ∅

/-- What has been decoded, and how many deltas of each kind there were. -/
structure PackDecode where
  objects : List (GitOid × GitObject)
  ofsDeltas : Nat
  refDeltas : Nat

section

variable (sha1 : List UInt8 → GitOid) (inflate : Inflate)

/-- Decode the entries of an index, one by one. -/
def readEntries (pack : List UInt8) (oidToOffset : BTreeMap GitOid Nat) :
    List (GitOid × Nat) → Memo → PackDecode → Except GitError PackDecode
  | [], _, out => .ok out
  | (oid, offset) :: index, memo, out => do
      let typeId ← peekType pack offset
      let out := { out with
        ofsDeltas := if typeId = objOfsDelta then out.ofsDeltas + 1 else out.ofsDeltas
        refDeltas := if typeId = objRefDelta then out.refDeltas + 1 else out.refDeltas }
      let (resolved, memo) ← resolve inflate pack oidToOffset (maxDeltaDepth + 1) offset memo
      let canonical ← canonicalBytes resolved
      if sha1 canonical ≠ oid then
        .error (.pack "reconstructed packed object does not match its index oid".toList)
      else do
        let object ← GitObject.decode canonical
        readEntries pack oidToOffset index memo { out with objects := out.objects ++ [(oid, object)] }

/-- Decode a packfile with its index. -/
def readPackDetailed (idx pack : List UInt8) : Except GitError PackDecode := do
  let index ← parseIdx idx
  let packCount ← parsePackHeader pack
  if packCount ≠ index.length then .error (.pack "pack object count does not match index entry count".toList)
  else readEntries sha1 inflate pack (offsetsByOid index) index ∅ ⟨[], 0, 0⟩

def readPack (idx pack : List UInt8) : Except GitError (List (GitOid × GitObject)) :=
  (readPackDetailed sha1 inflate idx pack).map PackDecode.objects

/-! ## Decoding without an index -/

/-- The offsets of so many entries, the first one at an offset. -/
def entryOffsets (pack : List UInt8) : Nat → Nat → Except GitError (List Nat)
  | 0, _ => .ok []
  | count + 1, offset => do
      let next ← skipEntry inflate pack offset
      let offsets ← entryOffsets pack count next
      .ok (offset :: offsets)

/-- What has been decoded: the offsets by id, the resolved bodies, and the objects by offset. -/
structure PackState where
  oidToOffset : BTreeMap GitOid Nat
  memo : Memo
  results : BTreeMap Nat (GitOid × GitObject)

/-- Decode the entry at an offset, unless it waits for its base. -/
def packEntry (pack : List UInt8) (s : PackState) (offset : Nat) : Except GitError (Option PackState) := do
  let baseOid ← peekRefBase pack offset
  if baseOid.any fun oid => !s.oidToOffset.contains oid then .ok none
  else do
    let (resolved, memo) ← resolve inflate pack s.oidToOffset (maxDeltaDepth + 1) offset s.memo
    let canonical ← canonicalBytes resolved
    let computed := sha1 canonical
    let object ← GitObject.decode canonical
    .ok (some ⟨s.oidToOffset.insert computed offset, memo, s.results.insert offset (computed, object)⟩)

/-- A pass over the entries that remain, with the ones that are put off. -/
def packPass (pack : List UInt8) : PackState → List Nat → Except GitError (PackState × List Nat)
  | s, [] => .ok (s, [])
  | s, offset :: remaining => do
      match ← packEntry sha1 inflate pack s offset with
      | none =>
          let (s, deferred) ← packPass pack s remaining
          .ok (s, offset :: deferred)
      | some s => packPass pack s remaining

end

theorem length_packPass {sha1 : List UInt8 → GitOid} {inflate : Inflate} {pack : List UInt8} {s : PackState}
    {remaining : List Nat} {r : PackState × List Nat} (h : packPass sha1 inflate pack s remaining = .ok r) :
    r.2.length ≤ remaining.length := by
  induction remaining generalizing s r with
  | nil => exact Except.ok.inj h ▸ le_rfl
  | cons offset remaining ih =>
      obtain ⟨next, -, h⟩ := bind_eq_ok.mp h
      cases next with
      | none =>
          obtain ⟨r', hr', h⟩ := bind_eq_ok.mp h
          exact Except.ok.inj h ▸ Nat.succ_le_succ (ih hr')
      | some s' => exact (ih h).trans (Nat.le_succ _)

section

variable (sha1 : List UInt8 → GitOid) (inflate : Inflate)

/-- Passes until nothing remains. A pass that puts everything off is the last. -/
def packPasses (pack : List UInt8) (s : PackState) (remaining : List Nat) : Except GitError PackState :=
  match remaining with
  | [] => .ok s
  | offset :: remaining =>
      match _h : packPass sha1 inflate pack s (offset :: remaining) with
      | .error e => .error e
      | .ok (s, deferred) =>
          if deferred.length = (offset :: remaining).length then
            .error (.pack "packfile: unresolvable ref-delta base (thin pack not supported)".toList)
          else packPasses pack s deferred
termination_by remaining.length
decreasing_by
  have := length_packPass _h
  simp only at this
  omega

/-- The objects in the order of the pack. -/
def emit : List Nat → BTreeMap Nat (GitOid × GitObject) → List (GitOid × GitObject)
  | [], _ => []
  | offset :: offsets, results =>
      match results[offset]? with
      | none => emit offsets results
      | some entry => entry :: emit offsets (results.erase offset)

/-- Decode a packfile without an index. -/
def parsePackBytes (pack : List UInt8) : Except GitError (List (GitOid × GitObject)) := do
  let count ← parsePackHeader pack
  let offsets ← entryOffsets inflate pack count 12
  let s ← packPasses sha1 inflate pack ⟨∅, ∅, ∅⟩ offsets
  .ok (emit offsets s.results)

end

end Pack

end Omoplata
