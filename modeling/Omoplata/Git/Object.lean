-- SUMMARY: Git objects, their byte form, and the round trips through it.
import Omoplata.Drivers.Rust
import Omoplata.Lib.Codec
import Omoplata.Lib.FileSystem
import Omoplata.Store.Object

/-!
# Git objects

The byte form of a git object is a header with its type and the length of its body, a
zero byte, and the body. Blobs and trees are kept as what they hold. Commits and tags
are parsed into typed fields, and their body is kept as it was, so that it can be written
back. SHA-1 is a parameter.
-/

open Codec

namespace Omoplata

/-- Why something fails with a git repository. -/
inductive GitError where
  | decode (what : Str)
  | roundtrip (oid : Str)
  | oidMismatch (expected got : Str)
  | unsupportedMode (mode : Str)
  | missingObject (oid : Str)
  | pack (what : Str)
  | malformedOid (text : Str)
  | zlib (what : Str)
  | badLoosePath (path : List Str)
  | badRef (name reason : Str)
  | notARepository (path : List Str)
  | emptyRepository (path : List Str)
  | io (path : List (FileSystem.Step Str))
  | object (e : ObjectError)
  deriving DecidableEq

/-! ## Ids -/

/-- A git object identity, the 20 bytes of a SHA-1. -/
structure GitOid where
  bytes : List UInt8
  length_bytes : bytes.length = 20
  deriving DecidableEq

def GitOid.ofSha1 (bytes : List UInt8) : GitOid := ⟨Sha.sha1 bytes, Sha.length_sha1 bytes⟩

/-- Decode two bytes of text at a time. A pair that is no byte or cuts a character is refused. -/
def gitHexPairs : Str → Option (List UInt8)
  | [] => some []
  | [_] => none
  | hi :: lo :: rest => do
      let b ← byteFromRadix16 hi lo
      let bytes ← gitHexPairs rest
      some (b :: bytes)

def gitHexDecode (s : Str) : Option (List UInt8) :=
  if s.isEmpty ∨ byteLength s % 2 ≠ 0 then none else gitHexPairs s

instance : Ord GitOid := ⟨fun a b => compare a.bytes b.bytes⟩

private theorem compare_bytes_isLE {a b c : List UInt8} (hab : (compare a b).isLE) (hbc : (compare b c).isLE) :
    (compare a c).isLE := Std.TransCmp.isLE_trans hab hbc

private theorem compare_bytes_swap {a b : List UInt8} : compare a b = (compare b a).swap := Std.OrientedCmp.eq_swap

instance : Std.TransOrd GitOid where
  eq_swap := compare_bytes_swap
  isLE_trans := compare_bytes_isLE

instance : Std.LawfulEqOrd GitOid where
  eq_of_compare {a b} h := by
    obtain ⟨bytes, hlength⟩ := a
    obtain rfl : bytes = b.bytes := Std.compare_eq_iff_eq.mp h
    rfl

namespace GitOid

/-- The hexadecimal form. -/
def hex (oid : GitOid) : Str := hexEncode oid.bytes

/-- Parse the hexadecimal form. -/
def fromHex (s : Str) : Except GitError GitOid :=
  match gitHexDecode s with
  | none => .error (.malformedOid s)
  | some bytes => if h : bytes.length = 20 then .ok ⟨bytes, h⟩ else .error (.malformedOid s)

end GitOid

theorem gitHexPairs_hexEncode (bytes : List UInt8) : gitHexPairs (hexEncode bytes) = some bytes := by
  induction bytes with
  | nil => rfl
  | cons b bytes ih =>
      have hcons : hexEncode (b :: bytes) =
          hexDigit (b.toNat / 16) :: hexDigit (b.toNat % 16) :: hexEncode bytes := rfl
      rw [hcons]
      unfold gitHexPairs
      rw [ObjectId.byteFromRadix16_hexDigit, ih]
      rfl

/-- The hexadecimal form of an id parses back. -/
theorem GitOid.fromHex_hex (oid : GitOid) : fromHex oid.hex = .ok oid := by
  have hlength := oid.length_bytes
  have hdecode : gitHexDecode oid.hex = some oid.bytes := by
    unfold gitHexDecode hex
    rw [if_neg, gitHexPairs_hexEncode]
    rw [ObjectId.byteLength_hexEncode, hlength]
    cases hbytes : oid.bytes with
    | nil => rw [hbytes] at hlength; cases hlength
    | cons b bytes => simp [hexEncode]
  unfold fromHex
  rw [hdecode]
  exact dif_pos hlength

theorem GitOid.hex_injective : Function.Injective GitOid.hex := by
  intro a b h
  have hparse := fromHex_hex a
  rw [h, fromHex_hex b] at hparse
  exact (Except.ok.inj hparse).symm

/-! ## Texts -/

/-- A text without white space at either end. -/
def trim (s : Str) : Str := (trimStart (trimStart s).reverse).reverse

/-- The ranges of the bytes that may follow the first byte of a character. -/
def followers (b : UInt8) : Option (List (UInt8 × UInt8)) :=
  if b < 0x80 then some []
  else if 0xc2 ≤ b ∧ b ≤ 0xdf then some [(0x80, 0xbf)]
  else if b = 0xe0 then some [(0xa0, 0xbf), (0x80, 0xbf)]
  else if b = 0xed then some [(0x80, 0x9f), (0x80, 0xbf)]
  else if 0xe1 ≤ b ∧ b ≤ 0xef then some [(0x80, 0xbf), (0x80, 0xbf)]
  else if b = 0xf0 then some [(0x90, 0xbf), (0x80, 0xbf), (0x80, 0xbf)]
  else if 0xf1 ≤ b ∧ b ≤ 0xf3 then some [(0x80, 0xbf), (0x80, 0xbf), (0x80, 0xbf)]
  else if b = 0xf4 then some [(0x80, 0x8f), (0x80, 0xbf), (0x80, 0xbf)]
  else none

/-- How many bytes in front lie in the ranges. -/
def countFollowing : List (UInt8 × UInt8) → List UInt8 → Nat
  | (low, high) :: ranges, b :: bytes => if low ≤ b ∧ b ≤ high then countFollowing ranges bytes + 1 else 0
  | _, _ => 0

/-- The text of bytes, with a replacement character for each run of bytes that starts no
    character or breaks one off. The first `skip` bytes belong to what was read before. -/
def lossyFrom : Nat → List UInt8 → Str
  | _, [] => []
  | skip + 1, _ :: bytes => lossyFrom skip bytes
  | 0, b :: bytes =>
      match followers b with
      | none => '\uFFFD' :: lossyFrom 0 bytes
      | some ranges =>
          let n := countFollowing ranges bytes
          let char := if n = ranges.length then fromUtf8 (b :: bytes.take n) else none
          char.getD ['\uFFFD'] ++ lossyFrom n bytes

def fromUtf8Lossy (bytes : List UInt8) : Str := lossyFrom 0 bytes

example : fromUtf8Lossy [0x61, 0xe2, 0x82, 0xac, 0xff, 0xe2, 0x82, 0x62] = ['a', '€', '\uFFFD', '\uFFFD', 'b'] := by
  decide +kernel

/-! ## Commits and tags -/

/-- The header block of a body and the message, behind the first empty line. -/
def splitHeaders : List UInt8 → List UInt8 × List UInt8
  | b :: c :: bytes =>
      if b = 0x0a ∧ c = 0x0a then ([], bytes)
      else
        let (header, message) := splitHeaders (c :: bytes)
        (b :: header, message)
  | bytes => (bytes, [])

/-- Add a line of the header block: a continuation goes behind the value before it. -/
def addHeaderLine (headers : List (Str × Str)) (line : Str) : List (Str × Str) :=
  match line with
  | ' ' :: cont =>
      match headers.getLast? with
      | none => headers
      | some (key, value) => headers.dropLast ++ [(key, value ++ '\n' :: cont)]
  | line => headers ++ [(splitOnce ' ' line).getD (line, [])]

/-- The headers of a block, each with its value. -/
def parseHeaders (block : List UInt8) : Except GitError (List (Str × Str)) :=
  match fromUtf8 block with
  | none => .error (.decode "non-utf8 commit/tag header".toList)
  | some text => .ok ((text.splitOn '\n').foldl addHeaderLine [])

/-- The id in the value of a header. -/
def headerOid (value what : Str) : Except GitError GitOid :=
  (GitOid.fromHex (trim value)).mapError fun _ => .decode what

/-- A parsed commit. -/
structure GitCommit where
  tree : GitOid
  parents : List GitOid
  author : Str
  committer : Str
  message : Str
  body : List UInt8
  deriving DecidableEq

namespace GitCommit

/-- The fields as far as the headers have been read. -/
structure Fields where
  tree : Option GitOid
  parents : List GitOid
  author : Str
  committer : Str

def addHeader (f : Fields) (header : Str × Str) : Except GitError Fields :=
  let (key, value) := header
  if key = "tree".toList then do
    let oid ← headerOid value "commit tree header is not a 40-hex oid".toList
    pure { f with tree := some oid }
  else if key = "parent".toList then do
    let oid ← headerOid value "commit parent header is not a 40-hex oid".toList
    pure { f with parents := f.parents ++ [oid] }
  else if key = "author".toList then pure { f with author := value }
  else if key = "committer".toList then pure { f with committer := value }
  else pure f

def parse (body : List UInt8) : Except GitError GitCommit := do
  let (headerBlock, messageBytes) := splitHeaders body
  let headers ← parseHeaders headerBlock
  let f ← headers.foldlM addHeader ⟨none, [], [], []⟩
  match f.tree with
  | none => .error (.decode "commit missing tree header".toList)
  | some tree => pure ⟨tree, f.parents, f.author, f.committer, fromUtf8Lossy messageBytes, body⟩

end GitCommit

/-- A parsed annotated tag. -/
structure GitTag where
  object : GitOid
  kind : Str
  tag : Str
  tagger : Str
  message : Str
  body : List UInt8
  deriving DecidableEq

namespace GitTag

/-- The fields as far as the headers have been read. -/
structure Fields where
  object : Option GitOid
  kind : Str
  tag : Str
  tagger : Str

def addHeader (f : Fields) (header : Str × Str) : Except GitError Fields :=
  let (key, value) := header
  if key = "object".toList then do
    let oid ← headerOid value "tag object header is not a 40-hex oid".toList
    pure { f with object := some oid }
  else if key = "type".toList then pure { f with kind := value }
  else if key = "tag".toList then pure { f with tag := value }
  else if key = "tagger".toList then pure { f with tagger := value }
  else pure f

def parse (body : List UInt8) : Except GitError GitTag := do
  let (headerBlock, messageBytes) := splitHeaders body
  let headers ← parseHeaders headerBlock
  let f ← headers.foldlM addHeader ⟨none, [], [], []⟩
  match f.object with
  | none => .error (.decode "tag missing object header".toList)
  | some object => pure ⟨object, f.kind, f.tag, f.tagger, fromUtf8Lossy messageBytes, body⟩

end GitTag

/-! ## Objects and their byte form -/

/-- An entry of a tree. -/
structure GitTreeEntry where
  mode : Str
  name : Str
  oid : GitOid
  deriving DecidableEq

/-- A parsed object. -/
inductive GitObject where
  | blob (bytes : List UInt8)
  | tree (entries : List GitTreeEntry)
  | commit (c : GitCommit)
  | tag (t : GitTag)
  deriving DecidableEq

/-- The byte form of an entry. -/
def GitTreeEntry.encode (e : GitTreeEntry) : List UInt8 :=
  utf8 e.mode ++ 0x20 :: (utf8 e.name ++ 0 :: e.oid.bytes)

/-- Read an entry off the front of the body of a tree. -/
def GitTreeEntry.decode (body : List UInt8) : Except GitError (GitTreeEntry × List UInt8) :=
  match cut 0x20 body with
  | none => .error (.decode "tree entry: missing mode separator".toList)
  | some (modeBytes, rest) =>
      match fromUtf8 modeBytes with
      | none => .error (.decode "tree entry: non-utf8 mode".toList)
      | some mode =>
          match cut 0 rest with
          | none => .error (.decode "tree entry: missing name NUL".toList)
          | some (nameBytes, rest) =>
              match fromUtf8 nameBytes with
              | none => .error (.decode "tree entry: non-utf8 name".toList)
              | some name =>
                  if h : 20 ≤ rest.length then
                    .ok (⟨mode, name, rest.take 20, List.length_take_of_le h⟩, rest.drop 20)
                  else .error (.decode "tree entry: truncated oid".toList)

namespace GitObject

def typeStr : GitObject → Str
  | blob _ => "blob".toList
  | tree _ => "tree".toList
  | commit _ => "commit".toList
  | tag _ => "tag".toList

def encodeTree (entries : List GitTreeEntry) : List UInt8 := entries.flatMap GitTreeEntry.encode

/-- The body, behind the header. -/
def body : GitObject → List UInt8
  | blob bytes => bytes
  | tree entries => encodeTree entries
  | commit c => c.body
  | tag t => t.body

/-- The byte form. -/
def encode (o : GitObject) : List UInt8 :=
  utf8 o.typeStr ++ 0x20 :: (utf8 (Nat.toDigits 10 o.body.length) ++ 0 :: o.body)

end GitObject

/-! ## The pieces of the byte form -/

/-- A byte below 128 stands for a character of its own. -/
theorem eq_of_mem_utf8EncodeChar {b : UInt8} {c : Char} (hmem : b ∈ String.utf8EncodeChar c) (hlt : b.toNat < 128) :
    c.toNat = b.toNat := by
  have hbyte : ∀ n, b = UInt8.ofNat n → b.toNat = n % 256 := fun n h => by
    rw [h]
    exact UInt8.toNat_ofNat'
  change c.val.toNat = b.toNat
  unfold String.utf8EncodeChar at hmem
  simp only at hmem
  split at hmem
  · have := hbyte _ (List.mem_singleton.mp hmem)
    omega
  · -- every other byte is one of at least 128
    exfalso
    split at hmem
    · simp only [List.mem_cons, List.not_mem_nil, or_false] at hmem
      rcases hmem with h | h
      all_goals
        have := hbyte _ h
        omega
    · split at hmem
      · simp only [List.mem_cons, List.not_mem_nil, or_false] at hmem
        rcases hmem with h | h | h
        all_goals
          have := hbyte _ h
          omega
      · simp only [List.mem_cons, List.not_mem_nil, or_false] at hmem
        rcases hmem with h | h | h | h
        all_goals
          have := hbyte _ h
          omega

/-- The bytes of a text without a character below 128 do not hold its byte. -/
theorem not_mem_utf8 {b : UInt8} {c : Char} {s : Str} (hlt : b.toNat < 128) (hc : c.toNat = b.toNat) (h : c ∉ s) :
    b ∉ utf8 s := by
  intro hmem
  obtain ⟨d, hd, hb⟩ := List.mem_flatMap.mp hmem
  obtain rfl : d = c := Char.ext (UInt32.toNat_inj.mp ((eq_of_mem_utf8EncodeChar hb hlt).trans hc.symm))
  exact h hd

/-- An entry is read as one just where the bytes begin with it. -/
theorem GitTreeEntry.decode_eq_ok {l rest : List UInt8} {e : GitTreeEntry} (h : GitTreeEntry.decode l = .ok (e, rest)) :
    l = e.encode ++ rest := by
  unfold GitTreeEntry.decode at h
  split at h
  · cases h
  · rename_i modeBytes afterMode hmode
    split at h
    · cases h
    · rename_i mode hmodeText
      split at h
      · cases h
      · rename_i nameBytes afterName hname
        split at h
        · cases h
        · rename_i name hnameText
          split at h
          · rename_i hlength
            cases h
            unfold GitTreeEntry.encode
            rw [utf8_of_fromUtf8 hmodeText, utf8_of_fromUtf8 hnameText, (cut_eq_some_iff.mp hmode).1,
              (cut_eq_some_iff.mp hname).1]
            simp
          · cases h

theorem GitTreeEntry.length_encode (e : GitTreeEntry) : 0 < e.encode.length := by
  unfold GitTreeEntry.encode
  rw [List.length_append, List.length_cons]
  exact Nat.add_pos_right _ (Nat.succ_pos _)

theorem GitTreeEntry.decode_shorter (l : List UInt8) (e : GitTreeEntry) (rest : List UInt8)
    (h : GitTreeEntry.decode l = .ok (e, rest)) : rest.length < l.length := by
  rw [GitTreeEntry.decode_eq_ok h, List.length_append]
  exact Nat.lt_add_of_pos_left e.length_encode

/-- Reads the entries of a tree. -/
def GitTreeEntry.reader : Reader UInt8 GitTreeEntry GitError := ⟨GitTreeEntry.decode, GitTreeEntry.decode_shorter⟩

namespace GitObject

def decodeTree (body : List UInt8) : Except GitError (List GitTreeEntry) := GitTreeEntry.reader.all body

/-- The object of a type with a body. -/
def decodeBody (ty body : List UInt8) : Except GitError GitObject :=
  if ty = utf8 "blob".toList then .ok (.blob body)
  else if ty = utf8 "tree".toList then (decodeTree body).map .tree
  else if ty = utf8 "commit".toList then (GitCommit.parse body).map .commit
  else if ty = utf8 "tag".toList then (GitTag.parse body).map .tag
  else .error (.decode "unknown object type".toList)

/-- Parse the byte form. -/
def decode (bytes : List UInt8) : Except GitError GitObject :=
  match cut 0x20 bytes with
  | none => .error (.decode "missing type/size separator".toList)
  | some (ty, rest) =>
      match cut 0 rest with
      | none => .error (.decode "missing header NUL".toList)
      | some (sizeBytes, body) =>
          match fromUtf8 sizeBytes with
          | none => .error (.decode "non-utf8 size".toList)
          | some sizeText =>
              match parseUsize sizeText with
              | none => .error (.decode "bad size".toList)
              | some size =>
                  if body.length ≠ size then .error (.decode "declared size does not match body length".toList)
                  else decodeBody ty body

/-- The id of an object. -/
def oid (sha1 : List UInt8 → GitOid) (o : GitObject) : GitOid := sha1 o.encode

end GitObject

/-- The round-trip gate for the bytes of an object. -/
def roundtripOk (sha1 : List UInt8 → GitOid) (bytes : List UInt8) : Except GitError GitOid := do
  let object ← GitObject.decode bytes
  if object.encode ≠ bytes then .error (.roundtrip (object.oid sha1).hex) else pure (object.oid sha1)

/-! ## The round trips -/

/-- An entry whose mode holds no space and whose name holds no zero is read back. -/
theorem GitTreeEntry.decode_encode {e : GitTreeEntry} (hmode : ' ' ∉ e.mode) (hname : Char.ofNat 0 ∉ e.name)
    (rest : List UInt8) : GitTreeEntry.decode (e.encode ++ rest) = .ok (e, rest) := by
  have hcut : cut 0x20 (e.encode ++ rest) = some (utf8 e.mode, utf8 e.name ++ 0 :: (e.oid.bytes ++ rest)) := by
    have hspace : (0x20 : UInt8) ∉ utf8 e.mode := not_mem_utf8 (by decide) (by decide) hmode
    rw [← cut_append hspace]
    simp [GitTreeEntry.encode]
  have hcut' : cut 0 (utf8 e.name ++ 0 :: (e.oid.bytes ++ rest)) = some (utf8 e.name, e.oid.bytes ++ rest) :=
    cut_append (not_mem_utf8 (by decide) (by decide) hname) _
  have hlength : 20 ≤ (e.oid.bytes ++ rest).length := by
    rw [List.length_append, e.oid.length_bytes]
    exact Nat.le_add_right 20 _
  have htake : (e.oid.bytes ++ rest).take 20 = e.oid.bytes := List.take_left' e.oid.length_bytes
  have hdrop : (e.oid.bytes ++ rest).drop 20 = rest := List.drop_left' e.oid.length_bytes
  unfold GitTreeEntry.decode
  simp only [hcut, hcut', fromUtf8_utf8, dif_pos hlength, htake, hdrop]

theorem GitCommit.body_of_parse {body : List UInt8} {c : GitCommit} (h : GitCommit.parse body = .ok c) :
    c.body = body := by
  unfold GitCommit.parse at h
  simp only [bind_eq_ok] at h
  obtain ⟨headers, -, f, -, h⟩ := h
  split at h
  · cases h
  · cases h
    rfl

theorem GitTag.body_of_parse {body : List UInt8} {t : GitTag} (h : GitTag.parse body = .ok t) : t.body = body := by
  unfold GitTag.parse at h
  simp only [bind_eq_ok] at h
  obtain ⟨headers, -, f, -, h⟩ := h
  split at h
  · cases h
  · cases h
    rfl

namespace GitObject

/-- The modes of a tree's entries hold no space and no zero and their names no zero, and
    commits and tags are parsed from bodies. -/
def WellFormed : GitObject → Prop
  | blob _ => True
  | tree entries => ∀ e ∈ entries, ' ' ∉ e.mode ∧ Char.ofNat 0 ∉ e.mode ∧ Char.ofNat 0 ∉ e.name
  | commit c => ∃ body, GitCommit.parse body = .ok c
  | tag t => ∃ body, GitTag.parse body = .ok t

/-- The size in the header is the decimal length of the body, without leading zeros or sign. -/
def DecimalSize (bytes : List UInt8) : Prop :=
  ∃ ty rest body, cut 0x20 bytes = some (ty, rest) ∧ cut 0 rest = some (utf8 (Nat.toDigits 10 body.length), body)

theorem decodeBody_tree (body : List UInt8) : decodeBody (utf8 "tree".toList) body = (decodeTree body).map .tree := by
  unfold decodeBody
  rw [if_neg (by decide), if_pos rfl]

theorem decodeBody_commit (body : List UInt8) :
    decodeBody (utf8 "commit".toList) body = (GitCommit.parse body).map .commit := by
  unfold decodeBody
  rw [if_neg (by decide), if_neg (by decide), if_pos rfl]

theorem decodeBody_tag (body : List UInt8) : decodeBody (utf8 "tag".toList) body = (GitTag.parse body).map .tag := by
  unfold decodeBody
  rw [if_neg (by decide), if_neg (by decide), if_neg (by decide), if_pos rfl]

theorem decodeBody_typeStr {o : GitObject} (h : o.WellFormed) : decodeBody (utf8 o.typeStr) o.body = .ok o := by
  cases o with
  | blob bytes => exact if_pos rfl
  | tree entries =>
      have hentries : decodeTree (encodeTree entries) = .ok entries :=
        Reader.all_write fun e he rest => GitTreeEntry.decode_encode (h e he).1 (h e he).2.2 rest
      exact (decodeBody_tree _).trans (map_eq_ok.mpr ⟨entries, hentries, rfl⟩)
  | commit c =>
      obtain ⟨body, hparse⟩ := h
      obtain rfl : c.body = body := GitCommit.body_of_parse hparse
      exact (decodeBody_commit _).trans (map_eq_ok.mpr ⟨c, hparse, rfl⟩)
  | tag t =>
      obtain ⟨body, hparse⟩ := h
      obtain rfl : t.body = body := GitTag.body_of_parse hparse
      exact (decodeBody_tag _).trans (map_eq_ok.mpr ⟨t, hparse, rfl⟩)

/-- What a body is read as has the type and the body it is read from. -/
theorem decodeBody_eq_ok {ty body : List UInt8} {o : GitObject} (h : decodeBody ty body = .ok o) :
    utf8 o.typeStr = ty ∧ o.body = body := by
  unfold decodeBody at h
  split at h
  · rename_i hty
    cases h
    exact ⟨hty.symm, rfl⟩
  · split at h
    · rename_i hty
      obtain ⟨entries, hentries, rfl⟩ := map_eq_ok.mp h
      exact ⟨hty.symm, Reader.write_all (fun l e rest hread => (GitTreeEntry.decode_eq_ok hread).symm) hentries⟩
    · split at h
      · rename_i hty
        obtain ⟨c, hparse, rfl⟩ := map_eq_ok.mp h
        exact ⟨hty.symm, GitCommit.body_of_parse hparse⟩
      · split at h
        · rename_i hty
          obtain ⟨t, hparse, rfl⟩ := map_eq_ok.mp h
          exact ⟨hty.symm, GitTag.body_of_parse hparse⟩
        · cases h

/-- The header of a byte form is cut where it was put together. -/
theorem cut_encode (o : GitObject) :
    cut 0x20 o.encode = some (utf8 o.typeStr, utf8 (Nat.toDigits 10 o.body.length) ++ 0 :: o.body) ∧
      cut 0 (utf8 (Nat.toDigits 10 o.body.length) ++ 0 :: o.body) =
        some (utf8 (Nat.toDigits 10 o.body.length), o.body) := by
  refine ⟨cut_append ?_ _, cut_append (zero_not_mem_utf8 fun c hc => ?_) _⟩
  · refine not_mem_utf8 (c := ' ') (by decide) (by decide) ?_
    cases o with
    | blob bytes => exact show ' ' ∉ "blob".toList by decide
    | tree entries => exact show ' ' ∉ "tree".toList by decide
    | commit c => exact show ' ' ∉ "commit".toList by decide
    | tag t => exact show ' ' ∉ "tag".toList by decide
  · have hdigit := Nat.isDigit_of_mem_toDigits (by decide) (by decide) hc
    simp only [Char.isDigit, Bool.and_eq_true, decide_eq_true_eq, UInt32.le_iff_toNat_le] at hdigit
    have hlow : 48 ≤ c.toNat := hdigit.1
    have hhigh : c.toNat ≤ 57 := hdigit.2
    omega

theorem decimalSize_encode (o : GitObject) : DecimalSize o.encode :=
  ⟨_, _, o.body, (cut_encode o).1, (cut_encode o).2⟩

theorem decode_encode {o : GitObject} (h : o.WellFormed) : decode o.encode = .ok o := by
  obtain ⟨hcut, hcut'⟩ := cut_encode o
  unfold decode
  simp only [hcut, hcut', fromUtf8_utf8, parseUsize_toDigits]
  rw [if_neg (not_not.mpr rfl)]
  exact decodeBody_typeStr h

theorem encode_of_decode {bytes : List UInt8} {o : GitObject} (h : decode bytes = .ok o) (hsize : DecimalSize bytes) :
    o.encode = bytes := by
  obtain ⟨ty, rest, body, hcut, hcut'⟩ := hsize
  unfold decode at h
  simp only [hcut, hcut', fromUtf8_utf8, parseUsize_toDigits] at h
  rw [if_neg (not_not.mpr rfl)] at h
  obtain ⟨hty, hbody⟩ := decodeBody_eq_ok h
  unfold encode
  rw [hty, hbody, ← (cut_eq_some_iff.mp hcut').1, ← (cut_eq_some_iff.mp hcut).1]

end GitObject

/-- The gate passes the bytes of an object in decimal size, and only those. -/
theorem roundtripOk_iff (sha1 : List UInt8 → GitOid) (bytes : List UInt8) :
    (∃ oid, roundtripOk sha1 bytes = .ok oid) ↔ (∃ o, GitObject.decode bytes = .ok o) ∧ GitObject.DecimalSize bytes := by
  constructor
  · rintro ⟨oid, h⟩
    obtain ⟨o, hdecode, h⟩ := bind_eq_ok.mp h
    split at h
    · cases h
    · rename_i hsame
      exact ⟨⟨o, hdecode⟩, not_not.mp hsame ▸ GitObject.decimalSize_encode o⟩
  · rintro ⟨⟨o, hdecode⟩, hsize⟩
    refine ⟨o.oid sha1, bind_eq_ok.mpr ⟨o, hdecode, ?_⟩⟩
    rw [if_neg (not_not.mpr (GitObject.encode_of_decode hdecode hsize))]
    rfl

/-- Bytes in decimal size that are read as an object are its byte form, an object that is well
    formed is read back from its byte form, and the gate passes just such bytes. -/
theorem git_object_roundtrip (sha1 : List UInt8 → GitOid) :
    (∀ bytes o, GitObject.decode bytes = .ok o → GitObject.DecimalSize bytes → o.encode = bytes) ∧
      (∀ o : GitObject, o.WellFormed → GitObject.decode o.encode = .ok o) ∧
      ∀ bytes, (∃ oid, roundtripOk sha1 bytes = .ok oid) ↔
        (∃ o, GitObject.decode bytes = .ok o) ∧ GitObject.DecimalSize bytes :=
  ⟨fun _ _ => GitObject.encode_of_decode, fun _ => GitObject.decode_encode, roundtripOk_iff sha1⟩

/-- A tree with an id of spaces and a commit of it. -/
theorem git_object_roundtrip_commit :
    let tree : GitObject := .tree [⟨"100644".toList, "a b".toList, ⟨List.replicate 20 0x20, rfl⟩⟩]
    let bytes := utf8 "commit 47".toList ++ 0 :: utf8 ("tree ".toList ++ (tree.oid .ofSha1).hex ++ "\n\n".toList)
    GitObject.decode tree.encode = .ok tree ∧ (∃ oid, roundtripOk .ofSha1 bytes = .ok oid) ∧
      ∃ o, GitObject.decode bytes = .ok o ∧ o.encode = bytes := by
  intro tree bytes
  obtain ⟨hencode, hdecode, hgate⟩ := git_object_roundtrip .ofSha1
  have htree : tree.WellFormed := by
    refine List.forall_mem_singleton.mpr ?_
    decide
  have hsize : GitObject.DecimalSize bytes :=
    ⟨utf8 "commit".toList, bytes.drop 7, bytes.drop 10, by decide +kernel, by decide +kernel⟩
  obtain ⟨o, ho⟩ : ∃ o, GitObject.decode bytes = .ok o := by
    have hok : (GitObject.decode bytes).isOk = true := by decide +kernel
    cases h : GitObject.decode bytes with
    | error e => rw [h] at hok; cases hok
    | ok o => exact ⟨o, rfl⟩
  exact ⟨hdecode tree htree, (hgate bytes).mpr ⟨⟨o, ho⟩, hsize⟩, o, ho, hencode bytes o ho hsize⟩

end Omoplata
