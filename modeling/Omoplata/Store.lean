-- SUMMARY: Object ids and their text form, stored trees, and checking a tree out.
import Omoplata.Algebra.Doc
import Omoplata.Lib.BTreeMap
import Omoplata.Lib.Sha

/-!
# The object store

The store is seen tree by tree: an id gives the files of the tree it addresses.
Objects are never overwritten, so a store only grows.

The hash is a parameter; an id parses from its text form as the code parses it,
slices off a character boundary included.
-/

namespace Omoplata

/-! ## Object ids -/

/-- A panic of the code. -/
inductive Panic where
  | charBoundary
  deriving DecidableEq, Repr

/-- Why the object model fails. -/
inductive ObjectError where
  | unknownHashAlg (alg : Str)
  | malformedId (id : Str)
  | invalidName (name : Str)
  | corrupt (what : Str)
  deriving DecidableEq, Repr

/-- A SHA-256 content address. -/
structure ObjectId where
  digest : List UInt8
  length_digest : digest.length = 32
  deriving DecidableEq

def ObjectId.ofSha256 (bytes : List UInt8) : ObjectId := ⟨Sha.sha256 bytes, Sha.length_sha256 bytes⟩

def hexDigit (n : Nat) : Char := "0123456789abcdef".toList.getD n '0'

def hexEncode (bytes : List UInt8) : Str :=
  bytes.flatMap fun b => [hexDigit (b.toNat / 16), hexDigit (b.toNat % 16)]

/-- The value of a hexadecimal digit of either case. -/
def hexValue (c : Char) : Option Nat :=
  if '0' ≤ c ∧ c ≤ '9' then some (c.toNat - '0'.toNat)
  else if 'a' ≤ c ∧ c ≤ 'f' then some (c.toNat - 'a'.toNat + 10)
  else if 'A' ≤ c ∧ c ≤ 'F' then some (c.toNat - 'A'.toNat + 10)
  else none

/-- A byte from two characters in radix 16, which may start with a plus sign. -/
def byteFromRadix16 (hi lo : Char) : Option UInt8 := do
  let high ← if hi = '+' then some 0 else hexValue hi
  let low ← hexValue lo
  some (UInt8.ofNat (high * 16 + low))

/-- Decode two bytes of text at a time, up to the first pair that is no byte. A pair
    that cuts a character panics. -/
def hexPairs : Str → Except Panic (Option (List UInt8))
  | [] => .ok (some [])
  | [c] => if c.utf8Size = 2 then .ok none else .error .charBoundary
  | hi :: lo :: rest =>
      if hi.utf8Size = 2 then .ok none
      else if hi.utf8Size = 1 ∧ lo.utf8Size = 1 then
        match byteFromRadix16 hi lo with
        | none => .ok none
        | some b => do
            let bytes ← hexPairs rest
            pure (bytes.map (b :: ·))
      else .error .charBoundary

/-- The length of a text in bytes. -/
def byteLength (s : Str) : Nat := (s.map Char.utf8Size).sum

def hexDecode (s : Str) : Except Panic (Option (List UInt8)) :=
  if s.isEmpty ∨ byteLength s % 2 ≠ 0 then .ok none else hexPairs s

namespace ObjectId

/-- The text form, `sha256:<hex>`. -/
def toText (id : ObjectId) : Str := "sha256:".toList ++ hexEncode id.digest

/-- Parse the text form. -/
def parse (s : Str) : Except Panic (Except ObjectError ObjectId) :=
  match s.findIdx? (· == ':') with
  | none => .ok (.error (.malformedId s))
  | some i =>
      if s.take i ≠ "sha256".toList then .ok (.error (.unknownHashAlg (s.take i)))
      else do
        match ← hexDecode (s.drop (i + 1)) with
        | none => pure (.error (.malformedId s))
        | some digest =>
            if h : digest.length = 32 then pure (.ok ⟨digest, h⟩)
            else pure (.error (.malformedId s))

theorem hexDigit_spec : ∀ n < 16, hexValue (hexDigit n) = some n ∧ hexDigit n ≠ '+' ∧
    (hexDigit n).utf8Size = 1 := by
  decide

/-- Two digits stand for the byte they were written for. -/
theorem byteFromRadix16_hexDigit (b : UInt8) :
    byteFromRadix16 (hexDigit (b.toNat / 16)) (hexDigit (b.toNat % 16)) = some b := by
  have hlt : b.toNat < 256 := b.toNat_lt
  obtain ⟨hhigh, hplus, -⟩ := hexDigit_spec (b.toNat / 16) (by omega)
  obtain ⟨hlow, -, -⟩ := hexDigit_spec (b.toNat % 16) (by omega)
  unfold byteFromRadix16
  simp only [if_neg hplus, hhigh, hlow, bind, Option.bind]
  rw [Nat.div_add_mod', UInt8.ofNat_toNat]

private theorem hexPairs_hexEncode (bytes : List UInt8) : hexPairs (hexEncode bytes) = .ok (some bytes) := by
  induction bytes with
  | nil => rfl
  | cons b bytes ih =>
      have hlt : b.toNat < 256 := b.toNat_lt
      obtain ⟨-, -, hsize⟩ := hexDigit_spec (b.toNat / 16) (by omega)
      obtain ⟨-, -, hsize'⟩ := hexDigit_spec (b.toNat % 16) (by omega)
      have hcons : hexEncode (b :: bytes) =
          hexDigit (b.toNat / 16) :: hexDigit (b.toNat % 16) :: hexEncode bytes := rfl
      rw [hcons]
      unfold hexPairs
      simp [hsize, hsize', byteFromRadix16_hexDigit, ih, pure, Except.pure, bind, Except.bind]

theorem byteLength_hexEncode (bytes : List UInt8) : byteLength (hexEncode bytes) = 2 * bytes.length := by
  induction bytes with
  | nil => rfl
  | cons b bytes ih =>
      have hlt : b.toNat < 256 := b.toNat_lt
      have hcons : hexEncode (b :: bytes) =
          hexDigit (b.toNat / 16) :: hexDigit (b.toNat % 16) :: hexEncode bytes := rfl
      unfold byteLength at ih ⊢
      rw [hcons, List.map_cons, List.map_cons, List.sum_cons, List.sum_cons, ih,
        (hexDigit_spec (b.toNat / 16) (by omega)).2.2, (hexDigit_spec (b.toNat % 16) (by omega)).2.2,
        List.length_cons]
      omega

/-- Parsing the text form gives the id back. -/
theorem parse_toText (id : ObjectId) : parse id.toText = .ok (.ok id) := by
  have hscheme : "sha256".toList = ['s', 'h', 'a', '2', '5', '6'] := by decide
  have htext : id.toText = 's' :: 'h' :: 'a' :: '2' :: '5' :: '6' :: ':' :: hexEncode id.digest :=
    congrArg (· ++ hexEncode id.digest)
      (show "sha256:".toList = ['s', 'h', 'a', '2', '5', '6', ':'] by decide)
  have hfind : id.toText.findIdx? (· == ':') = some 6 := by
    rw [htext]
    simp [List.findIdx?_cons]
  have htake : id.toText.take 6 = "sha256".toList := by
    rw [htext, hscheme]
    rfl
  have hdrop : id.toText.drop 7 = hexEncode id.digest := by
    rw [htext]
    rfl
  have hdecode : hexDecode (hexEncode id.digest) = .ok (some id.digest) := by
    have hlength := byteLength_hexEncode id.digest
    rw [id.length_digest] at hlength
    unfold hexDecode
    rw [if_neg, hexPairs_hexEncode]
    rw [hlength, List.isEmpty_iff]
    rintro (hnil | hodd)
    · rw [hnil] at hlength
      exact absurd hlength (by decide)
    · exact hodd (by decide)
  unfold parse
  simp only [hfind, htake, hdrop, hdecode, id.length_digest, ne_eq, not_true_eq_false, if_false, bind,
    Except.bind, dite_true, pure, Except.pure]

theorem toText_injective : Function.Injective toText := by
  intro id id' h
  have hparse := parse_toText id
  rw [h, parse_toText id'] at hparse
  exact (Except.ok.inj (Except.ok.inj hparse)).symm

end ObjectId

/-! ## Trees -/

/-- What stands at a path: a file, as text where its bytes are UTF-8, or a directory with
    nothing in it. -/
inductive Content where
  | text (s : Str)
  | binary (bytes : List UInt8)
  | directory
  deriving DecidableEq

/-- The files and the empty directories of a directory, by path. -/
abbrev Files := BTreeMap Str Content

/-- The text files of a directory, by path. -/
abbrev TextFiles := BTreeMap Str Str

/-- The text of a content, if it is text. -/
def Content.readToString : Content → Option Str
  | text s => some s
  | binary _ => none
  | directory => none

/-- The files of a directory that read as text. -/
def readTreeFiles (files : Files) : TextFiles := files.filterMap fun _ c => c.readToString

/-- The text at a path, empty where there is none. -/
def TextFiles.textAt (files : TextFiles) (path : Str) : Str := files[path]?.getD []

/-- The names a snapshot passes over. -/
def controlNames : List Str := [".omoplata".toList, ".git".toList]

/-- Whether a path runs through a control name. -/
def isControlPath (path : Str) : Bool := (path.splitOn '/').any controlNames.contains

/-- The directory that has a control name on the way to a file, if it is not the top. -/
def controlParent (path : Str) : Option Str :=
  let parts := path.splitOn '/'
  let front := parts.takeWhile fun part => !controlNames.contains part
  if front.isEmpty || front.length == parts.length then none else some (['/'].intercalate front)

/-- Whether control names are all that a directory holds. -/
def leftEmpty (files : TextFiles) (dir : Str) : Bool :=
  (files.keys.any fun path => controlParent path == some dir) &&
    files.keys.all fun path => !(dir ++ ['/']).isPrefixOf path || controlParent path == some dir

/-- Write text files into an empty directory and snapshot it, which passes over control
    names. The writing fails where one path runs through another. -/
def writeFiles (files : TextFiles) : Option Files :=
  if files.keys.any fun p => files.keys.any fun q => (p ++ ['/']).isPrefixOf q then none
  else
    let kept : Files := files.filterMap fun path s => if isControlPath path then none else some (.text s)
    let emptied := (files.keys.filterMap controlParent).filter (leftEmpty files)
    some (emptied.foldl (fun kept dir => kept.insert dir .directory) kept)

/-! ## The store -/

/-- Why the store fails. -/
inductive StoreError where
  | objectNotFound (id : ObjectId)
  | integrity (id : ObjectId)
  | object (e : ObjectError)
  deriving DecidableEq

/-- The stored trees, by the text form of their ids. -/
structure Store where
  trees : BTreeMap Str Files

namespace Store

section

variable (treeId : Files → ObjectId)

/-- Store a tree; one that is there already is left alone. -/
def write (store : Store) (files : Files) : ObjectId × Store :=
  let id := treeId files
  (id, if store.trees.contains id.toText then store
    else ⟨store.trees.insert id.toText files⟩)

/-- The files of a stored tree, verified against its id. -/
def read (store : Store) (id : ObjectId) : Except StoreError Files :=
  match store.trees[id.toText]? with
  | none => .error (.objectNotFound id)
  | some files => if treeId files = id then .ok files else .error (.integrity id)

/-- A store holds at least what another holds. -/
def Extends (store store' : Store) : Prop :=
  ∀ (key : Str) (files : Files), store.trees[key]? = some files → store'.trees[key]? = some files

theorem Extends.refl (store : Store) : store.Extends store := fun _ _ h => h

theorem Extends.trans {s s' s'' : Store} (h : s.Extends s') (h' : s'.Extends s'') :
    s.Extends s'' := fun key files hk => h' key files (h key files hk)

theorem extends_write (store : Store) (files : Files) : store.Extends (store.write treeId files).2 := by
  intro key found hkey
  unfold write
  by_cases hc : store.trees.contains (treeId files).toText
  · simpa only [hc, if_true] using hkey
  · simp only [hc, Bool.false_eq_true, if_false, BTreeMap.getElem?_insert]
    rw [if_neg]
    · exact hkey
    · rintro rfl
      rw [Std.ExtTreeMap.contains_eq_isSome_getElem?, hkey] at hc
      exact hc rfl

/-- Writing a tree puts it where nothing is stored, and nothing else. -/
theorem getElem?_write {store : Store} {files found : Files} {key : Str}
    (h : (store.write treeId files).2.trees[key]? = some found) :
    store.trees[key]? = some found ∨ key = (treeId files).toText ∧ found = files := by
  unfold write at h
  dsimp only at h
  split at h
  · exact .inl h
  · rw [BTreeMap.getElem?_insert] at h
    split at h
    · rename_i hkey
      exact .inr ⟨hkey.symm, (Option.some.inj h).symm⟩
    · exact .inl h

theorem exists_getElem?_write (store : Store) (files : Files) :
    ∃ found, (store.write treeId files).2.trees[(treeId files).toText]? = some found := by
  unfold write
  dsimp only
  split
  · rename_i hcontains
    rw [Std.ExtTreeMap.contains_eq_isSome_getElem?] at hcontains
    exact Option.isSome_iff_exists.mp hcontains
  · exact ⟨files, by rw [BTreeMap.getElem?_insert, if_pos rfl]⟩

/-- What one store reads, a larger one reads too. -/
theorem Extends.read {store store' : Store} (h : store.Extends store') {id : ObjectId}
    {files : Files} (hread : store.read treeId id = .ok files) :
    store'.read treeId id = .ok files := by
  unfold Store.read at hread ⊢
  cases hs : store.trees[id.toText]? with
  | none => simp [hs] at hread
  | some found => simpa [hs, h _ _ hs] using hread

end

end Store

end Omoplata
