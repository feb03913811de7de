-- SUMMARY: Blobs and trees of the object store, their byte form, and the round trip through it.
import Mathlib.Data.List.Induction
import Omoplata.Store

/-!
# Objects

A tree is an ordered list of named entries. An object is written as a header with the
kind and the length of its payload, a zero byte, and the payload; a tree's payload has a
line of text for each entry, with the name last since it may contain spaces.
-/

namespace Omoplata

/-- Whether a tree entry points at a blob or a subtree. -/
inductive EntryKind where
  | blob
  | tree
  deriving DecidableEq, Repr

namespace EntryKind

def asStr : EntryKind → Str
  | blob => "blob".toList
  | tree => "tree".toList

def parse (s : Str) : Option EntryKind :=
  if s = "blob".toList then some blob else if s = "tree".toList then some tree else none

end EntryKind

/-- The kind tag in the header of an object. -/
inductive ObjectKind where
  | blob
  | tree
  deriving DecidableEq, Repr

namespace ObjectKind

def asStr : ObjectKind → Str
  | blob => "blob".toList
  | tree => "tree".toList

def parse (s : Str) : Option ObjectKind :=
  if s = "blob".toList then some blob else if s = "tree".toList then some tree else none

end ObjectKind

/-- A named entry of a tree. -/
structure TreeEntry where
  name : Str
  kind : EntryKind
  id : ObjectId
  deriving DecidableEq

/-- A single path component. -/
def ValidName (name : Str) : Prop :=
  name ≠ [] ∧ name ≠ ['.'] ∧ name ≠ ['.', '.'] ∧ '/' ∉ name ∧ Char.ofNat 0 ∉ name ∧ '\n' ∉ name

instance (name : Str) : Decidable (ValidName name) := by unfold ValidName; infer_instance

/-- The position of the entry with a name, or the one where it would have to stand. -/
def binarySearch (name : Str) : List TreeEntry → Except Nat Nat
  | [] => .error 0
  | e :: entries =>
      if e.name = name then .ok 0
      else if compare name e.name = .lt then .error 0
      else
        match binarySearch name entries with
        | .ok i => .ok (i + 1)
        | .error i => .error (i + 1)

/-- Insert or replace an entry. -/
def insertEntry (entries : List TreeEntry) (entry : TreeEntry) : List TreeEntry :=
  match binarySearch entry.name entries with
  | .ok i => entries.set i entry
  | .error i => entries.insertIdx i entry

/-! ## Sorted entries -/

/-- Strictly sorted by name. -/
def Sorted (entries : List TreeEntry) : Prop := entries.Pairwise fun e e' => compare e.name e'.name = .lt

theorem insertEntry_nil (entry : TreeEntry) : insertEntry [] entry = [entry] := rfl

theorem insertEntry_cons (e : TreeEntry) (entries : List TreeEntry) (entry : TreeEntry) :
    insertEntry (e :: entries) entry =
      if e.name = entry.name then entry :: entries
      else if compare entry.name e.name = .lt then entry :: e :: entries
      else e :: insertEntry entries entry := by
  unfold insertEntry
  rw [binarySearch]
  by_cases hname : e.name = entry.name
  · simp [hname]
  · by_cases hlt : compare entry.name e.name = .lt
    · simp [hname, hlt]
    · rw [if_neg hname, if_neg hlt, if_neg hname, if_neg hlt]
      cases binarySearch entry.name entries <;> simp

theorem mem_insertEntry {entries : List TreeEntry} {entry e : TreeEntry} (h : e ∈ insertEntry entries entry) :
    e = entry ∨ e ∈ entries := by
  induction entries with
  | nil => exact .inl (List.mem_singleton.mp h)
  | cons d entries ih =>
      rw [insertEntry_cons] at h
      split at h
      · cases List.mem_cons.mp h with
        | inl heq => exact .inl heq
        | inr hmem => exact .inr (List.mem_cons_of_mem _ hmem)
      · split at h
        · exact List.mem_cons.mp h
        · cases List.mem_cons.mp h with
          | inl heq => exact .inr (heq ▸ List.mem_cons_self)
          | inr hmem => exact (ih hmem).imp_right (List.mem_cons_of_mem _)

theorem Sorted.insertEntry {entries : List TreeEntry} (h : Sorted entries) (entry : TreeEntry) :
    Sorted (insertEntry entries entry) := by
  induction entries with
  | nil => exact List.pairwise_singleton _ _
  | cons d entries ih =>
      obtain ⟨hhead, htail⟩ := List.pairwise_cons.mp h
      rw [insertEntry_cons]
      split
      · rename_i hname
        exact List.pairwise_cons.mpr ⟨fun e he => hname ▸ hhead e he, htail⟩
      · rename_i hname
        split
        · rename_i hlt
          refine List.pairwise_cons.mpr ⟨fun e he => ?_, h⟩
          cases List.mem_cons.mp he with
          | inl heq => exact heq ▸ hlt
          | inr hmem => exact Std.TransCmp.lt_trans hlt (hhead e hmem)
        · rename_i hlt
          refine List.pairwise_cons.mpr ⟨fun e he => ?_, ih htail⟩
          cases mem_insertEntry he with
          | inl heq =>
              rw [heq]
              -- neither equal nor behind
              cases hcmp : compare d.name entry.name with
              | lt => rfl
              | eq => exact absurd (Std.compare_eq_iff_eq.mp hcmp) hname
              | gt => exact absurd (Std.OrientedCmp.lt_of_gt hcmp) hlt
          | inr hmem => exact hhead e hmem

/-- In sorted entries the search finds the entry with a name, if there is one. -/
theorem Sorted.binarySearch {entries : List TreeEntry} (h : Sorted entries) (name : Str) :
    ((binarySearch name entries).toOption.bind fun i => entries[i]?) = entries.find? fun e => e.name = name := by
  induction entries with
  | nil => rfl
  | cons d entries ih =>
      obtain ⟨hhead, htail⟩ := List.pairwise_cons.mp h
      unfold Omoplata.binarySearch
      by_cases hname : d.name = name
      · simp [hname, Except.toOption]
      · rw [if_neg hname, List.find?_cons_of_neg (by simpa using hname), ← ih htail]
        split
        · rename_i hlt
          -- the name comes before every entry
          rw [ih htail]
          refine (List.find?_eq_none.mpr fun e he => ?_).symm
          have hbehind := Std.TransCmp.lt_trans hlt (hhead e he)
          intro heq
          rw [decide_eq_true_eq] at heq
          rw [heq] at hbehind
          simp at hbehind
        · cases Omoplata.binarySearch name entries <;> rfl

theorem find?_insertEntry {entries : List TreeEntry} (h : Sorted entries) (entry : TreeEntry) (name : Str) :
    ((insertEntry entries entry).find? fun e => e.name = name) =
      if entry.name = name then some entry else entries.find? fun e => e.name = name := by
  induction entries with
  | nil =>
      rw [insertEntry_nil]
      by_cases hname : entry.name = name <;> simp [hname]
  | cons d entries ih =>
      obtain ⟨-, htail⟩ := List.pairwise_cons.mp h
      rw [insertEntry_cons]
      split
      · rename_i hsame
        by_cases hname : entry.name = name <;> simp [hname, hsame]
      · rename_i hother
        split
        · by_cases hname : entry.name = name <;> simp [hname]
        · rw [List.find?_cons, ih htail, List.find?_cons]
          by_cases hd : d.name = name
          · have hname : entry.name ≠ name := fun heq => hother (hd.trans heq.symm)
            simp [hd, hname]
          · simp [hd]

/-- An entry behind all others is inserted at the end. -/
theorem insertEntry_last {entries : List TreeEntry} {entry : TreeEntry}
    (h : ∀ e ∈ entries, compare e.name entry.name = .lt) : insertEntry entries entry = entries ++ [entry] := by
  induction entries with
  | nil => rfl
  | cons d entries ih =>
      have hlt := h d (by simp)
      have hne : d.name ≠ entry.name := fun heq => by simp [heq] at hlt
      have hge : compare entry.name d.name ≠ .lt := fun hgt => by
        have := Std.TransCmp.lt_trans hlt hgt
        simp at this
      rw [insertEntry_cons, if_neg hne, if_neg hge, ih fun e he => h e (List.mem_cons_of_mem _ he)]
      rfl

/-! ## Trees and objects -/

/-- A directory-like object. -/
structure Tree where
  entries : List TreeEntry
  sorted : Sorted entries
  valid : ∀ e ∈ entries, ValidName e.name
  deriving DecidableEq

namespace Tree

def new : Tree := ⟨[], .nil, by simp⟩

/-- Insert or replace an entry. -/
def insert (t : Tree) (name : Str) (kind : EntryKind) (id : ObjectId) : Except ObjectError Tree :=
  if h : ValidName name then
    .ok ⟨insertEntry t.entries ⟨name, kind, id⟩, t.sorted.insertEntry _, fun e he => by
      cases mem_insertEntry he with
      | inl heq => exact heq ▸ h
      | inr hmem => exact t.valid e hmem⟩
  else .error (.invalidName name)

/-- Look up an entry by name. -/
def get (t : Tree) (name : Str) : Option TreeEntry :=
  (binarySearch name t.entries).toOption.bind fun i => t.entries[i]?

end Tree

/-- A parsed object. -/
inductive Object where
  | blob (bytes : List UInt8)
  | tree (t : Tree)
  deriving DecidableEq

/-- The bytes of a text. -/
def utf8 (s : Str) : List UInt8 := s.flatMap String.utf8EncodeChar

/-- The text of bytes, where they are UTF-8. -/
def fromUtf8 (bytes : List UInt8) : Option Str := bytes.toByteArray.utf8Decode?.map Array.toList

/-- Split at the first `c`. -/
def splitOnce (c : Char) (s : Str) : Option (Str × Str) :=
  (s.findIdx? (· == c)).map fun i => (s.take i, s.drop (i + 1))

/-- The pieces between terminators. -/
def splitTerminator (c : Char) (s : Str) : List Str :=
  let parts := s.splitOn c
  if parts.getLast? = some [] then parts.dropLast else parts

/-- A decimal number, which may start with a plus sign. Numbers have no bound here. -/
def parseUsize (s : Str) : Option Nat :=
  let digits := if s.head? = some '+' then s.tail else s
  if digits ≠ [] ∧ digits.all Char.isDigit then some (Nat.ofDigitChars 10 digits 0) else none

namespace Object

def kind : Object → ObjectKind
  | blob _ => .blob
  | tree _ => .tree

/-- The line of an entry. -/
def entryLine (e : TreeEntry) : Str := e.kind.asStr ++ [' '] ++ e.id.toText ++ [' '] ++ e.name

def payload : Object → List UInt8
  | blob bytes => bytes
  | tree t => t.entries.flatMap fun e => utf8 (entryLine e ++ ['\n'])

/-- The byte form. -/
def serialize (o : Object) : List UInt8 :=
  utf8 (o.kind.asStr ++ [' '] ++ Nat.toDigits 10 o.payload.length) ++ 0 :: o.payload

/-- Read the line of an entry into a tree. -/
def parseEntry (t : Tree) (line : Str) : Except Panic (Except ObjectError Tree) :=
  match splitOnce ' ' line with
  | none => .ok (.error (.corrupt "tree entry: no id".toList))
  | some (kindStr, rest) =>
      match splitOnce ' ' rest with
      | none => .ok (.error (.corrupt "tree entry: no name".toList))
      | some (idStr, name) =>
          match EntryKind.parse kindStr with
          | none => .ok (.error (.corrupt "tree entry: bad kind".toList))
          | some kind => do
              match ← ObjectId.parse idStr with
              | .error _ => pure (.error (.corrupt "tree entry: bad id".toList))
              | .ok id => pure ((t.insert name kind id).mapError fun _ => .corrupt "tree entry: bad name".toList)

def parseEntries (t : Tree) : List Str → Except Panic (Except ObjectError Tree)
  | [] => .ok (.ok t)
  | line :: lines => do
      match ← parseEntry t line with
      | .error e => pure (.error e)
      | .ok t => parseEntries t lines

def parseTree (payload : List UInt8) : Except Panic (Except ObjectError Tree) :=
  if payload = [] then .ok (.ok .new)
  else
    match fromUtf8 payload with
    | none => .ok (.error (.corrupt "non-utf8 tree payload".toList))
    | some text => parseEntries .new (splitTerminator '\n' text)

/-- Parse the byte form. -/
def deserialize (bytes : List UInt8) : Except Panic (Except ObjectError Object) :=
  match bytes.findIdx? (· == 0) with
  | none => .ok (.error (.corrupt "missing header terminator".toList))
  | some nul =>
      match fromUtf8 (bytes.take nul) with
      | none => .ok (.error (.corrupt "non-utf8 header".toList))
      | some header =>
          match splitOnce ' ' header with
          | none => .ok (.error (.corrupt "malformed header".toList))
          | some (kindStr, lenStr) =>
              match ObjectKind.parse kindStr, parseUsize lenStr with
              | none, _ => .ok (.error (.corrupt "unknown kind".toList))
              | some _, none => .ok (.error (.corrupt "bad length".toList))
              | some kind, some len =>
                  let payload := bytes.drop (nul + 1)
                  if payload.length ≠ len then .ok (.error (.corrupt "length mismatch".toList))
                  else
                    match kind with
                    | .blob => .ok (.ok (.blob payload))
                    | .tree => do
                        let t ← parseTree payload
                        pure (t.map .tree)

/-- The content address of an object. -/
def id (sha256 : List UInt8 → ObjectId) (o : Object) : ObjectId := sha256 o.serialize

end Object

/-! ## The pieces of the byte form -/

theorem fromUtf8_utf8 (s : Str) : fromUtf8 (utf8 s) = some s := by
  unfold fromUtf8 utf8
  rw [show (s.flatMap String.utf8EncodeChar).toByteArray = s.utf8Encode from rfl, List.utf8Decode?_utf8Encode]
  rfl

/-- Bytes that are a text are the bytes of the text. -/
theorem utf8_of_fromUtf8 {bytes : List UInt8} {s : Str} (h : fromUtf8 bytes = some s) : utf8 s = bytes := by
  simp only [fromUtf8, Option.map_eq_some_iff] at h
  obtain ⟨chars, hdecode, rfl⟩ := h
  have hback : (bytes.toByteArray.utf8Decode?.get (by simp [hdecode])).toList.utf8Encode = bytes.toByteArray :=
    ByteArray.utf8Encode_get_utf8Decode?
  simp only [hdecode, Option.get_some] at hback
  exact List.toByteArray_inj.mp hback

theorem splitOnce_append {c : Char} {s : Str} (h : c ∉ s) (rest : Str) :
    splitOnce c (s ++ c :: rest) = some (s, rest) := by
  have hfind : (s ++ c :: rest).findIdx? (· == c) = some s.length := by
    rw [List.findIdx?_append, List.findIdx?_eq_none_iff.mpr, List.findIdx?_cons]
    · simp
    · intro d hd
      rw [beq_eq_false_iff_ne]
      rintro rfl
      exact h hd
  unfold splitOnce
  rw [hfind, Option.map_some, List.take_left]
  simp

theorem splitOnce_eq_some {c : Char} {s first rest : Str} (h : splitOnce c s = some (first, rest)) :
    s = first ++ c :: rest ∧ c ∉ first := by
  unfold splitOnce at h
  obtain ⟨i, hi, heq⟩ := Option.map_eq_some_iff.mp h
  obtain ⟨rfl, rfl⟩ := Prod.mk.inj heq
  obtain ⟨hlt, hc, hbefore⟩ := List.findIdx?_eq_some_iff_getElem.mp hi
  constructor
  · rw [← beq_iff_eq.mp hc, ← List.drop_eq_getElem_cons, List.take_append_drop]
  · intro hmem
    obtain ⟨j, hj, heq⟩ := List.getElem_of_mem hmem
    rw [List.length_take] at hj
    rw [List.getElem_take] at heq
    exact hbefore j (by omega) (beq_iff_eq.mpr heq)

theorem splitOnce_eq_none_iff {c : Char} {s : Str} : splitOnce c s = none ↔ c ∉ s := by
  unfold splitOnce
  rw [Option.map_eq_none_iff, List.findIdx?_eq_none_iff]
  constructor
  · intro h hmem
    simpa using h c hmem
  · rintro h d hd
    rw [beq_eq_false_iff_ne]
    rintro rfl
    exact h hd

/-- Lines that each end in a terminator. -/
theorem splitTerminator_lines {c : Char} {lines : List Str} (h : ∀ line ∈ lines, c ∉ line) :
    splitTerminator c (lines.flatMap fun line => line ++ [c]) = lines := by
  have hsplit : (lines.flatMap fun line => line ++ [c]).splitOn c = lines ++ [[]] := by
    induction lines with
    | nil => rfl
    | cons line lines ih =>
        rw [List.flatMap_cons, List.append_assoc, List.singleton_append,
          List.splitOn_append_cons_self, List.splitOn_eq_singleton (h line (by simp)),
          ih fun l hl => h l (List.mem_cons_of_mem _ hl)]
        rfl
  unfold splitTerminator
  simp only [hsplit]
  simp

/-- A decimal number: digits, perhaps behind a plus sign. -/
def DecimalText (n : Nat) (s : Str) : Prop :=
  ∃ digits, (s = digits ∨ s = '+' :: digits) ∧ digits ≠ [] ∧ (∀ c ∈ digits, c.isDigit) ∧ Nat.ofDigitChars 10 digits 0 = n

theorem parseUsize_eq_some_iff {n : Nat} {s : Str} : parseUsize s = some n ↔ DecimalText n s := by
  have hsign : ∀ digits : Str, (∀ c ∈ digits, c.isDigit) → digits.head? ≠ some '+' := fun digits hdigits hhead =>
    absurd (hdigits '+' (List.mem_of_head? hhead)) (by decide)
  unfold parseUsize
  constructor
  · intro h
    obtain ⟨digits, hsplit, h⟩ : ∃ digits, (s = digits ∨ s = '+' :: digits) ∧
        (if digits ≠ [] ∧ digits.all Char.isDigit then some (Nat.ofDigitChars 10 digits 0) else none) = some n := by
      refine ⟨_, ?_, h⟩
      split
      · rename_i hplus
        exact .inr (List.cons_head?_tail hplus).symm
      · exact .inl rfl
    split at h
    · rename_i hdigits
      exact ⟨digits, hsplit, hdigits.1, List.all_eq_true.mp hdigits.2, Option.some.inj h⟩
    · cases h
  · rintro ⟨digits, rfl | rfl, hne, hdigits, rfl⟩
    · simp only [if_neg (hsign _ hdigits)]
      rw [if_pos ⟨hne, List.all_eq_true.mpr hdigits⟩]
    · simp only [List.head?_cons, if_true, List.tail_cons]
      rw [if_pos ⟨hne, List.all_eq_true.mpr hdigits⟩]

theorem decimalText_toDigits (n : Nat) : DecimalText n (Nat.toDigits 10 n) :=
  ⟨_, .inl rfl, Nat.toDigits_ne_nil, fun _ hc => Nat.isDigit_of_mem_toDigits (by decide) (by decide) hc,
    Nat.ofDigitChars_ten_toDigits⟩

theorem parseUsize_toDigits (n : Nat) : parseUsize (Nat.toDigits 10 n) = some n :=
  parseUsize_eq_some_iff.mpr (decimalText_toDigits n)

theorem decimalText_char {n : Nat} {s : Str} {c : Char} (h : DecimalText n s) (hc : c ∈ s) : 0 < c.toNat ∧ c.toNat < 128 := by
  have hdigit : ∀ c : Char, c.isDigit → 0 < c.toNat ∧ c.toNat < 128 := by
    intro c hdigit
    simp only [Char.isDigit, Bool.and_eq_true, decide_eq_true_eq, UInt32.le_iff_toNat_le] at hdigit
    have hlow : 48 ≤ c.toNat := hdigit.1
    have hhigh : c.toNat ≤ 57 := hdigit.2
    omega
  obtain ⟨digits, rfl | rfl, -, hdigits, -⟩ := h
  · exact hdigit c (hdigits c hc)
  · cases List.mem_cons.mp hc with
    | inl heq =>
        rw [heq]
        decide
    | inr hmem => exact hdigit c (hdigits c hmem)

/-- The characters of a header are single bytes other than zero. -/
theorem zero_not_mem_utf8 {s : Str} (h : ∀ c ∈ s, 0 < c.toNat ∧ c.toNat < 128) : (0 : UInt8) ∉ utf8 s := by
  intro hmem
  obtain ⟨c, hc, hzero⟩ := List.mem_flatMap.mp hmem
  obtain ⟨hpos, hlt⟩ := h c hc
  unfold String.utf8EncodeChar at hzero
  have hle : c.val.toNat ≤ 0x7f := Nat.le_of_lt_succ hlt
  simp only [if_pos hle, List.mem_singleton] at hzero
  have hnat := congrArg UInt8.toNat hzero
  rw [UInt8.toNat_ofNat', Nat.mod_eq_of_lt (by omega)] at hnat
  exact absurd hnat (Nat.ne_of_lt hpos)

/-! ## The round trip -/

theorem toText_char {id : ObjectId} {c : Char} (h : c ∈ id.toText) : c ≠ ' ' ∧ c ≠ '\n' := by
  have hdigit : ∀ n < 16, hexDigit n ≠ ' ' ∧ hexDigit n ≠ '\n' := by decide
  have hscheme : ("sha256:".toList.all fun c => c ≠ ' ' ∧ c ≠ '\n') = true := by decide
  rcases List.mem_append.mp h with hmem | hmem
  · exact of_decide_eq_true (List.all_eq_true.mp hscheme c hmem)
  · obtain ⟨b, -, hc⟩ := List.mem_flatMap.mp hmem
    have hlt : b.toNat < 256 := b.toNat_lt
    simp only [List.mem_cons, List.not_mem_nil, or_false] at hc
    rcases hc with rfl | rfl
    · exact hdigit _ (by omega)
    · exact hdigit _ (by omega)

theorem EntryKind.parse_asStr (kind : EntryKind) : parse kind.asStr = some kind := by
  cases kind <;> decide

theorem ObjectKind.parse_asStr (kind : ObjectKind) : parse kind.asStr = some kind := by
  cases kind <;> decide

theorem EntryKind.asStr_char {kind : EntryKind} {c : Char} (h : c ∈ kind.asStr) : c ≠ ' ' ∧ c ≠ '\n' := by
  have hall : (kind.asStr.all fun c => c ≠ ' ' ∧ c ≠ '\n') = true := by cases kind <;> decide
  exact of_decide_eq_true (List.all_eq_true.mp hall c h)

namespace Object

/-- A line is read back as its entry, whatever spaces the name has. -/
theorem parseEntry_entryLine (t : Tree) (e : TreeEntry) :
    parseEntry t (entryLine e) =
      .ok ((t.insert e.name e.kind e.id).mapError fun _ => .corrupt "tree entry: bad name".toList) := by
  have hkind : splitOnce ' ' (entryLine e) = some (e.kind.asStr, e.id.toText ++ ' ' :: e.name) := by
    rw [← splitOnce_append (fun h => (EntryKind.asStr_char h).1 rfl)]
    simp [entryLine]
  have hid : splitOnce ' ' (e.id.toText ++ ' ' :: e.name) = some (e.id.toText, e.name) :=
    splitOnce_append (fun h => (toText_char h).1 rfl) _
  unfold parseEntry
  simp only [hkind, hid, EntryKind.parse_asStr, ObjectId.parse_toText]
  rfl

/-- The lines of a tree, read behind what was read of it before. -/
theorem parseEntries_entryLines (t u : Tree) (rest : List TreeEntry) (h : t.entries = u.entries ++ rest) :
    parseEntries u (rest.map entryLine) = .ok (.ok t) := by
  induction rest generalizing u with
  | nil =>
      rw [List.append_nil] at h
      obtain ⟨entries, hsorted, hvalid⟩ := t
      subst h
      rfl
  | cons e rest ih =>
      have hvalid : ValidName e.name := t.valid e (by simp [h])
      have hbehind : ∀ d ∈ u.entries, compare d.name e.name = .lt := by
        have hsorted := t.sorted
        rw [h] at hsorted
        exact fun d hd => (List.pairwise_append.mp hsorted).2.2 d hd e (by simp)
      obtain ⟨u', hu', hentries⟩ : ∃ u', u.insert e.name e.kind e.id = .ok u' ∧ u'.entries = u.entries ++ [e] := by
        unfold Tree.insert
        rw [dif_pos hvalid]
        exact ⟨_, rfl, insertEntry_last hbehind⟩
      rw [List.map_cons, parseEntries, parseEntry_entryLine, hu']
      exact ih u' (by rw [hentries, h, List.append_assoc, List.singleton_append])

theorem entryLine_noNewline {e : TreeEntry} (h : ValidName e.name) : '\n' ∉ entryLine e := by
  intro hmem
  simp only [entryLine, List.mem_append, List.mem_singleton] at hmem
  rcases hmem with (((hmem | hmem) | hmem) | hmem) | hmem
  · exact (EntryKind.asStr_char hmem).2 rfl
  · exact absurd hmem (by decide)
  · exact (toText_char hmem).2 rfl
  · exact absurd hmem (by decide)
  · exact h.2.2.2.2.2 hmem

theorem parseTree_payload (t : Tree) : parseTree (payload (.tree t)) = .ok (.ok t) := by
  have htext : payload (.tree t) = utf8 ((t.entries.map entryLine).flatMap fun line => line ++ ['\n']) := by
    simp only [payload, utf8, List.flatMap_map, List.flatMap_assoc]
  have hlines : ∀ line ∈ t.entries.map entryLine, '\n' ∉ line :=
    List.forall_mem_map.mpr fun e he => entryLine_noNewline (t.valid e he)
  unfold parseTree
  split
  · rename_i hnil
    have hempty : t.entries = [] := by
      cases hentries : t.entries with
      | nil => rfl
      | cons e entries => simp [payload, hentries, entryLine, utf8] at hnil
    obtain ⟨entries, hsorted, hvalid⟩ := t
    subst hempty
    rfl
  · rw [htext, fromUtf8_utf8]
    simp only
    rw [splitTerminator_lines hlines]
    exact parseEntries_entryLines t .new t.entries rfl

theorem zero_not_mem_header {kind : ObjectKind} {n : Nat} {num : Str} (h : DecimalText n num) :
    (0 : UInt8) ∉ utf8 (kind.asStr ++ ' ' :: num) := by
  have hkind : (kind.asStr.all fun c => 0 < c.toNat ∧ c.toNat < 128) = true := by
    cases kind <;> decide
  refine zero_not_mem_utf8 fun c hc => ?_
  cases List.mem_append.mp hc with
  | inl hmem => exact of_decide_eq_true (List.all_eq_true.mp hkind c hmem)
  | inr hmem =>
      cases List.mem_cons.mp hmem with
      | inl heq =>
          rw [heq]
          decide
      | inr hnum => exact decimalText_char h hnum

/-- A header that gives the length of its payload is taken apart again. -/
theorem header_parts (kind : ObjectKind) {num : Str} {payload : List UInt8} (h : DecimalText payload.length num) :
    (utf8 (kind.asStr ++ ' ' :: num) ++ 0 :: payload).findIdx? (· == 0) = some (utf8 (kind.asStr ++ ' ' :: num)).length ∧
      (utf8 (kind.asStr ++ ' ' :: num) ++ 0 :: payload).drop ((utf8 (kind.asStr ++ ' ' :: num)).length + 1) = payload ∧
      splitOnce ' ' (kind.asStr ++ ' ' :: num) = some (kind.asStr, num) := by
  refine ⟨?_, by simp, ?_⟩
  · rw [List.findIdx?_append, List.findIdx?_eq_none_iff.mpr, List.findIdx?_cons]
    · simp
    · intro b hb
      rw [beq_eq_false_iff_ne]
      rintro rfl
      exact zero_not_mem_header h hb
  · have hkind : (kind.asStr.all fun c => c ≠ ' ') = true := by
      cases kind <;> decide
    exact splitOnce_append (fun hmem => of_decide_eq_true (List.all_eq_true.mp hkind _ hmem) rfl) num

theorem deserialize_blob {num : Str} {payload : List UInt8} (h : DecimalText payload.length num) :
    deserialize (utf8 (ObjectKind.blob.asStr ++ ' ' :: num) ++ 0 :: payload) = .ok (.ok (.blob payload)) := by
  obtain ⟨hnul, hdrop, hsplit⟩ := header_parts .blob h
  unfold deserialize
  simp only [hnul, List.take_left, hdrop, fromUtf8_utf8, hsplit, ObjectKind.parse_asStr, parseUsize_eq_some_iff.mpr h,
    ne_eq, not_true_eq_false, if_false]

theorem deserialize_tree {num : Str} {payload : List UInt8} (h : DecimalText payload.length num) :
    deserialize (utf8 (ObjectKind.tree.asStr ++ ' ' :: num) ++ 0 :: payload) =
      parseTree payload >>= fun t => pure (t.map .tree) := by
  obtain ⟨hnul, hdrop, hsplit⟩ := header_parts .tree h
  unfold deserialize
  simp only [hnul, List.take_left, hdrop, fromUtf8_utf8, hsplit, ObjectKind.parse_asStr, parseUsize_eq_some_iff.mpr h,
    ne_eq, not_true_eq_false, if_false]

/-- What is written is read back. -/
theorem deserialize_serialize (o : Object) : deserialize o.serialize = .ok (.ok o) := by
  have hserialize : o.serialize = utf8 (o.kind.asStr ++ ' ' :: Nat.toDigits 10 o.payload.length) ++ 0 :: o.payload := by
    rw [serialize, List.append_assoc, List.singleton_append]
  rw [hserialize]
  cases o with
  | blob bytes => exact deserialize_blob (decimalText_toDigits _)
  | tree t =>
      refine (deserialize_tree (decimalText_toDigits _)).trans ?_
      rw [parseTree_payload]
      rfl

end Object

/-! ## Trees from inserts -/

namespace Tree

variable {t t' : Tree}

theorem get_eq (t : Tree) (name : Str) : t.get name = t.entries.find? fun e => e.name = name :=
  t.sorted.binarySearch name

/-- The entries of a tree are what its lookups find. -/
theorem mem_entries_iff (t : Tree) (e : TreeEntry) : e ∈ t.entries ↔ t.get e.name = some e := by
  rw [get_eq]
  constructor
  · intro he
    have hsorted := t.sorted
    generalize t.entries = entries at he hsorted
    induction entries with
    | nil => cases he
    | cons d entries ih =>
        obtain ⟨hhead, htail⟩ := List.pairwise_cons.mp hsorted
        cases List.mem_cons.mp he with
        | inl heq => simp [heq]
        | inr hmem =>
            have hne : d.name ≠ e.name := fun heq => by simpa [heq] using hhead e hmem
            rw [List.find?_cons_of_neg (by simpa using hne), ih hmem htail]
  · exact List.mem_of_find?_eq_some

/-- Trees with the same lookups are the same. -/
theorem ext_get (h : ∀ name, t.get name = t'.get name) : t = t' := by
  have hmem : ∀ e, e ∈ t.entries ↔ e ∈ t'.entries := fun e => by
    rw [mem_entries_iff, mem_entries_iff, h]
  have hperm : t.entries.Perm t'.entries := by
    refine (List.perm_ext_iff_of_nodup ?_ ?_).mpr hmem
    all_goals
      refine List.Pairwise.imp (fun hlt heq => ?_) (Tree.sorted _)
      simp [heq] at hlt
  have hentries : t.entries = t'.entries := by
    refine hperm.eq_of_pairwise (fun e e' _ _ hlt hgt => ?_) t.sorted t'.sorted
    have := Std.TransCmp.lt_trans hlt hgt
    simp at this
  obtain ⟨entries, hsorted, hvalid⟩ := t
  subst hentries
  rfl

theorem get_insert {name : Str} {kind : EntryKind} {id : ObjectId} (h : t.insert name kind id = .ok t') (other : Str) :
    t'.get other = if name = other then some ⟨name, kind, id⟩ else t.get other := by
  unfold insert at h
  split at h
  · obtain rfl := Except.ok.inj h
    rw [get_eq, get_eq]
    exact find?_insertEntry t.sorted _ other
  · cases h

/-- The tree after some inserts. One that is refused changes nothing. -/
def build (inserts : List TreeEntry) : Tree :=
  inserts.foldl (fun t e => (t.insert e.name e.kind e.id).toOption.getD t) new

/-- The last of some inserts under a name, where the name is valid. -/
def lastInserted (inserts : List TreeEntry) (name : Str) : Option TreeEntry :=
  inserts.reverse.find? fun e => e.name = name ∧ ValidName name

theorem get_build (inserts : List TreeEntry) (name : Str) : (build inserts).get name = lastInserted inserts name := by
  induction inserts using List.reverseRecOn with
  | nil => rfl
  | append_singleton inserts e ih =>
      have hbuild : build (inserts ++ [e]) = ((build inserts).insert e.name e.kind e.id).toOption.getD (build inserts) := by
        unfold build
        rw [List.foldl_append]
        rfl
      have hlast : lastInserted (inserts ++ [e]) name =
          if e.name = name ∧ ValidName name then some e else lastInserted inserts name := by
        unfold lastInserted
        rw [List.reverse_append, List.reverse_singleton, List.singleton_append, List.find?_cons]
        by_cases hname : e.name = name ∧ ValidName name <;> simp [hname]
      rw [hbuild, hlast]
      cases hinsert : (build inserts).insert e.name e.kind e.id with
      | error err =>
          have hinvalid : ¬ ValidName e.name := fun hvalid => by simp [insert, hvalid] at hinsert
          rw [if_neg]
          · exact ih
          · rintro ⟨rfl, hvalid⟩
            exact hinvalid hvalid
      | ok t =>
          have hvalid : ValidName e.name := by
            by_contra hinvalid
            simp [insert, hinvalid] at hinsert
          rw [Except.toOption, Option.getD_some, get_insert hinsert, ih]
          by_cases hname : e.name = name
          · subst hname
            simp [hvalid]
          · simp [hname]

end Tree

/-- Objects come back from their byte form, and the entries of a tree are sorted, hold what was
    inserted last under each name, and determine its bytes and its id together: the order of the
    inserts does not. -/
theorem object_roundtrip (sha256 : List UInt8 → ObjectId) :
    (∀ bytes, Object.deserialize (Object.blob bytes).serialize = .ok (.ok (.blob bytes))) ∧
      ∀ inserts : List TreeEntry,
        Object.deserialize (Object.tree (.build inserts)).serialize = .ok (.ok (.tree (.build inserts))) ∧
        ((Tree.build inserts).entries.Pairwise fun e e' => compare e.name e'.name = .lt) ∧
        (∀ name, (Tree.build inserts).get name = Tree.lastInserted inserts name) ∧
        ∀ inserts' : List TreeEntry,
          (∀ name, Tree.lastInserted inserts name = Tree.lastInserted inserts' name) →
            (Object.tree (.build inserts)).serialize = (Object.tree (.build inserts')).serialize ∧
              (Object.tree (.build inserts)).id sha256 = (Object.tree (.build inserts')).id sha256 := by
  refine ⟨fun bytes => Object.deserialize_serialize _, fun inserts =>
    ⟨Object.deserialize_serialize _, (Tree.build inserts).sorted, Tree.get_build inserts, fun inserts' h => ?_⟩⟩
  have hsame : Tree.build inserts = Tree.build inserts' :=
    Tree.ext_get fun name => by rw [Tree.get_build, Tree.get_build, h]
  rw [hsame]
  exact ⟨rfl, rfl⟩

end Omoplata
