-- SUMMARY: The layout of a pack index, which is read back as the entries that it lays out.
import Omoplata.Git.Pack

/-!
# Pack indices

An index lays out its entries in four tables behind a fanout: the ids, the checksums and the
offsets, and the offsets that take more than 31 bits. An entry with a large offset has its
place in the last table instead.
-/

open Codec Sha

namespace Omoplata

namespace Pack

/-! ## The layout -/

/-- A word of the offset table: the offset, or where it stands in the table of large ones. -/
inductive OffsetWord (large : List Nat) : Nat → Nat → Prop where
  | small {offset : Nat} (h : offset < 2 ^ 31) : OffsetWord large offset offset
  | large {offset i : Nat} (h : 2 ^ 31 ≤ offset) (hi : i < 2 ^ 31) (hat : large[i]? = some offset) :
      OffsetWord large offset (2 ^ 31 + i)

/-- What an index holds besides the ids of its entries. -/
structure IdxTables where
  crcs : List Nat
  words : List Nat
  large : List Nat
  trailer : List UInt8

/-- The tables of some entries. The large offsets stand in any order. -/
structure IdxTables.Lists (t : IdxTables) (entries : List (GitOid × Nat)) : Prop where
  count : entries.length < 2 ^ 32
  crcs : t.crcs.length = entries.length
  words : List.Forall₂ (fun e w => OffsetWord t.large e.2 w) entries t.words

/-- How many entries have an id that starts with at most some byte. -/
def fanout (entries : List (GitOid × Nat)) (b : Nat) : Nat :=
  entries.countP fun e => decide ((e.1.bytes.headD 0).toNat ≤ b)

/-- The bytes of an index. -/
def IdxTables.bytes (t : IdxTables) (entries : List (GitOid × Nat)) : List UInt8 :=
  idxMagic ++ bytesOf 4 2 ++ (List.range 256).flatMap (fun b => bytesOf 4 (fanout entries b)) ++
    entries.flatMap (fun e => e.1.bytes) ++ t.crcs.flatMap (bytesOf 4) ++ t.words.flatMap (bytesOf 4) ++
    t.large.flatMap (bytesOf 8) ++ t.trailer

/-! ## Reading tables -/

theorem readBeU32_eq_ok {data : List UInt8} {pos n : Nat} (h : (data.drop pos).take 4 = bytesOf 4 n) (hn : n < 2 ^ 32) :
    readBeU32 data pos = .ok n := by
  have hlength : pos + 4 ≤ data.length := by
    have := congrArg List.length h
    rw [length_bytesOf, List.length_take, List.length_drop] at this
    omega
  have hword : n % 256 ^ 4 = n := Nat.mod_eq_of_lt hn
  unfold readBeU32
  rw [if_pos hlength, h, foldl_bytesOf, Nat.zero_mul, Nat.zero_add, hword]

theorem readBeU64_eq_ok {data : List UInt8} {pos n : Nat} (h : (data.drop pos).take 8 = bytesOf 8 n) (hn : n < 2 ^ 64) :
    readBeU64 data pos = .ok n := by
  have hlength : pos + 8 ≤ data.length := by
    have := congrArg List.length h
    rw [length_bytesOf, List.length_take, List.length_drop] at this
    omega
  have hword : n % 256 ^ 8 = n := Nat.mod_eq_of_lt hn
  unfold readBeU64
  rw [if_pos hlength, h, foldl_bytesOf, Nat.zero_mul, Nat.zero_add, hword]

theorem fanout_last (entries : List (GitOid × Nat)) : fanout entries 255 = entries.length := by
  unfold fanout
  rw [List.countP_eq_length]
  intro e _
  exact decide_eq_true (Nat.le_of_lt_succ (UInt8.toNat_lt _))

theorem parseIdxEntry_eq_ok_iff {bytes : List UInt8} {namesStart offsetsStart largeStart i : Nat} {e : GitOid × Nat} :
    parseIdxEntry bytes namesStart offsetsStart largeStart i = .ok e ↔
      (bytes.drop (namesStart + i * 20)).take 20 = e.1.bytes ∧
        ∃ raw, readBeU32 bytes (offsetsStart + i * 4) = .ok raw ∧
          if raw ≥ 0x80000000 then readBeU64 bytes (largeStart + (raw - 0x80000000) * 8) = .ok e.2 else e.2 = raw := by
  obtain ⟨oid, offset⟩ := e
  unfold parseIdxEntry
  by_cases hname : ((bytes.drop (namesStart + i * 20)).take 20).length = 20
  · rw [dif_pos hname, bind_eq_ok]
    constructor
    · rintro ⟨raw, hraw, h⟩
      obtain ⟨v, hv, h⟩ := bind_eq_ok.mp h
      cases h
      refine ⟨rfl, raw, hraw, ?_⟩
      split at hv
      · rename_i hlarge
        rwa [if_pos hlarge]
      · rename_i hlarge
        rw [if_neg hlarge]
        exact (Except.ok.inj hv).symm
    · rintro ⟨hbytes, raw, hraw, hoffset⟩
      refine ⟨raw, hraw, bind_eq_ok.mpr ⟨offset, ?_, ?_⟩⟩
      · split at hoffset
        · rename_i hlarge
          rwa [if_pos hlarge]
        · rename_i hlarge
          rw [if_neg hlarge]
          exact congrArg Except.ok hoffset.symm
      · rw [Except.ok.injEq, Prod.mk.injEq, GitOid.mk.injEq]
        exact ⟨hbytes, rfl⟩
  · rw [dif_neg hname]
    refine iff_of_false (fun h => by cases h) fun h => hname ?_
    rw [h.1, oid.length_bytes]

/-- The bytes in front of the ids. -/
def idxHeader (entries : List (GitOid × Nat)) : List UInt8 :=
  idxMagic ++ bytesOf 4 2 ++ (List.range 256).flatMap fun b => bytesOf 4 (fanout entries b)

theorem length_idxHeader (entries : List (GitOid × Nat)) : (idxHeader entries).length = 1032 := by
  unfold idxHeader
  rw [List.length_append, List.length_append, length_bytesOf,
    length_records 4 fun b _ => length_bytesOf 4 _, List.length_range]
  rfl

namespace IdxTables

variable {t : IdxTables} {entries : List (GitOid × Nat)}

theorem name_at {i : Nat} {e : GitOid × Nat} (he : entries[i]? = some e) :
    ((t.bytes entries).drop (1032 + i * 20)).take 20 = e.1.bytes := by
  have hbytes : t.bytes entries = idxHeader entries ++ entries.flatMap (fun e => e.1.bytes) ++
      (t.crcs.flatMap (bytesOf 4) ++ (t.words.flatMap (bytesOf 4) ++ (t.large.flatMap (bytesOf 8) ++ t.trailer))) := by
    simp only [bytes, idxHeader, List.append_assoc]
  have hrecord := take_drop_record 20 (fun e _ => e.1.length_bytes) he (idxHeader entries)
  rw [length_idxHeader] at hrecord
  rw [hbytes, hrecord]

/-- The bytes in front of the words. -/
def front (t : IdxTables) (entries : List (GitOid × Nat)) : List UInt8 :=
  idxHeader entries ++ entries.flatMap (fun e => e.1.bytes) ++ t.crcs.flatMap (bytesOf 4)

theorem length_front (ht : t.Lists entries) :
    (t.front entries).length = 1032 + entries.length * 20 + entries.length * 4 := by
  unfold front
  rw [List.length_append, List.length_append, length_idxHeader, length_records 20 fun e _ => e.1.length_bytes,
    length_records 4 fun c _ => length_bytesOf 4 c, ht.crcs]

theorem length_words (ht : t.Lists entries) : (t.words.flatMap (bytesOf 4)).length = entries.length * 4 := by
  rw [length_records 4 fun w _ => length_bytesOf 4 w, ← ht.words.length_eq]

theorem bytes_eq : t.bytes entries =
    t.front entries ++ t.words.flatMap (bytesOf 4) ++ (t.large.flatMap (bytesOf 8) ++ t.trailer) := by
  simp only [bytes, front, idxHeader, List.append_assoc]

theorem word_at (ht : t.Lists entries) {i w : Nat} (hw : t.words[i]? = some w) :
    ((t.bytes entries).drop (1032 + entries.length * 20 + entries.length * 4 + i * 4)).take 4 = bytesOf 4 w := by
  rw [bytes_eq, ← length_front ht]
  exact take_drop_record 4 (fun w _ => length_bytesOf 4 w) hw (t.front entries) _

theorem large_at (ht : t.Lists entries) {i v : Nat} (hv : t.large[i]? = some v) :
    ((t.bytes entries).drop (1032 + entries.length * 20 + entries.length * 4 + entries.length * 4 + i * 8)).take 8 =
      bytesOf 8 v := by
  rw [bytes_eq, ← List.append_assoc, ← length_front ht, ← length_words ht, ← List.length_append]
  exact take_drop_record 8 (fun v _ => length_bytesOf 8 v) hv (t.front entries ++ t.words.flatMap (bytesOf 4)) _

theorem tables_le_length (ht : t.Lists entries) :
    1032 + entries.length * 20 + entries.length * 4 + entries.length * 4 ≤ (t.bytes entries).length := by
  rw [bytes_eq, List.length_append, List.length_append, length_front ht, length_words ht]
  exact Nat.le_add_right _ _

/-- The version. -/
theorem readBeU32_version : readBeU32 (t.bytes entries) 4 = .ok 2 := by
  have hbytes : t.bytes entries = idxMagic ++ (bytesOf 4 2 ++
      ((List.range 256).flatMap (fun b => bytesOf 4 (fanout entries b)) ++
      (entries.flatMap (fun e => e.1.bytes) ++ (t.crcs.flatMap (bytesOf 4) ++ (t.words.flatMap (bytesOf 4) ++
        (t.large.flatMap (bytesOf 8) ++ t.trailer)))))) := by
    simp only [bytes, List.append_assoc]
  refine readBeU32_eq_ok ?_ (by decide)
  rw [hbytes, show 4 = idxMagic.length from rfl, List.drop_left]
  exact List.take_left' (length_bytesOf 4 2)

/-- The last word of the fanout. -/
theorem readBeU32_fanout (ht : t.Lists entries) : readBeU32 (t.bytes entries) (8 + 255 * 4) = .ok entries.length := by
  have hbytes : t.bytes entries = idxMagic ++ bytesOf 4 2 ++
      (List.range 256).flatMap (fun b => bytesOf 4 (fanout entries b)) ++
      (entries.flatMap (fun e => e.1.bytes) ++ (t.crcs.flatMap (bytesOf 4) ++ (t.words.flatMap (bytesOf 4) ++
        (t.large.flatMap (bytesOf 8) ++ t.trailer)))) := by
    simp only [bytes, List.append_assoc]
  have hlast : (List.range 256)[255]? = some 255 := List.getElem?_range (by decide)
  refine readBeU32_eq_ok ?_ ht.count
  rw [hbytes, ← fanout_last entries]
  exact take_drop_record 4 (fun b _ => length_bytesOf 4 _) hlast (idxMagic ++ bytesOf 4 2) _

end IdxTables

/-- An index is read as its entries exactly when it starts right, says how many they are, has
room for the tables, and has each entry at its place. -/
theorem parseIdx_eq_ok_iff {bytes : List UInt8} {entries : List (GitOid × Nat)} :
    parseIdx bytes = .ok entries ↔
      8 ≤ bytes.length ∧ bytes.take 4 = idxMagic ∧ readBeU32 bytes 4 = .ok 2 ∧
        readBeU32 bytes (8 + 255 * 4) = .ok entries.length ∧
        1032 + entries.length * 20 + entries.length * 4 + entries.length * 4 ≤ bytes.length ∧
        ∀ i e, entries[i]? = some e →
          parseIdxEntry bytes 1032 (1032 + entries.length * 20 + entries.length * 4)
            (1032 + entries.length * 20 + entries.length * 4 + entries.length * 4) i = .ok e := by
  unfold parseIdx
  simp only [ne_eq, ite_not]
  constructor
  · intro h
    split at h
    · cases h
    · rename_i hmagic
      rw [not_or, Nat.not_lt, not_not] at hmagic
      obtain ⟨version, hversion, h⟩ := bind_eq_ok.mp h
      split at h
      · rename_i htwo
        obtain ⟨count, hcount, h⟩ := bind_eq_ok.mp h
        split at h
        · cases h
        · rename_i hroom
          obtain ⟨rfl, hentries⟩ := mapM_range_eq_ok_iff.mp h
          exact ⟨hmagic.1, hmagic.2, htwo ▸ hversion, hcount, Nat.not_lt.mp hroom, hentries⟩
      · cases h
  · rintro ⟨hlength, hmagic, hversion, hcount, hroom, hentries⟩
    rw [if_neg (not_or.mpr ⟨Nat.not_lt.mpr hlength, not_not.mpr hmagic⟩)]
    refine bind_eq_ok.mpr ⟨2, hversion, ?_⟩
    rw [if_pos rfl]
    refine bind_eq_ok.mpr ⟨_, hcount, ?_⟩
    rw [if_neg (Nat.not_lt.mpr hroom)]
    exact mapM_range_eq_ok_iff.mpr ⟨rfl, hentries⟩

theorem parseIdx_bytes {t : IdxTables} {entries : List (GitOid × Nat)} (ht : t.Lists entries)
    (hoffsets : ∀ e ∈ entries, e.2 < 2 ^ 63) : parseIdx (t.bytes entries) = .ok entries := by
  have hroom := IdxTables.tables_le_length ht
  refine parseIdx_eq_ok_iff.mpr ⟨by omega, rfl, t.readBeU32_version, IdxTables.readBeU32_fanout ht, hroom, ?_⟩
  intro i e he
  obtain ⟨hi, rfl⟩ := List.getElem?_eq_some_iff.mp he
  have hwords := List.forall₂_iff_get.mp ht.words
  have hi' : i < t.words.length := hwords.1 ▸ hi
  have hword : OffsetWord t.large entries[i].2 t.words[i] := hwords.2 i hi hi'
  have hread := fun hlt => readBeU32_eq_ok (IdxTables.word_at ht (List.getElem?_eq_getElem hi')) hlt
  refine parseIdxEntry_eq_ok_iff.mpr ⟨IdxTables.name_at he, t.words[i], ?_⟩
  have hoffset := hoffsets _ (List.getElem_mem hi)
  generalize t.words[i] = w at hword hread
  generalize entries[i].2 = offset at hword hoffset
  cases hword with
  | small hsmall => exact ⟨hread (by omega), by rw [if_neg (by omega)]⟩
  | @large j hlarge hj hat =>
      refine ⟨hread (by omega), ?_⟩
      rw [if_pos (by omega), show 2 ^ 31 + j - 0x80000000 = j by omega]
      exact readBeU64_eq_ok (IdxTables.large_at ht hat) (by omega)

/-- The index of some entries is read as them, whatever the checksums, the order of the large
offsets and the trailer. Whatever is read has as many entries as the fanout says, and each lies
in the bytes. -/
theorem parseIdx_layout :
    (∀ (t : IdxTables) (entries : List (GitOid × Nat)), t.Lists entries → (∀ e ∈ entries, e.2 < 2 ^ 63) →
      parseIdx (t.bytes entries) = .ok entries) ∧
    ∀ bytes entries, parseIdx bytes = .ok entries →
      readBeU32 bytes (8 + 255 * 4) = .ok entries.length ∧ 1032 + entries.length * 28 ≤ bytes.length ∧
        ∀ i e, entries[i]? = some e →
          (bytes.drop (1032 + i * 20)).take 20 = e.1.bytes ∧
            ∃ raw, readBeU32 bytes (1032 + entries.length * 24 + i * 4) = .ok raw ∧
              if raw ≥ 0x80000000 then
                readBeU64 bytes (1032 + entries.length * 28 + (raw - 0x80000000) * 8) = .ok e.2
              else e.2 = raw := by
  refine ⟨fun t entries => parseIdx_bytes, fun bytes entries h => ?_⟩
  obtain ⟨-, -, -, hcount, hroom, hentries⟩ := parseIdx_eq_ok_iff.mp h
  refine ⟨hcount, by omega, fun i e he => ?_⟩
  have hentry := parseIdxEntry_eq_ok_iff.mp (hentries i e he)
  have hwords : 1032 + entries.length * 20 + entries.length * 4 = 1032 + entries.length * 24 := by omega
  have hlarge : 1032 + entries.length * 24 + entries.length * 4 = 1032 + entries.length * 28 := by omega
  rwa [hwords, hlarge] at hentry

theorem parseIdx_layout_mixed :
    parseIdx ((⟨[7, 8], [12, 2 ^ 31], [2 ^ 31 + 5], [0]⟩ : IdxTables).bytes
      [(⟨List.replicate 20 1, rfl⟩, 12), (⟨List.replicate 20 2, rfl⟩, 2 ^ 31 + 5)]) =
      .ok [(⟨List.replicate 20 1, rfl⟩, 12), (⟨List.replicate 20 2, rfl⟩, 2 ^ 31 + 5)] := by
  refine parseIdx_layout.1 _ _ ⟨by decide, rfl, ?_⟩ (by decide)
  exact .cons (.small (by decide)) (.cons (@OffsetWord.large _ _ 0 (by decide) (by decide) rfl) .nil)

end Pack

end Omoplata
