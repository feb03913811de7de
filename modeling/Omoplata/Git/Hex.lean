-- SUMMARY: Which texts are accepted as git ids, and which bytes as the length of a frame.
import Omoplata.Git.Pkt

/-!
# Hexadecimal on the git side

The digits of an id are parsed two by two, and those of a length all at once, by an integer
parser that allows a plus sign in front. So an id is also accepted with a plus sign for the
first digit of a byte, and a length with one for its first digit.
-/

open Codec

namespace Omoplata

/-! ## Ids -/

theorem gitHexPairs_eq_some_iff {s : Str} {bytes : List UInt8} :
    gitHexPairs s = some bytes ↔ RadixPairs s ∧ bytes = spell s := by
  induction s using List.twoStepInduction generalizing bytes with
  | nil =>
      unfold gitHexPairs
      exact ⟨fun h => ⟨trivial, (Option.some.inj h).symm⟩, fun h => h.2 ▸ rfl⟩
  | singleton c =>
      unfold gitHexPairs
      exact ⟨fun h => absurd h.symm (Option.some_ne_none _), fun h => h.1.elim⟩
  | cons_cons hi lo rest ih _ =>
      unfold gitHexPairs
      simp only [Option.bind_eq_bind, Option.bind_eq_some_iff, byteFromRadix16_eq_some_iff, ih]
      constructor
      · rintro ⟨b, ⟨hhi, hlo, rfl⟩, bytes', ⟨hrest, rfl⟩, h⟩
        exact ⟨⟨hhi, hlo, hrest⟩, (Option.some.inj h).symm⟩
      · rintro ⟨⟨hhi, hlo, hrest⟩, rfl⟩
        exact ⟨_, ⟨hhi, hlo, rfl⟩, _, ⟨hrest, rfl⟩, rfl⟩

/-- Twenty pairs are an id. -/
theorem exists_fromHex_iff {s : Str} : (∃ oid, GitOid.fromHex s = .ok oid) ↔ s.length = 40 ∧ RadixPairs s := by
  have hdecode : ∀ bytes, gitHexDecode s = some bytes ↔ s ≠ [] ∧ RadixPairs s ∧ bytes = spell s := fun bytes => by
    unfold gitHexDecode
    simp only [List.isEmpty_iff]
    split
    · rename_i hbad
      refine ⟨fun h => absurd h.symm (Option.some_ne_none _), fun h => ?_⟩
      have hlength := length_spell h.2.1
      exact absurd (hbad.resolve_left h.1) (by omega)
    · rename_i hgood
      rw [not_or] at hgood
      exact gitHexPairs_eq_some_iff.trans ⟨fun h => ⟨hgood.1, h⟩, fun h => h.2⟩
  unfold GitOid.fromHex
  constructor
  · rintro ⟨oid, h⟩
    split at h
    · cases h
    · rename_i bytes hbytes
      obtain ⟨-, hpairs, rfl⟩ := (hdecode bytes).mp hbytes
      have hlength := (length_spell hpairs).1
      split at h
      · exact ⟨by omega, hpairs⟩
      · cases h
  · rintro ⟨hlength, hpairs⟩
    have hne : s ≠ [] := by
      rintro rfl
      cases hlength
    have hspell := (length_spell hpairs).1
    rw [(hdecode _).mpr ⟨hne, hpairs, rfl⟩]
    exact ⟨_, dif_pos (by omega)⟩

/-- Exactly the digits of an id. -/
def OidDigits (s : Str) : Prop := s.length = 40 ∧ ∀ c ∈ s, (hexValue c).isSome

/-- As many pairs as an id has, with a plus sign for a digit. -/
def SignedOid (s : Str) : Prop := s.length = 40 ∧ RadixPairs s ∧ '+' ∈ s

theorem fromHex_exact_iff (s : Str) : ((∃ oid, GitOid.fromHex s = .ok oid) ↔ OidDigits s) ↔ ¬ SignedOid s := by
  rw [exists_fromHex_iff]
  constructor
  · rintro hexact ⟨hlength, hpairs, hplus⟩
    exact plus_not_digit (hexact.mp ⟨hlength, hpairs⟩).2 hplus
  · intro hsigned
    constructor
    · exact fun h => ⟨h.1, digits_of_radixPairs h.2 fun hplus => hsigned ⟨h.1, h.2, hplus⟩⟩
    · exact fun h => ⟨h.1, (radixPairs_of_digits (by rw [h.1]) h.2).1⟩

/-! ## Lengths -/

/-- A hexadecimal digit in ASCII. -/
def isHexByte (b : UInt8) : Bool := (hexValue (Char.ofNat b.toNat)).isSome

theorem ofNat_byte (b : UInt8) : (Char.ofNat b.toNat).val.toUInt8 = b := by
  have hvalid : b.toNat.isValidChar := .inl (b.toNat_lt.trans (by decide))
  have hnat : (Char.ofNat b.toNat).val.toNat = b.toNat := by
    rw [Char.ofNat, dif_pos hvalid]
    rfl
  apply UInt8.toNat_inj.mp
  rw [UInt32.toNat_toUInt8, hnat, Nat.mod_eq_of_lt b.toNat_lt]

/-- A byte that is the whole of a character. -/
theorem byte_of_char {c : Char} (h : c.utf8Size = 1) : Char.ofNat c.val.toUInt8.toNat = c := by
  have hlt : c.val.toNat < 256 := (Char.utf8Size_eq_one_iff.mp h).trans_lt (by decide)
  rw [UInt32.toNat_toUInt8, Nat.mod_eq_of_lt hlt]
  exact Char.ofNat_toNat c

theorem isHexByte_of_hexValue {c : Char} (h : (hexValue c).isSome) : isHexByte c.val.toUInt8 := by
  unfold isHexByte
  rwa [byte_of_char (utf8Size_of_radix (.inl h))]

/-- Bytes that are digits are the bytes of their characters. -/
theorem utf8_digits {bytes : List UInt8} (h : ∀ b ∈ bytes, isHexByte b) :
    utf8 (bytes.map fun b => Char.ofNat b.toNat) = bytes := by
  have hsize : ∀ c ∈ bytes.map fun b => Char.ofNat b.toNat, c.utf8Size = 1 := by
    refine List.forall_mem_map.mpr fun b hb => ?_
    exact utf8Size_of_radix (.inl (h b hb))
  rw [utf8_ascii hsize, List.map_map]
  exact List.map_id'' ofNat_byte bytes

theorem usizeFromRadix16_eq_some_iff {s : Str} {n : Nat} :
    usizeFromRadix16 s = some n ↔
      ∃ digits, (s = digits ∨ s = '+' :: digits) ∧ digits ≠ [] ∧ fromDigits16 0 digits = some n := by
  have hsign : ∀ digits : Str, fromDigits16 0 digits = some n → digits.head? ≠ some '+' := fun digits h hhead => by
    have hplus := fromDigits16_eq_some h '+' (List.mem_of_head? hhead)
    rw [hexValue_plus] at hplus
    cases hplus
  unfold usizeFromRadix16
  constructor
  · intro h
    obtain ⟨digits, hsplit, h⟩ : ∃ digits, (s = digits ∨ s = '+' :: digits) ∧
        (if digits = [] then none else fromDigits16 0 digits) = some n := by
      refine ⟨_, ?_, h⟩
      split
      · rename_i hplus
        exact .inr (List.cons_head?_tail hplus).symm
      · exact .inl rfl
    split at h
    · cases h
    · rename_i hne
      exact ⟨digits, hsplit, hne, h⟩
  · rintro ⟨digits, rfl | rfl, hne, hdigits⟩
    · simp only [if_neg (hsign _ hdigits), if_neg hne, hdigits]
    · simp only [List.head?_cons, if_true, List.tail_cons, if_neg hne, hdigits]

/-- Some stream with these bytes in front is read. -/
def Accepted (header : List UInt8) : Prop := ∃ rest pkt left, readPkt (header ++ rest) = .ok (pkt, left)

/-- Any length but the reserved one is that of a frame. -/
theorem accepted_iff {header : List UInt8} (h : header.length = 4) :
    Accepted header ↔ ∃ len, parseHex4 header = .ok len ∧ len ≠ 3 := by
  constructor
  · rintro ⟨rest, pkt, left, hread⟩
    rw [readPkt_append h] at hread
    obtain ⟨len, hlen, hframe⟩ := bind_eq_ok.mp hread
    refine ⟨len, hlen, ?_⟩
    rintro rfl
    cases hframe
  · rintro ⟨len, hlen, hne⟩
    have hframe : ∃ rest pkt left, readFrame len rest = .ok (pkt, left) := by
      rcases len with _ | _ | _ | _ | n
      · exact ⟨[], _, _, rfl⟩
      · exact ⟨[], _, _, rfl⟩
      · exact ⟨[], _, _, rfl⟩
      · exact absurd rfl hne
      · have hpayload := readExact_append (List.replicate n 0) []
        rw [List.length_replicate] at hpayload
        exact ⟨_, _, _, map_eq_ok.mpr ⟨_, hpayload, rfl⟩⟩
    obtain ⟨rest, pkt, left, hread⟩ := hframe
    refine ⟨rest, pkt, left, ?_⟩
    rw [readPkt_append h, hlen]
    exact hread

/-- A plus sign and digits in front of a frame, other than those of the reserved length. -/
def SignedLength (header : List UInt8) : Prop :=
  ∃ digits, header = 0x2b :: digits ∧ (∀ b ∈ digits, isHexByte b) ∧ digits ≠ utf8 "003".toList

/-- Three digits spell the reserved length in one way. -/
theorem fromDigits16_eq_three {digits : Str} (hlength : digits.length = 3) (h : fromDigits16 0 digits = some 3) :
    digits = "003".toList := by
  have hzero : ∀ c, hexValue c = some 0 → c = '0' := fun c hc => by
    have hall : "0123456789abcdefABCDEF".toList.all (fun c => hexValue c = some 0 → c = '0') := by decide
    exact of_decide_eq_true (List.all_eq_true.mp hall c (mem_hexDigits hc)) hc
  have hthree : ∀ c, hexValue c = some 3 → c = '3' := fun c hc => by
    have hall : "0123456789abcdefABCDEF".toList.all (fun c => hexValue c = some 3 → c = '3') := by decide
    exact of_decide_eq_true (List.all_eq_true.mp hall c (mem_hexDigits hc)) hc
  obtain ⟨a, b, c, rfl⟩ := List.length_eq_three.mp hlength
  have hdigits := fromDigits16_eq_some h
  obtain ⟨x, hx⟩ := Option.isSome_iff_exists.mp (hdigits a (by simp))
  obtain ⟨y, hy⟩ := Option.isSome_iff_exists.mp (hdigits b (by simp))
  obtain ⟨z, hz⟩ := Option.isSome_iff_exists.mp (hdigits c (by simp))
  simp only [fromDigits16_cons, hx, hy, hz, Option.bind_some] at h
  have hsum : 16 * (16 * (16 * 0 + x) + y) + z = 3 := Option.some.inj h
  obtain ⟨rfl, rfl, rfl⟩ : x = 0 ∧ y = 0 ∧ z = 3 := by omega
  rw [hzero a hx, hzero b hy, hthree c hz]
  rfl

/-- The text of a prefix that is accepted, with its digits. -/
theorem prefix_of_parseHex4 {header : List UInt8} {len : Nat} (h : parseHex4 header = .ok len) :
    ∃ digits, (header = utf8 digits ∨ header = 0x2b :: utf8 digits) ∧ fromDigits16 0 digits = some len ∧
      ∀ b ∈ utf8 digits, isHexByte b := by
  unfold parseHex4 at h
  split at h
  · cases h
  · rename_i s htext
    split at h
    · cases h
    · rename_i n hn
      cases h
      obtain ⟨digits, hsplit, -, hdigits⟩ := usizeFromRadix16_eq_some_iff.mp hn
      have hhex := fromDigits16_eq_some hdigits
      refine ⟨digits, ?_, hdigits, ?_⟩
      · rw [← utf8_of_fromUtf8 htext]
        rcases hsplit with rfl | rfl
        · exact .inl rfl
        · exact .inr rfl
      · rw [utf8_ascii fun c hc => utf8Size_of_radix (.inl (hhex c hc))]
        exact List.forall_mem_map.mpr fun c hc => isHexByte_of_hexValue (hhex c hc)

theorem accepted_exact_iff {header : List UInt8} (h : header.length = 4) :
    (Accepted header → ∀ b ∈ header, isHexByte b) ↔ ¬ SignedLength header := by
  rw [accepted_iff h]
  constructor
  · rintro hexact ⟨digits, rfl, hdigits, hne⟩
    -- the integer parser skips the sign
    have htext : 0x2b :: digits = utf8 ('+' :: digits.map fun b => Char.ofNat b.toNat) :=
      congrArg (0x2b :: ·) (utf8_digits hdigits).symm
    have hlength : (digits.map fun b => Char.ofNat b.toNat).length = 3 := by
      rw [List.length_map]
      exact Nat.succ.inj h
    obtain ⟨n, hn⟩ := exists_fromDigits16 (List.forall_mem_map.mpr hdigits) 0
    have hnonempty := List.ne_nil_of_length_eq_add_one hlength
    have hparse : parseHex4 (0x2b :: digits) = .ok n := by
      unfold parseHex4
      rw [htext]
      simp only [fromUtf8_utf8, usizeFromRadix16_eq_some_iff.mpr ⟨_, .inr rfl, hnonempty, hn⟩]
    have hsign := hexact ⟨n, hparse, ?_⟩ 0x2b List.mem_cons_self
    · exact absurd hsign (by decide)
    · rintro rfl
      apply hne
      rw [← utf8_digits hdigits, fromDigits16_eq_three hlength hn]
  · rintro hsigned ⟨len, hlen, hne⟩
    obtain ⟨digits, rfl | rfl, hdigits, hhex⟩ := prefix_of_parseHex4 hlen
    · exact hhex
    · refine absurd ⟨utf8 digits, rfl, hhex, fun heq => hne ?_⟩ hsigned
      have hdigits' : digits = "003".toList := Option.some.inj <| by
        rw [← fromUtf8_utf8 digits, heq, fromUtf8_utf8]
      rw [hdigits'] at hdigits
      exact (Option.some.inj hdigits).symm

/-- A text is accepted as an id just where it is digits, and a prefix as a length only where it is,
    unless there is a plus sign for the first digit of a byte of the id, or of the length. -/
theorem hex_accepted_iff (s : Str) (b₀ b₁ b₂ b₃ : UInt8) :
    ((((∃ oid, GitOid.fromHex s = .ok oid) ↔ OidDigits s) ↔ ¬ SignedOid s) ∧
      ((Accepted [b₀, b₁, b₂, b₃] → ∀ b ∈ [b₀, b₁, b₂, b₃], isHexByte b) ↔ ¬ SignedLength [b₀, b₁, b₂, b₃])) :=
  ⟨fromHex_exact_iff s, accepted_exact_iff rfl⟩

/-- An id with a plus sign for the first digit of every byte, and a length with one for its first. -/
theorem hex_accepted_fails :
    (¬ ∀ s, (∃ oid, GitOid.fromHex s = .ok oid) ↔ OidDigits s) ∧
      ¬ ∀ header : List UInt8, header.length = 4 → Accepted header → ∀ b ∈ header, isHexByte b := by
  refine ⟨fun h => ?_, fun h => ?_⟩
  · have hpairs := radixPairs_signed 20
    exact (fromHex_exact_iff _).mp (h (List.replicate 20 ['+', 'f']).flatten) ⟨by decide, hpairs, by decide⟩
  · have hsigned : SignedLength (utf8 "+00a".toList) :=
      ⟨utf8 "00a".toList, by decide, List.all_eq_true.mp (by decide), by decide⟩
    exact (accepted_exact_iff (by decide)).mp (h (utf8 "+00a".toList) (by decide)) hsigned

end Omoplata
