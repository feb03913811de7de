-- SUMMARY: Bytes that are a text are read as that text, also by the reader that never refuses.
import Omoplata.Git.Object

/-!
# Lossy reading

Messages and capabilities are read with a replacement character for each run of bytes that is
no character. The first byte of a character tells how many follow it and in which ranges they
lie, so nothing is replaced where the bytes are a text.
-/

namespace Omoplata

/-! ## The bytes of a character -/

theorem followers_ofNat {n : Nat} (h : n < 256) :
    followers (UInt8.ofNat n) =
      if n < 0x80 then some []
      else if 0xc2 ≤ n ∧ n ≤ 0xdf then some [(0x80, 0xbf)]
      else if n = 0xe0 then some [(0xa0, 0xbf), (0x80, 0xbf)]
      else if n = 0xed then some [(0x80, 0x9f), (0x80, 0xbf)]
      else if 0xe1 ≤ n ∧ n ≤ 0xef then some [(0x80, 0xbf), (0x80, 0xbf)]
      else if n = 0xf0 then some [(0x90, 0xbf), (0x80, 0xbf), (0x80, 0xbf)]
      else if 0xf1 ≤ n ∧ n ≤ 0xf3 then some [(0x80, 0xbf), (0x80, 0xbf), (0x80, 0xbf)]
      else if n = 0xf4 then some [(0x80, 0x8f), (0x80, 0xbf), (0x80, 0xbf)]
      else none := by
  have hn : (UInt8.ofNat n).toNat = n := UInt8.toNat_ofNat_of_lt' h
  unfold followers
  simp only [UInt8.lt_iff_toNat_lt, UInt8.le_iff_toNat_le, ← UInt8.toNat_inj, hn]
  rfl

/-- The bytes lie in the ranges, one by one. -/
def Following (ranges : List (UInt8 × UInt8)) (bytes : List UInt8) : Prop :=
  List.Forall₂ (fun range b => range.1 ≤ b ∧ b ≤ range.2) ranges bytes

theorem Following.cons {ranges : List (UInt8 × UInt8)} {bytes : List UInt8} (h : Following ranges bytes)
    (low high : UInt8) {n : Nat} (hlow : low.toNat ≤ n) (hhigh : n ≤ high.toNat) :
    Following ((low, high) :: ranges) (UInt8.ofNat n :: bytes) := by
  have hn : (UInt8.ofNat n).toNat = n := UInt8.toNat_ofNat_of_lt' (hhigh.trans_lt high.toNat_lt)
  refine List.Forall₂.cons ⟨?_, ?_⟩ h
  · rwa [UInt8.le_iff_toNat_le, hn]
  · rwa [UInt8.le_iff_toNat_le, hn]

/-- A byte that may follow in any place. -/
theorem Following.tail {ranges : List (UInt8 × UInt8)} {bytes : List UInt8} (h : Following ranges bytes) (m : Nat) :
    Following ((0x80, 0xbf) :: ranges) (UInt8.ofNat (m % 0x40 + 0x80) :: bytes) :=
  h.cons 0x80 0xbf (Nat.le_add_left _ _) (Nat.add_le_add_right (Nat.le_of_lt_succ (Nat.mod_lt m (by decide))) 0x80)

/-- The first byte of a character says what follows. -/
theorem utf8EncodeChar_following (c : Char) :
    ∃ b bytes ranges, String.utf8EncodeChar c = b :: bytes ∧ followers b = some ranges ∧ Following ranges bytes := by
  have hvalid : c.val.toNat < 0xd800 ∨ 0xdfff < c.val.toNat ∧ c.val.toNat < 0x110000 := c.valid
  unfold String.utf8EncodeChar
  simp only
  generalize c.val.toNat = v at hvalid
  -- one byte has none behind it, two bytes have one of any value
  split
  · refine ⟨_, _, [], rfl, ?_, .nil⟩
    rw [followers_ofNat (by omega), if_pos (by omega)]
  · split
    · refine ⟨_, _, _, rfl, ?_, Following.tail .nil v⟩
      rw [followers_ofNat (by omega), if_neg (by omega), if_pos (by omega)]
    · split
      · -- the second byte has fewer values behind the first and the fourteenth first byte
        by_cases hfirst : v / 4096 = 0
        · refine ⟨_, _, _, rfl, ?_, (Following.tail .nil v).cons 0xa0 0xbf ?_ ?_⟩
          · rw [followers_ofNat (by omega), if_neg (by omega), if_neg (by omega), if_pos (by omega)]
          · change 160 ≤ _
            omega
          · change _ ≤ 191
            omega
        · by_cases hsurrogate : v / 4096 = 13
          · refine ⟨_, _, _, rfl, ?_, (Following.tail .nil v).cons 0x80 0x9f ?_ ?_⟩
            · rw [followers_ofNat (by omega), if_neg (by omega), if_neg (by omega), if_neg (by omega),
                if_pos (by omega)]
            · exact Nat.le_add_left _ _
            · change _ ≤ 159
              omega
          · refine ⟨_, _, _, rfl, ?_, (Following.tail .nil v).tail (v / 64)⟩
            rw [followers_ofNat (by omega), if_neg (by omega), if_neg (by omega), if_neg (by omega),
              if_neg (by omega), if_pos (by omega)]
      · -- and of four bytes, behind the first and the last first byte
        by_cases hfirst : v / 262144 = 0
        · refine ⟨_, _, _, rfl, ?_, ((Following.tail .nil v).tail (v / 64)).cons 0x90 0xbf ?_ ?_⟩
          · rw [followers_ofNat (by omega), if_neg (by omega), if_neg (by omega), if_neg (by omega),
              if_neg (by omega), if_neg (by omega), if_pos (by omega)]
          · change 144 ≤ _
            omega
          · change _ ≤ 191
            omega
        · by_cases hlast : v / 262144 = 4
          · refine ⟨_, _, _, rfl, ?_, ((Following.tail .nil v).tail (v / 64)).cons 0x80 0x8f ?_ ?_⟩
            · rw [followers_ofNat (by omega), if_neg (by omega), if_neg (by omega), if_neg (by omega),
                if_neg (by omega), if_neg (by omega), if_neg (by omega), if_neg (by omega), if_pos (by omega)]
            · exact Nat.le_add_left _ _
            · change _ ≤ 143
              omega
          · refine ⟨_, _, _, rfl, ?_, ((Following.tail .nil v).tail (v / 64)).tail (v / 4096)⟩
            rw [followers_ofNat (by omega), if_neg (by omega), if_neg (by omega), if_neg (by omega),
              if_neg (by omega), if_neg (by omega), if_neg (by omega), if_pos (by omega)]

/-! ## Reading a text -/

theorem countFollowing_append {ranges : List (UInt8 × UInt8)} {bytes : List UInt8} (h : Following ranges bytes)
    (rest : List UInt8) : countFollowing ranges (bytes ++ rest) = bytes.length := by
  induction h with
  | nil =>
      unfold countFollowing
      rfl
  | cons hrange _ ih =>
      unfold countFollowing
      rw [List.cons_append]
      simp only [if_pos hrange, ih, List.length_cons]

theorem lossyFrom_skip (bytes rest : List UInt8) : lossyFrom bytes.length (bytes ++ rest) = lossyFrom 0 rest := by
  induction bytes with
  | nil => rfl
  | cons b bytes ih => exact ih

theorem lossyFrom_char (c : Char) (rest : List UInt8) :
    lossyFrom 0 (String.utf8EncodeChar c ++ rest) = c :: lossyFrom 0 rest := by
  obtain ⟨b, bytes, ranges, hchar, hranges, hfollowing⟩ := utf8EncodeChar_following c
  have hread : fromUtf8 (b :: bytes) = some [c] := by
    have h := fromUtf8_utf8 [c]
    rwa [utf8, List.flatMap_singleton, hchar] at h
  rw [hchar, List.cons_append, lossyFrom, hranges]
  simp only [countFollowing_append hfollowing, List.Forall₂.length_eq hfollowing, if_true, List.take_left, hread,
    lossyFrom_skip]
  rfl

/-- The bytes of a text are read as the text. -/
theorem fromUtf8Lossy_utf8 (s : Str) : fromUtf8Lossy (utf8 s) = s := by
  unfold fromUtf8Lossy
  induction s with
  | nil => rfl
  | cons c s ih =>
      have hcons : utf8 (c :: s) = String.utf8EncodeChar c ++ utf8 s := rfl
      rw [hcons, lossyFrom_char, ih]

end Omoplata
