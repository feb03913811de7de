-- SUMMARY: Which numbers of a packfile are read as they are written, and which lose bits.
import Omoplata.Lib.Varint
import Omoplata.Git.Pack

/-!
# Numbers in packfiles

The three readers keep a number in 64 bits. A shift fails only when it goes by 64 or more, so
the bits that it moves out of the word are lost. The limit on sizes catches most of such
numbers, as what is left of them is still too large.
-/

open Codec Varint

namespace Omoplata

namespace Pack

/-! ## What the loops read -/

theorem checkedShl_of_lt {v shift : Nat} (h : shift < 64) : checkedShl v shift = some (v <<< shift % 2 ^ 64) :=
  if_pos h

theorem checkedShl_of_le {v shift : Nat} (h : 64 ≤ shift) : checkedShl v shift = none := if_neg (Nat.not_lt.mpr h)

/-- What a word holds of a number keeps the groups below a shift. -/
theorem le_word {size shift rest : Nat} (hsize : size < 2 ^ shift) (hshift : shift ≤ 64) :
    size ≤ (size + 2 ^ shift * rest) % 2 ^ 64 := by
  have hdvd : 2 ^ shift ∣ 2 ^ 64 := Nat.pow_dvd_pow 2 hshift
  have hmod : (size + 2 ^ shift * rest) % 2 ^ 64 % 2 ^ shift = size := by
    rw [Nat.mod_mod_of_dvd _ hdvd, Nat.add_mul_mod_self_left, Nat.mod_eq_of_lt hsize]
  calc size = (size + 2 ^ shift * rest) % 2 ^ 64 % 2 ^ shift := hmod.symm
    _ ≤ (size + 2 ^ shift * rest) % 2 ^ 64 := Nat.mod_le _ _

/-- A group more, below the next shift. -/
theorem group_lt {size shift b : Nat} (hsize : size < 2 ^ shift) : size + 2 ^ shift * (b % 128) < 2 ^ (shift + 7) := by
  have hb : b % 128 ≤ 127 := Nat.le_of_lt_succ (Nat.mod_lt _ (by decide))
  calc size + 2 ^ shift * (b % 128) < 2 ^ shift + 2 ^ shift * 127 :=
        Nat.add_lt_add_of_lt_of_le hsize (Nat.mul_le_mul_left _ hb)
    _ = 2 ^ (shift + 7) := by rw [Nat.pow_add]; ring

theorem shifted_group (size shift b rest : Nat) :
    size + 2 ^ shift * b + 2 ^ (shift + 7) * rest = size + 2 ^ shift * (b + 128 * rest) := by
  rw [Nat.pow_add]
  ring

/-- The word of a number, group by group. -/
theorem word_cons (size shift : Nat) (c : UInt8) (enc : List UInt8) :
    ((size + 2 ^ shift * (c.toNat % 128)) % 2 ^ 64 + 2 ^ (shift + 7) * value enc) % 2 ^ 64 =
      (size + 2 ^ shift * value (c :: enc)) % 2 ^ 64 := by
  rw [Nat.mod_add_mod, shifted_group, value]

theorem word_lt {size shift b : Nat} (hsize : size < 2 ^ shift) :
    (size + 2 ^ shift * (b % 128)) % 2 ^ 64 < 2 ^ (shift + 7) :=
  Nat.lt_of_le_of_lt (Nat.mod_le _ _) (group_lt hsize)

theorem value_singleton (c : UInt8) : value [c] = c.toNat % 128 := by
  rw [value, value, Nat.mul_zero, Nat.add_zero]

/-- No numeral has room in a word where it starts behind it. -/
theorem not_exists_beyond {shift : Nat} {bytes rest : List UInt8} {P : List UInt8 → Prop} (hshift : 64 ≤ shift) :
    ¬ ∃ enc, bytes = enc ++ rest ∧ Numeral enc ∧ shift + 7 * enc.length < 71 ∧ P enc := by
  rintro ⟨enc, -, hnum, hlength, -⟩
  have hpos := List.length_pos_iff.mpr hnum.ne_nil
  omega

/-- The rest of an entry's size: a numeral whose groups all start within a word, of which the
word they leave is within the limit. -/
theorem readSizeRest_eq_ok_iff {size shift : Nat} {bytes rest : List UInt8} {v : Nat} (hsize : size < 2 ^ shift) :
    readSizeRest size shift bytes = .ok (v, rest) ↔
      ∃ enc, bytes = enc ++ rest ∧ Numeral enc ∧ shift + 7 * enc.length < 71 ∧
        v = (size + 2 ^ shift * value enc) % 2 ^ 64 ∧ v ≤ maxObjectSize := by
  induction bytes generalizing size shift with
  | nil =>
      refine iff_of_false ?_ not_exists_numeral_nil
      intro h
      cases h
  | cons c cs ih =>
      unfold readSizeRest
      by_cases hshift : shift < 64
      · rw [exists_numeral_cons]
        simp only [checkedShl_of_lt hshift, or_shiftLeft_mod hsize hshift, value_singleton]
        have hlt := word_lt (b := c.toNat) hsize
        by_cases hc : 128 ≤ c.toNat
        · simp only [if_pos hc, ← word_cons]
          -- What has been read stays below any longer number, so an error here is one at the end.
          split
          · rename_i hmax
            refine iff_of_false (fun h => by cases h) ?_
            rintro ⟨enc, -, hnum, hlength, rfl, hle⟩
            have hpos := List.length_pos_iff.mpr hnum.ne_nil
            rw [List.length_cons] at hlength
            exact absurd ((le_word hlt (by omega)).trans hle) (Nat.not_le.mpr hmax)
          · rw [ih hlt]
            refine exists_congr fun enc => and_congr_right fun _ => and_congr_right fun _ => and_congr_left fun _ => ?_
            rw [List.length_cons]
            omega
        · rw [if_neg hc, if_neg hc]
          have hlength : shift + 7 * [c].length < 71 := by
            rw [List.length_singleton]
            omega
          split
          · rename_i hmax
            refine iff_of_false (fun h => by cases h) ?_
            rintro ⟨-, -, rfl, hle⟩
            exact absurd hle (Nat.not_le.mpr hmax)
          · rename_i hmax
            rw [Except.ok.injEq, Prod.mk.injEq]
            constructor
            · rintro ⟨rfl, rfl⟩
              exact ⟨rfl, hlength, rfl, Nat.not_lt.mp hmax⟩
            · rintro ⟨rfl, -, rfl, -⟩
              exact ⟨rfl, rfl⟩
      · rw [checkedShl_of_le (Nat.not_lt.mp hshift)]
        exact iff_of_false (fun h => by cases h) (not_exists_beyond (Nat.not_lt.mp hshift))

/-- A size in front of a delta: the limit holds for all groups but the last. -/
theorem readDeltaSizeFrom_eq_ok_iff {size shift : Nat} {bytes rest : List UInt8} {v : Nat}
    (hsize : size < 2 ^ shift) (hmax : size ≤ maxObjectSize) :
    readDeltaSizeFrom size shift bytes = .ok (v, rest) ↔
      ∃ enc, bytes = enc ++ rest ∧ Numeral enc ∧ shift + 7 * enc.length < 71 ∧
        v = (size + 2 ^ shift * value enc) % 2 ^ 64 ∧
        size + 2 ^ shift * value enc.dropLast ≤ maxObjectSize := by
  induction bytes generalizing size shift with
  | nil =>
      refine iff_of_false ?_ not_exists_numeral_nil
      intro h
      cases h
  | cons c cs ih =>
      unfold readDeltaSizeFrom
      by_cases hshift : shift < 64
      · rw [exists_numeral_cons]
        simp only [checkedShl_of_lt hshift, or_shiftLeft_mod hsize hshift, value_singleton]
        have hlt := word_lt (b := c.toNat) hsize
        by_cases hc : 128 ≤ c.toNat
        · rw [if_neg (Nat.not_lt.mpr hc), if_pos hc]
          -- A group that others follow starts seven bits below them, so it loses nothing.
          have hplain : ∀ enc, Numeral enc → shift + 7 * (c :: enc).length < 71 →
              size + 2 ^ shift * value (c :: enc).dropLast =
                (size + 2 ^ shift * (c.toNat % 128)) % 2 ^ 64 + 2 ^ (shift + 7) * value enc.dropLast := by
            intro enc hnum hlength
            have hpos := List.length_pos_iff.mpr hnum.ne_nil
            rw [List.length_cons] at hlength
            have hword : (2 : Nat) ^ (shift + 7) ≤ 2 ^ 64 := Nat.pow_le_pow_right (by decide) (by omega)
            rw [List.dropLast_cons_of_ne_nil hnum.ne_nil, value, ← shifted_group,
              Nat.mod_eq_of_lt ((group_lt hsize).trans_le hword)]
          split
          · rename_i hover
            refine iff_of_false (fun h => by cases h) ?_
            rintro ⟨enc, -, hnum, hlength, -, hle⟩
            rw [hplain enc hnum hlength] at hle
            exact absurd ((Nat.le_add_right _ _).trans hle) (Nat.not_le.mpr hover)
          · rename_i hover
            rw [ih hlt (Nat.not_lt.mp hover)]
            refine exists_congr fun enc => and_congr_right fun _ => and_congr_right fun hnum => ?_
            have hlength : shift + 7 + 7 * enc.length < 71 ↔ shift + 7 * (c :: enc).length < 71 := by
              rw [List.length_cons]
              omega
            rw [hlength, word_cons]
            exact and_congr_right fun hlength => by rw [hplain enc hnum hlength]
        · rw [if_pos (Nat.not_le.mp hc), if_neg hc, Except.ok.injEq, Prod.mk.injEq]
          constructor
          · rintro ⟨rfl, rfl⟩
            refine ⟨rfl, ?_, rfl, hmax⟩
            rw [List.length_singleton]
            omega
          · rintro ⟨rfl, -, rfl, -⟩
            exact ⟨rfl, rfl⟩
      · rw [checkedShl_of_le (Nat.not_lt.mp hshift)]
        exact iff_of_false (fun h => by cases h) (not_exists_beyond (Nat.not_lt.mp hshift))

/-- A group less below what has been read, in a word. -/
theorem shiftLeft_or_mod (off b : Nat) :
    (off % 2 ^ 64 + 1) <<< 7 % 2 ^ 64 ||| b % 128 = ((off + 1) * 128 + b % 128) % 2 ^ 64 := by
  have hb : b % 128 < 2 ^ 7 := Nat.mod_lt _ (by decide)
  have hgroup : (off % 2 ^ 64 + 1) <<< 7 % 2 ^ 64 = ((off + 1) % 2 ^ 57) <<< 7 := by
    rw [Nat.shiftLeft_eq, Nat.shiftLeft_eq]
    omega
  rw [hgroup, ← Nat.shiftLeft_add_eq_or_of_lt hb, Nat.shiftLeft_eq]
  omega

/-- The groups of a number that are followed by others, behind ones that have been read: none
of them fills a word up to its last value. -/
def NeverFull (off : Nat) (enc : List UInt8) : Prop :=
  ∀ front, front <+: enc → front ≠ enc → (biasedFrom off front + 1) % 2 ^ 64 ≠ 0

theorem neverFull_cons {off : Nat} {c : UInt8} {enc : List UInt8} :
    NeverFull off (c :: enc) ↔
      (off + 1) % 2 ^ 64 ≠ 0 ∧ NeverFull ((off + 1) * 128 + c.toNat % 128) enc := by
  constructor
  · intro h
    refine ⟨h [] List.nil_prefix (List.cons_ne_nil _ _).symm, fun front hfront hne => ?_⟩
    exact h (c :: front) (List.cons_prefix_cons.mpr ⟨rfl, hfront⟩) fun heq => hne (List.cons.inj heq).2
  · rintro ⟨hoff, h⟩ front hfront hne
    cases front with
    | nil => exact hoff
    | cons d front =>
        obtain ⟨rfl, htail⟩ := List.cons_prefix_cons.mp hfront
        exact h front htail fun heq => hne (heq ▸ rfl)

theorem neverFull_nil (off : Nat) : NeverFull off [] := fun _ hfront hne => absurd (List.prefix_nil.mp hfront) hne

/-- The rest of a back-offset: a numeral none of whose groups fills the word. -/
theorem readOffsetRest_eq_ok_iff {off v : Nat} {bytes rest : List UInt8} :
    readOffsetRest (off % 2 ^ 64) bytes = .ok (v, rest) ↔
      ∃ enc, bytes = enc ++ rest ∧ Numeral enc ∧ v = biasedFrom off enc % 2 ^ 64 ∧ NeverFull off enc := by
  induction bytes generalizing off with
  | nil =>
      refine iff_of_false ?_ not_exists_numeral_nil
      intro h
      cases h
  | cons c cs ih =>
      have hfull : off % 2 ^ 64 + 1 ≥ 2 ^ 64 ↔ (off + 1) % 2 ^ 64 = 0 := by omega
      rw [exists_numeral_cons]
      unfold readOffsetRest
      simp only [shiftLeft_or_mod, hfull, neverFull_cons, biasedFrom]
      by_cases hoff : (off + 1) % 2 ^ 64 = 0
      · rw [if_pos hoff]
        refine iff_of_false (fun h => by cases h) ?_
        split
        · rintro ⟨enc, -, -, -, hne, -⟩
          exact hne hoff
        · rintro ⟨-, -, hne, -⟩
          exact hne hoff
      · rw [if_neg hoff]
        by_cases hc : 128 ≤ c.toNat
        · rw [if_pos hc, if_pos hc, ih]
          simp only [ne_eq, hoff, not_false_eq_true, true_and]
        · rw [if_neg hc, if_neg hc, Except.ok.injEq, Prod.mk.injEq]
          constructor
          · rintro ⟨rfl, rfl⟩
            exact ⟨rfl, rfl, hoff, neverFull_nil _⟩
          · rintro ⟨rfl, rfl, -⟩
            exact ⟨rfl, rfl⟩

/-! ## What the readers read -/

theorem readEntryHeader_eq_ok_iff {bytes rest : List UInt8} {typeId v : Nat} :
    readEntryHeader bytes = .ok ((typeId, v), rest) ↔
      ∃ enc, bytes = enc ++ rest ∧ Numeral enc ∧ ∃ c cs, enc = c :: cs ∧ cs.length < 10 ∧
        typeId = c.toNat / 16 % 8 ∧ v = (c.toNat % 16 + 16 * value cs) % 2 ^ 64 ∧ (cs = [] ∨ v ≤ maxObjectSize) := by
  cases bytes with
  | nil =>
      refine iff_of_false ?_ not_exists_numeral_nil
      intro h
      cases h
  | cons c bytes =>
      have hsize : c.toNat % 16 < 2 ^ 4 := Nat.mod_lt _ (by decide)
      rw [exists_numeral_cons]
      unfold readEntryHeader
      by_cases hc : 128 ≤ c.toNat
      · simp only [ge_iff_le, if_pos hc, map_eq_ok, Prod.exists, Prod.mk.injEq]
        constructor
        · rintro ⟨size, rest', hread, ⟨rfl, rfl⟩, rfl⟩
          obtain ⟨enc, rfl, hnum, hlength, hsize, hmax⟩ := (readSizeRest_eq_ok_iff hsize).mp hread
          exact ⟨enc, rfl, hnum, c, enc, rfl, by omega, rfl, hsize, .inr hmax⟩
        · rintro ⟨enc, rfl, hnum, c', cs, heq, hlength, rfl, hv, hmax⟩
          obtain ⟨rfl, rfl⟩ := List.cons.inj heq
          refine ⟨v, rest, (readSizeRest_eq_ok_iff hsize).mpr ⟨enc, rfl, hnum, by omega, hv, ?_⟩, ⟨rfl, rfl⟩, rfl⟩
          exact hmax.resolve_left hnum.ne_nil
      · simp only [ge_iff_le, if_neg hc, Except.ok.injEq, Prod.mk.injEq]
        have hword : c.toNat % 16 = (c.toNat % 16 + 16 * value []) % 2 ^ 64 := by
          rw [value]
          omega
        constructor
        · rintro ⟨⟨rfl, rfl⟩, rfl⟩
          exact ⟨rfl, c, [], rfl, by decide, rfl, hword, .inl rfl⟩
        · rintro ⟨rfl, c', cs, heq, -, rfl, rfl, -⟩
          obtain ⟨rfl, rfl⟩ := List.cons.inj heq
          exact ⟨⟨rfl, hword⟩, rfl⟩

theorem readDeltaSize_eq_ok_iff {bytes rest : List UInt8} {v : Nat} :
    readDeltaSize bytes = .ok (v, rest) ↔
      ∃ enc, bytes = enc ++ rest ∧ Numeral enc ∧ enc.length < 11 ∧
        v = value enc % 2 ^ 64 ∧ value enc.dropLast ≤ maxObjectSize := by
  unfold readDeltaSize
  rw [readDeltaSizeFrom_eq_ok_iff (by decide) (by decide)]
  simp only [Nat.pow_zero, Nat.one_mul, Nat.zero_add]
  refine exists_congr fun enc => and_congr_right fun _ => and_congr_right fun _ => and_congr_left fun _ => ?_
  omega

theorem readOfsDeltaOffset_eq_ok_iff {bytes rest : List UInt8} {v : Nat} :
    readOfsDeltaOffset bytes = .ok (v, rest) ↔
      ∃ enc, bytes = enc ++ rest ∧ Numeral enc ∧ ∃ c cs, enc = c :: cs ∧
        v = biased enc % 2 ^ 64 ∧ NeverFull (c.toNat % 128) cs := by
  cases bytes with
  | nil =>
      refine iff_of_false ?_ not_exists_numeral_nil
      intro h
      cases h
  | cons c bytes =>
      have hword : c.toNat % 128 % 2 ^ 64 = c.toNat % 128 := by omega
      rw [exists_numeral_cons]
      unfold readOfsDeltaOffset
      by_cases hc : 128 ≤ c.toNat
      · simp only [ge_iff_le, if_pos hc]
        have hrest := @readOffsetRest_eq_ok_iff (c.toNat % 128) v bytes rest
        rw [hword] at hrest
        rw [hrest]
        refine exists_congr fun enc => and_congr_right fun _ => and_congr_right fun _ => ?_
        constructor
        · rintro ⟨hv, hfull⟩
          exact ⟨c, enc, rfl, hv, hfull⟩
        · rintro ⟨c', cs, heq, hv, hfull⟩
          obtain ⟨rfl, rfl⟩ := List.cons.inj heq
          exact ⟨hv, hfull⟩
      · simp only [ge_iff_le, if_neg hc, Except.ok.injEq, Prod.mk.injEq]
        constructor
        · rintro ⟨rfl, rfl⟩
          exact ⟨rfl, c, [], rfl, hword.symm, neverFull_nil _⟩
        · rintro ⟨rfl, c', cs, heq, rfl, -⟩
          exact ⟨hword.symm, rfl⟩

/-! ## Exactness -/

/-- The header of an entry is an error or what its bytes say. -/
def ExactEntryHeader (bytes : List UInt8) : Prop :=
  ∀ typeId size rest, readEntryHeader bytes = .ok ((typeId, size), rest) →
    ∃ c cs, bytes = c :: cs ++ rest ∧ Numeral (c :: cs) ∧
      typeId = c.toNat / 16 % 8 ∧ size = c.toNat % 16 + 16 * value cs

/-- A back-offset is an error or what its bytes say. -/
def ExactOfsDeltaOffset (bytes : List UInt8) : Prop :=
  ∀ off rest, readOfsDeltaOffset bytes = .ok (off, rest) → ∃ enc, bytes = enc ++ rest ∧ Numeral enc ∧ off = biased enc

/-- A size in front of a delta is an error or what its bytes say. -/
def ExactDeltaSize (bytes : List UInt8) : Prop :=
  ∀ size rest, readDeltaSize bytes = .ok (size, rest) → ∃ enc, bytes = enc ++ rest ∧ Numeral enc ∧ size = value enc

/-- Nine bytes behind the first, the last of them in the bits that no word holds, and a size
within the limit without it. -/
def WideEntryHeader (bytes : List UInt8) : Prop :=
  ∃ c front last rest, bytes = c :: front ++ last :: rest ∧ front.length = 8 ∧ (∀ b ∈ c :: front, 128 ≤ b.toNat) ∧
    c.toNat % 16 + 16 * value front ≤ maxObjectSize ∧ last.toNat < 128 ∧ last.toNat ≠ 0 ∧ last.toNat % 16 = 0

/-- A number beyond a word, none of whose groups fills the word. -/
def WideOfsDeltaOffset (bytes : List UInt8) : Prop :=
  ∃ c cs rest, bytes = c :: cs ++ rest ∧ Numeral (c :: cs) ∧ 2 ^ 64 ≤ biased (c :: cs) ∧ NeverFull (c.toNat % 128) cs

/-- Ten bytes, the last of them above the highest bit of a word, and a size within the limit
without it. -/
def WideDeltaSize (bytes : List UInt8) : Prop :=
  ∃ front last rest, bytes = front ++ last :: rest ∧ front.length = 9 ∧ (∀ b ∈ front, 128 ≤ b.toNat) ∧
    value front ≤ maxObjectSize ∧ last.toNat < 128 ∧ 2 ≤ last.toNat

theorem value_concat {front : List UInt8} (last : UInt8) {count : Nat} (hlength : front.length = count) :
    value (front ++ [last]) = value front + 128 ^ count * (last.toNat % 128) := by
  rw [value_append, value_singleton, hlength]

theorem exactEntryHeader_iff (bytes : List UInt8) : ExactEntryHeader bytes ↔ ¬ WideEntryHeader bytes := by
  constructor
  · rintro hexact ⟨c, front, last, rest, rfl, hlength, hfront, hmax, hlast, hne, hmod⟩
    have hnum : Numeral (c :: (front ++ [last])) := numeral_iff.mpr ⟨c :: front, last, rfl, hfront, hlast⟩
    have hvalue := value_concat last hlength
    have hword : c.toNat % 16 + 16 * value front = (c.toNat % 16 + 16 * value (front ++ [last])) % 2 ^ 64 := by
      rw [hvalue]
      unfold maxObjectSize at hmax
      omega
    have hsplit : c :: front ++ last :: rest = c :: (front ++ [last]) ++ rest := List.append_cons (c :: front) last rest
    have hread : readEntryHeader (c :: front ++ last :: rest) =
        .ok ((c.toNat / 16 % 8, c.toNat % 16 + 16 * value front), rest) := by
      refine readEntryHeader_eq_ok_iff.mpr ⟨c :: (front ++ [last]), hsplit, hnum, c, _, rfl, ?_, rfl, hword, .inr hmax⟩
      rw [List.length_append, List.length_singleton, hlength]
      decide
    obtain ⟨c', cs, heq, hnum', -, hsize⟩ := hexact _ _ rest hread
    obtain ⟨hcons, -⟩ := hnum.append_inj hnum' (hsplit.symm.trans heq)
    obtain ⟨rfl, rfl⟩ := List.cons.inj hcons
    rw [hvalue] at hsize
    omega
  · rintro hnot typeId size rest hread
    obtain ⟨_, rfl, hnum, c, cs, rfl, hlength, rfl, hsize, hmax⟩ := readEntryHeader_eq_ok_iff.mp hread
    refine ⟨c, cs, rfl, hnum, rfl, hsize.trans (Nat.mod_eq_of_lt ?_)⟩
    by_cases hnine : cs.length = 9
    -- Only a ninth group starts in the word and ends behind it: it has four bits left.
    · obtain ⟨front, last, heq, hfront, hlast⟩ := numeral_iff.mp hnum
      cases front with
      | nil =>
          obtain ⟨-, rfl⟩ := List.cons.inj heq
          cases hnine
      | cons c' front =>
          rw [List.cons_append, List.cons.injEq] at heq
          obtain ⟨rfl, rfl⟩ := heq
          rw [List.length_append, List.length_singleton, Nat.succ_inj] at hnine
          have hlt := (value_lt front).trans_le (Nat.pow_le_pow_right (by decide) hnine.le)
          have hle : size ≤ maxObjectSize :=
            hmax.resolve_left (List.append_ne_nil_of_right_ne_nil _ (List.cons_ne_nil _ _))
          have hwide : ¬ (c.toNat % 16 + 16 * value front ≤ maxObjectSize ∧ last.toNat ≠ 0 ∧ last.toNat % 16 = 0) := by
            rintro ⟨hfit, hne, hmod⟩
            exact hnot ⟨c, front, last, rest, (List.append_cons (c :: front) last rest).symm, hnine, hfront, hfit, hlast,
              hne, hmod⟩
          rw [value_concat _ hnine] at hsize ⊢
          unfold maxObjectSize at hle hwide
          omega
    · have hlt := (value_lt cs).trans_le (Nat.pow_le_pow_right (by decide) (by omega : cs.length ≤ 8))
      omega

theorem exactOfsDeltaOffset_iff (bytes : List UInt8) : ExactOfsDeltaOffset bytes ↔ ¬ WideOfsDeltaOffset bytes := by
  constructor
  · rintro hexact ⟨c, cs, rest, rfl, hnum, hwide, hfull⟩
    obtain ⟨enc, heq, hnum', hoff⟩ := hexact _ rest
      (readOfsDeltaOffset_eq_ok_iff.mpr ⟨c :: cs, rfl, hnum, c, cs, rfl, rfl, hfull⟩)
    obtain ⟨rfl, -⟩ := hnum.append_inj hnum' heq
    omega
  · rintro hnot off rest hread
    obtain ⟨enc, rfl, hnum, c, cs, rfl, rfl, hfull⟩ := readOfsDeltaOffset_eq_ok_iff.mp hread
    refine ⟨c :: cs, rfl, hnum, Nat.mod_eq_of_lt (Nat.lt_of_not_le fun hwide => ?_)⟩
    exact hnot ⟨c, cs, rest, rfl, hnum, hwide, hfull⟩

theorem exactDeltaSize_iff (bytes : List UInt8) : ExactDeltaSize bytes ↔ ¬ WideDeltaSize bytes := by
  constructor
  · rintro hexact ⟨front, last, rest, rfl, hlength, hfront, hmax, hlast, htwo⟩
    have hnum : Numeral (front ++ [last]) := numeral_iff.mpr ⟨front, last, rfl, hfront, hlast⟩
    have hvalue := value_concat last hlength
    have hsplit : front ++ last :: rest = front ++ [last] ++ rest := List.append_cons front last rest
    have hread : readDeltaSize (front ++ last :: rest) = .ok (value (front ++ [last]) % 2 ^ 64, rest) := by
      refine readDeltaSize_eq_ok_iff.mpr ⟨front ++ [last], hsplit, hnum, ?_, rfl, ?_⟩
      · rw [List.length_append, List.length_singleton, hlength]
        decide
      · rw [List.dropLast_concat]
        exact hmax
    obtain ⟨enc, heq, hnum', hsize⟩ := hexact _ rest hread
    obtain ⟨rfl, -⟩ := hnum.append_inj hnum' (hsplit.symm.trans heq)
    omega
  · rintro hnot size rest hread
    obtain ⟨enc, rfl, hnum, hlength, rfl, hmax⟩ := readDeltaSize_eq_ok_iff.mp hread
    refine ⟨enc, rfl, hnum, Nat.mod_eq_of_lt ?_⟩
    by_cases hten : enc.length = 10
    -- A tenth group has one bit left.
    · obtain ⟨front, last, rfl, hfront, hlast⟩ := numeral_iff.mp hnum
      rw [List.dropLast_concat] at hmax
      rw [List.length_append, List.length_singleton, Nat.succ_inj] at hten
      have hone : last.toNat < 2 := by
        refine Nat.lt_of_not_le fun htwo => hnot ⟨front, last, rest, ?_, hten, hfront, hmax, hlast, htwo⟩
        exact (List.append_cons front last rest).symm
      rw [value_concat _ hten]
      unfold maxObjectSize at hmax
      omega
    · have hlt := (value_lt enc).trans_le (Nat.pow_le_pow_right (by decide) (by omega : enc.length ≤ 9))
      omega

/-- Each reader either fails or gives the number that is written, except where bits move out of
the word unnoticed: exactly at the wide headers, back-offsets and sizes. -/
theorem numbers_exact_iff (data : List UInt8) (pos : Nat) :
    (ExactEntryHeader (data.drop pos) ↔ ¬ WideEntryHeader (data.drop pos)) ∧
    (ExactOfsDeltaOffset (data.drop pos) ↔ ¬ WideOfsDeltaOffset (data.drop pos)) ∧
    (ExactDeltaSize (data.drop pos) ↔ ¬ WideDeltaSize (data.drop pos)) :=
  ⟨exactEntryHeader_iff _, exactOfsDeltaOffset_iff _, exactDeltaSize_iff _⟩

/-- A header and a size that say `2 ^ 64` more than the 5 and the 0 that are read, and a
back-offset beyond a word. -/
theorem numbers_lose_bits :
    ¬ ExactEntryHeader [0x95, 0x80, 0x80, 0x80, 0x80, 0x80, 0x80, 0x80, 0x80, 0x10] ∧
    ¬ ExactOfsDeltaOffset [0x82, 0x80, 0x80, 0x80, 0x80, 0x80, 0x80, 0x80, 0x80, 0x00] ∧
    ¬ ExactDeltaSize [0x80, 0x80, 0x80, 0x80, 0x80, 0x80, 0x80, 0x80, 0x80, 0x02] := by
  have hzeros : ∀ n, ∀ b ∈ List.replicate n (0x80 : UInt8), 128 ≤ b.toNat := fun n =>
    List.forall_mem_replicate.mpr (.inr (by decide))
  have hfront : ∀ c : UInt8, 128 ≤ c.toNat → ∀ b ∈ c :: List.replicate 8 0x80, 128 ≤ b.toNat := fun c hc =>
    List.forall_mem_cons.mpr ⟨hc, hzeros 8⟩
  refine ⟨fun h => (exactEntryHeader_iff _).mp h ?_, fun h => (exactOfsDeltaOffset_iff _).mp h ?_,
    fun h => (exactDeltaSize_iff _).mp h ?_⟩
  · exact ⟨0x95, List.replicate 8 0x80, 0x10, [], rfl, rfl, hfront _ (by decide), by decide, by decide, by decide,
      by decide⟩
  · refine ⟨0x82, [0x80, 0x80, 0x80, 0x80, 0x80, 0x80, 0x80, 0x80, 0x00], [], rfl, ?_, by decide, ?_⟩
    · exact numeral_iff.mpr ⟨0x82 :: List.replicate 8 0x80, 0x00, rfl, hfront _ (by decide), by decide⟩
    · simp only [neverFull_cons, neverFull_nil, and_true]
      decide
  · exact ⟨List.replicate 9 0x80, 0x02, [], rfl, rfl, hzeros 9, by decide, by decide, by decide⟩

end Pack

end Omoplata
