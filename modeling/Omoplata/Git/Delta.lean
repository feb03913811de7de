-- SUMMARY: Deltas as instructions: every way of writing them down is applied, and nothing else is.
import Omoplata.Git.Numbers

/-!
# Deltas

An instruction copies a range of the base or inserts bytes of its own. The opcode of a copy
says which bytes of its offset and its size are there, and the others are zero, so that a copy
has more than one code.
-/

open Codec Varint

namespace Omoplata

namespace Pack

/-- An instruction of a delta. -/
inductive Instruction where
  | copy (off size : Nat)
  | insert (bytes : List UInt8)
  deriving DecidableEq

/-- What an instruction adds to the target. -/
def Instruction.chunk (base : List UInt8) : Instruction → List UInt8
  | copy off size => (base.drop off).take size
  | insert bytes => bytes

/-- A copy stays in the base. -/
def Instruction.InBase (base : List UInt8) : Instruction → Prop
  | copy off size => off + size ≤ base.length
  | insert _ => True

instance (base : List UInt8) : (i : Instruction) → Decidable (i.InBase base)
  | .copy off size => inferInstanceAs (Decidable (off + size ≤ base.length))
  | .insert _ => inferInstanceAs (Decidable True)

/-! ## Codes -/

/-- So many places of a number in an opcode: the bit that selects each, and its shift. -/
def places : Nat → Nat → Nat → List (Nat × Nat)
  | _, _, 0 => []
  | bit, shift, count + 1 => (bit, shift) :: places (bit + 1) (shift + 8) count

/-- The byte of a number at a shift. -/
def byteAt (v shift : Nat) : Nat := v / 2 ^ shift % 256

/-- The bytes of a number that an opcode selects. -/
def selectedBytes (opcode : UInt8) (v : Nat) : List (Nat × Nat) → List UInt8
  | [] => []
  | (bit, shift) :: places =>
      if opcode.toNat.testBit bit then UInt8.ofNat (byteAt v shift) :: selectedBytes opcode v places
      else selectedBytes opcode v places

/-- The bytes of a number that an opcode leaves out are zero. -/
def LeavesOutZeros (opcode : UInt8) (v : Nat) (places : List (Nat × Nat)) : Prop :=
  ∀ p ∈ places, opcode.toNat.testBit p.1 = false → byteAt v p.2 = 0

/-- The size that a copy stands for. -/
def copySize (coded : Nat) : Nat := if coded = 0 then 0x10000 else coded

/-- The codes of an instruction. -/
inductive Instruction.Encodes : Instruction → List UInt8 → Prop where
  | copy {opcode : UInt8} {off coded : Nat} (hopcode : 128 ≤ opcode.toNat) (hoff : off < 2 ^ 32)
      (hcoded : coded < 2 ^ 24) (hoffZeros : LeavesOutZeros opcode off (places 0 0 4))
      (hcodedZeros : LeavesOutZeros opcode coded (places 4 0 3)) :
      Encodes (.copy off (copySize coded))
        (opcode :: (selectedBytes opcode off (places 0 0 4) ++ selectedBytes opcode coded (places 4 0 3)))
  | insert {bytes : List UInt8} (hpos : 0 < bytes.length) (hmax : bytes.length < 128) :
      Encodes (.insert bytes) (UInt8.ofNat bytes.length :: bytes)

/-! ## Reading codes -/

theorem mod_next (w shift : Nat) : w % 2 ^ (shift + 8) = w % 2 ^ shift + 2 ^ shift * byteAt w shift := by
  rw [Nat.pow_add, Nat.mod_mul]
  rfl

/-- A number below a unit and a multiple of the unit are known from their sum. -/
theorem add_mul_inj {unit a a' : Nat} (x x' : Nat) (ha : a < unit) (ha' : a' < unit) :
    a + unit * x = a' + unit * x' ↔ a = a' ∧ x = x' := by
  constructor
  · intro h
    have hmod : a = a' := by
      rw [← Nat.mod_eq_of_lt ha, ← Nat.mod_eq_of_lt ha', ← Nat.add_mul_mod_self_left a unit x, h,
        Nat.add_mul_mod_self_left]
    subst hmod
    exact ⟨rfl, Nat.eq_of_mul_eq_mul_left (Nat.zero_lt_of_lt ha) (Nat.add_left_cancel h)⟩
  · rintro ⟨rfl, rfl⟩
    rfl

theorem byteAt_eq_iff {w shift : Nat} {b : UInt8} : byteAt w shift = b.toNat ↔ b = UInt8.ofNat (byteAt w shift) := by
  have hlt : byteAt w shift < UInt8.size := Nat.mod_lt _ (by decide)
  constructor
  · intro h
    rw [h, UInt8.ofNat_toNat]
  · intro h
    rw [h, UInt8.toNat_ofNat_of_lt' hlt]

/-- The bytes that an opcode selects are read as the number they are bytes of. -/
theorem readSelected_eq_ok_iff {opcode : UInt8} (count : Nat) {bit shift v w : Nat} {bytes rest : List UInt8}
    (hv : v < 2 ^ shift) :
    readSelected opcode (places bit shift count) v bytes = .ok (w, rest) ↔
      w % 2 ^ shift = v ∧ w < 2 ^ (shift + 8 * count) ∧
        bytes = selectedBytes opcode w (places bit shift count) ++ rest ∧
        LeavesOutZeros opcode w (places bit shift count) := by
  induction count generalizing bit shift v bytes with
  | zero =>
      unfold places readSelected selectedBytes
      rw [Except.ok.injEq, Prod.mk.injEq]
      constructor
      · rintro ⟨rfl, rfl⟩
        exact ⟨Nat.mod_eq_of_lt hv, hv, rfl, List.forall_mem_nil _⟩
      · rintro ⟨hmod, hlt, heq, -⟩
        have hw : w % 2 ^ shift = w := Nat.mod_eq_of_lt hlt
        exact ⟨(hw.symm.trans hmod).symm, heq⟩
  | succ count ih =>
      have hshift : shift + 8 + 8 * count = shift + 8 * (count + 1) := by omega
      unfold places readSelected selectedBytes LeavesOutZeros
      rw [List.forall_mem_cons]
      by_cases hbit : opcode.toNat.testBit bit
      · simp only [if_pos hbit]
        cases bytes with
        | nil =>
            refine iff_of_false (fun h => by cases h) ?_
            rintro ⟨-, -, h, -⟩
            cases h
        | cons b bytes =>
            have hbyte : v + 2 ^ shift * b.toNat < 2 ^ (shift + 8) := by
              have hb : b.toNat ≤ 255 := Nat.le_of_lt_succ b.toNat_lt
              calc v + 2 ^ shift * b.toNat < 2 ^ shift + 2 ^ shift * 255 :=
                    Nat.add_lt_add_of_lt_of_le hv (Nat.mul_le_mul_left _ hb)
                _ = 2 ^ (shift + 8) := by rw [Nat.pow_add]; ring
            have hor : v ||| b.toNat <<< shift = v + 2 ^ shift * b.toNat := by
              rw [Nat.or_comm, ← Nat.shiftLeft_add_eq_or_of_lt hv, Nat.shiftLeft_eq, Nat.mul_comm, Nat.add_comm]
            have hread : (takeByte (b :: bytes) >>= fun r =>
                readSelected opcode (places (bit + 1) (shift + 8) count) (v ||| r.1.toNat <<< shift) r.2) =
                readSelected opcode (places (bit + 1) (shift + 8) count) (v + 2 ^ shift * b.toNat) bytes := by
              rw [← hor]
              rfl
            refine (Eq.congr_left hread).trans ?_
            rw [ih hbyte, mod_next, hshift, add_mul_inj _ _ (Nat.mod_lt _ (Nat.two_pow_pos _)) hv, byteAt_eq_iff,
              List.cons_append, List.cons.injEq]
            simp only [hbit, Bool.true_eq_false, false_implies, true_and]
            tauto
      -- A byte that is left out is a zero of the number.
      · simp only [if_neg hbit]
        have hnext : v < 2 ^ (shift + 8) := hv.trans (Nat.pow_lt_pow_right (by decide) (by omega))
        have hzero := add_mul_inj (byteAt w shift) 0 (Nat.mod_lt w (Nat.two_pow_pos shift)) hv
        rw [Nat.mul_zero, Nat.add_zero] at hzero
        rw [ih hnext, mod_next, hshift, hzero]
        simp only [Bool.not_eq_true] at hbit
        simp only [hbit, true_implies]
        tauto

theorem copyRange_eq_ok_iff {base chunk : List UInt8} {off coded : Nat} :
    copyRange base off coded = .ok chunk ↔
      off + copySize coded ≤ base.length ∧ chunk = (base.drop off).take (copySize coded) := by
  change (if off + copySize coded ≤ base.length then _ else _) = _ ↔ _
  split
  · rename_i hin
    rw [Except.ok.injEq]
    exact ⟨fun h => ⟨hin, h.symm⟩, fun h => h.2.symm⟩
  · rename_i hout
    exact iff_of_false (fun h => by cases h) fun h => hout h.1

/-- What an instruction with a code adds to the target. -/
def Adds (base chunk code : List UInt8) : Prop :=
  ∃ instr : Instruction, instr.Encodes code ∧ instr.InBase base ∧ chunk = instr.chunk base

theorem readInstruction_eq_ok_iff {base bytes chunk rest : List UInt8} :
    readInstruction base bytes = .ok (chunk, rest) ↔ ∃ code, Adds base chunk code ∧ bytes = code ++ rest := by
  constructor
  · intro h
    cases bytes with
    | nil => cases h
    | cons opcode bytes =>
        rw [readInstruction] at h
        split at h
        -- a copy: the selected bytes are an offset and a size, missing ones read as zero
        · rename_i hcopy
          obtain ⟨⟨off, l⟩, hoff, h⟩ := bind_eq_ok.mp h
          obtain ⟨⟨coded, l'⟩, hcoded, h⟩ := bind_eq_ok.mp h
          obtain ⟨range, hrange, h⟩ := bind_eq_ok.mp h
          rw [Except.ok.injEq, Prod.mk.injEq] at h
          obtain ⟨rfl, rfl⟩ := h
          obtain ⟨-, hoffMax, rfl, hoffZeros⟩ := (readSelected_eq_ok_iff 4 Nat.one_pos).mp hoff
          obtain ⟨-, hcodedMax, rfl, hcodedZeros⟩ := (readSelected_eq_ok_iff 3 Nat.one_pos).mp hcoded
          obtain ⟨hin, hchunk⟩ := copyRange_eq_ok_iff.mp hrange
          refine ⟨_, ⟨.copy off (copySize coded), .copy hcopy hoffMax hcodedMax hoffZeros hcodedZeros, hin, hchunk⟩, ?_⟩
          rw [List.cons_append, List.append_assoc]
        -- an insert: the opcode is the number of bytes behind it, and zero is refused
        · rename_i hinsert
          split at h
          · rename_i hne
            split at h
            · rename_i hlength
              rw [Except.ok.injEq, Prod.mk.injEq] at h
              obtain ⟨rfl, rfl⟩ := h
              have htake : (bytes.take opcode.toNat).length = opcode.toNat := List.length_take_of_le hlength
              have hpos : 0 < opcode.toNat := Nat.pos_of_ne_zero fun h0 => hne (UInt8.toNat_inj.mp h0)
              refine ⟨opcode :: bytes.take opcode.toNat, ⟨.insert (bytes.take opcode.toNat), ?_, trivial, rfl⟩, ?_⟩
              · have hcode := Instruction.Encodes.insert (htake.symm ▸ hpos : 0 < (bytes.take opcode.toNat).length)
                  (by rw [htake]; exact Nat.not_le.mp hinsert)
                rwa [htake, UInt8.ofNat_toNat] at hcode
              · rw [List.cons_append, List.take_append_drop]
            · cases h
          · cases h
  · rintro ⟨code, ⟨instr, hcode, hin, rfl⟩, rfl⟩
    cases hcode with
    | @copy opcode off coded hopcode hoff hcoded hoffZeros hcodedZeros =>
        rw [List.cons_append, List.append_assoc]
        rw [readInstruction, if_pos hopcode]
        refine bind_eq_ok.mpr ⟨(off, _), (readSelected_eq_ok_iff 4 Nat.one_pos).mpr
          ⟨Nat.mod_one _, hoff, rfl, hoffZeros⟩, ?_⟩
        refine bind_eq_ok.mpr ⟨(coded, rest), (readSelected_eq_ok_iff 3 Nat.one_pos).mpr
          ⟨Nat.mod_one _, hcoded, rfl, hcodedZeros⟩, ?_⟩
        exact bind_eq_ok.mpr ⟨_, copyRange_eq_ok_iff.mpr ⟨hin, rfl⟩, rfl⟩
    | @insert bytes hpos hmax =>
        have hopcode : (UInt8.ofNat bytes.length).toNat = bytes.length :=
          UInt8.toNat_ofNat_of_lt' (hmax.trans (by decide))
        have hne : UInt8.ofNat bytes.length ≠ 0 := by
          intro h0
          rw [h0] at hopcode
          exact absurd hopcode (Nat.ne_of_lt hpos)
        rw [List.cons_append, readInstruction, hopcode, if_neg (Nat.not_le.mpr hmax), if_pos hne,
          if_pos (by rw [List.length_append]; exact Nat.le_add_right _ _), List.take_left, List.drop_left]
        rfl

/-! ## Applying deltas -/

/-- The instructions are read exactly off their codes. -/
theorem instructions_eq_ok_iff {base bytes : List UInt8} {chunks : List (List UInt8)} :
    (instructions base).all bytes = .ok chunks ↔
      ∃ instrs codes, List.Forall₂ Instruction.Encodes instrs codes ∧ (∀ i ∈ instrs, i.InBase base) ∧
        bytes = codes.flatten ∧ chunks = instrs.map (Instruction.chunk base) := by
  rw [(instructions base).all_eq_ok_iff (Adds base) fun _ _ _ => readInstruction_eq_ok_iff]
  constructor
  · rintro ⟨codes, hcodes, rfl⟩
    induction hcodes with
    | nil => exact ⟨[], [], .nil, List.forall_mem_nil _, rfl, rfl⟩
    | cons hcode _ ih =>
        obtain ⟨instr, hcode, hin, rfl⟩ := hcode
        obtain ⟨instrs, codes', hcodes, hins, hflat, rfl⟩ := ih
        refine ⟨instr :: instrs, _ :: codes', .cons hcode hcodes, List.forall_mem_cons.mpr ⟨hin, hins⟩, ?_, rfl⟩
        rw [List.flatten_cons, List.flatten_cons, hflat]
  · rintro ⟨instrs, codes, hcodes, hins, rfl, rfl⟩
    refine ⟨codes, ?_, rfl⟩
    induction hcodes with
    | nil => exact .nil
    | cons hcode _ ih =>
        obtain ⟨hin, hins⟩ := List.forall_mem_cons.mp hins
        exact .cons ⟨_, hcode, hin, rfl⟩ (ih hins)

/-- What the instructions of a delta give together. -/
def target (base : List UInt8) (instrs : List Instruction) : List UInt8 := instrs.flatMap (Instruction.chunk base)

theorem applyDelta_eq_ok_iff {base delta out : List UInt8} :
    applyDelta base delta = .ok out ↔
      ∃ rest instrs codes, readDeltaSize delta = .ok (base.length, rest) ∧
        readDeltaSize rest = .ok (out.length, codes.flatten) ∧ out.length ≤ maxObjectSize ∧
        List.Forall₂ Instruction.Encodes instrs codes ∧ (∀ i ∈ instrs, i.InBase base) ∧ out = target base instrs := by
  unfold applyDelta
  simp only [ne_eq, ite_not]
  constructor
  · intro h
    obtain ⟨⟨srcSize, rest⟩, hsrc, h⟩ := bind_eq_ok.mp h
    simp only at h
    split at h
    · rename_i hsame
      obtain ⟨⟨tgtSize, bytes⟩, htgt, h⟩ := bind_eq_ok.mp h
      -- the three checks: the size of the base, the bound, the size of the result
      simp only at h
      split at h
      · cases h
      · rename_i hmax
        obtain ⟨chunks, hchunks, hout⟩ := bind_eq_ok.mp h
        split at hout
        · rename_i hlength
          obtain ⟨instrs, codes, hcodes, hins, rfl, rfl⟩ := instructions_eq_ok_iff.mp hchunks
          rw [Except.ok.injEq] at hout
          subst hsame hlength hout
          exact ⟨rest, instrs, codes, hsrc, htgt, Nat.not_lt.mp hmax, hcodes, hins, rfl⟩
        · cases hout
    · cases h
  · rintro ⟨rest, instrs, codes, hsrc, htgt, hmax, hcodes, hins, rfl⟩
    refine bind_eq_ok.mpr ⟨_, hsrc, ?_⟩
    simp only [if_true]
    refine bind_eq_ok.mpr ⟨_, htgt, ?_⟩
    simp only [if_neg (Nat.not_lt.mpr hmax)]
    refine bind_eq_ok.mpr ⟨_, instructions_eq_ok_iff.mpr ⟨instrs, codes, hcodes, hins, rfl, rfl⟩, ?_⟩
    exact if_pos rfl

theorem readDeltaSize_encode {n : Nat} (hn : n ≤ maxObjectSize) (rest : List UInt8) :
    readDeltaSize (encode n ++ rest) = .ok (n, rest) := by
  have hlength : (encode n).length ≤ 5 := length_encode_le 4 (hn.trans_lt (by decide))
  have hfront : value (encode n).dropLast ≤ maxObjectSize := by
    obtain ⟨front, last, heq, -⟩ := numeral_iff.mp (numeral_encode n)
    rw [heq, List.dropLast_concat]
    have hvalue := value_encode n
    rw [heq, value_append] at hvalue
    omega
  refine readDeltaSize_eq_ok_iff.mpr ⟨encode n, rfl, numeral_encode n, by omega, ?_, hfront⟩
  rw [value_encode, Nat.mod_eq_of_lt (hn.trans_lt (by decide))]

/-- Any way of writing down instructions on a base is applied as they say. Whatever is applied
is instructions that stay in the base, and gives as many bytes as the delta declares. -/
theorem applyDelta_exact (base : List UInt8) :
    (∀ instrs codes, List.Forall₂ Instruction.Encodes instrs codes → (∀ i ∈ instrs, i.InBase base) →
      base.length ≤ maxObjectSize → (target base instrs).length ≤ maxObjectSize →
      applyDelta base (encode base.length ++ encode (target base instrs).length ++ codes.flatten) =
        .ok (target base instrs)) ∧
    ∀ delta out, applyDelta base delta = .ok out →
      ∃ rest instrs codes, readDeltaSize delta = .ok (base.length, rest) ∧
        readDeltaSize rest = .ok (out.length, codes.flatten) ∧ List.Forall₂ Instruction.Encodes instrs codes ∧
        (∀ i ∈ instrs, i.InBase base) ∧ out = target base instrs := by
  constructor
  · intro instrs codes hcodes hins hbase htarget
    refine applyDelta_eq_ok_iff.mpr ⟨_, instrs, codes, ?_, readDeltaSize_encode htarget _, htarget, hcodes, hins, rfl⟩
    rw [List.append_assoc]
    exact readDeltaSize_encode hbase _
  · intro delta out h
    obtain ⟨rest, instrs, codes, hsrc, htgt, -, hcodes, hins, hout⟩ := applyDelta_eq_ok_iff.mp h
    exact ⟨rest, instrs, codes, hsrc, htgt, hcodes, hins, hout⟩

theorem applyDelta_exact_copies :
    applyDelta [1, 2, 3] (encode 3 ++ encode 5 ++ [0x91, 1, 2, 1, 9, 0x98, 0, 2]) = .ok [2, 3, 9, 1, 2] := by
  have hcodes : List.Forall₂ Instruction.Encodes [.copy 1 2, .insert [9], .copy 0 2]
      [[0x91, 1, 2], [1, 9], [0x98, 0, 2]] := by
    refine .cons ?_ (.cons ?_ (.cons ?_ .nil))
    · exact @Instruction.Encodes.copy 0x91 1 2 (by decide) (by decide) (by decide)
        (by unfold LeavesOutZeros; decide) (by unfold LeavesOutZeros; decide)
    · exact .insert (by decide) (by decide)
    · exact @Instruction.Encodes.copy 0x98 0 2 (by decide) (by decide) (by decide)
        (by unfold LeavesOutZeros; decide) (by unfold LeavesOutZeros; decide)
  have hins : ∀ i ∈ [Instruction.copy 1 2, .insert [9], .copy 0 2], i.InBase [1, 2, 3] := by decide
  exact (applyDelta_exact [1, 2, 3]).1 _ _ hcodes hins (by decide) (by decide)

end Pack

end Omoplata
