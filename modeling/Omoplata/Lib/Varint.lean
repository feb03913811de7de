-- SUMMARY: Numbers of any length in groups of seven bits, the lowest or the highest group first.
import Mathlib.Algebra.GroupWithZero.Nat
import Mathlib.Data.List.Basic
import Mathlib.Tactic.Ring

/-!
# Numbers of any length

A numeral goes on until the first byte without its high bit. Each byte gives seven bits. With
the lowest group first its value is a sum. With the highest group first, and one more added
for each byte that goes on, no number has two numerals.
-/

namespace Varint

/-- Bytes of which every one but the last goes on. -/
inductive Numeral : List UInt8 → Prop where
  | last {c : UInt8} (h : c.toNat < 128) : Numeral [c]
  | more {c : UInt8} {cs : List UInt8} (h : 128 ≤ c.toNat) (hcs : Numeral cs) : Numeral (c :: cs)

/-- The number of a numeral, the lowest group first. -/
def value : List UInt8 → Nat
  | [] => 0
  | c :: cs => c.toNat % 128 + 128 * value cs

/-- The number of a numeral, the highest group first, behind groups that have been read. -/
def biasedFrom (off : Nat) : List UInt8 → Nat
  | [] => off
  | c :: cs => biasedFrom ((off + 1) * 128 + c.toNat % 128) cs

/-- The number of a numeral, the highest group first. -/
def biased : List UInt8 → Nat
  | [] => 0
  | c :: cs => biasedFrom (c.toNat % 128) cs

theorem Numeral.ne_nil {enc : List UInt8} (h : Numeral enc) : enc ≠ [] := by
  cases h with
  | last _ => exact List.cons_ne_nil _ _
  | more _ _ => exact List.cons_ne_nil _ _

/-- The numeral at the front of some bytes is the only one there. -/
theorem Numeral.append_inj {enc enc' rest rest' : List UInt8} (h : Numeral enc) (h' : Numeral enc')
    (heq : enc ++ rest = enc' ++ rest') : enc = enc' ∧ rest = rest' := by
  induction h generalizing enc' with
  | last hc =>
      cases h' with
      | last _ =>
          rw [List.singleton_append, List.singleton_append, List.cons.injEq] at heq
          exact ⟨congrArg (fun c => [c]) heq.1, heq.2⟩
      | more hc' _ =>
          rw [List.singleton_append, List.cons_append, List.cons.injEq] at heq
          rw [heq.1] at hc
          exact absurd hc' (Nat.not_le.mpr hc)
  | more hc _ ih =>
      cases h' with
      | last hc' =>
          rw [List.singleton_append, List.cons_append, List.cons.injEq] at heq
          rw [← heq.1] at hc'
          exact absurd hc (Nat.not_le.mpr hc')
      | more _ hcs' =>
          rw [List.cons_append, List.cons_append, List.cons.injEq] at heq
          obtain ⟨henc, hrest⟩ := ih hcs' heq.2
          exact ⟨by rw [heq.1, henc], hrest⟩

/-- A numeral is some bytes that go on and one that does not. -/
theorem numeral_iff {enc : List UInt8} :
    Numeral enc ↔ ∃ front last, enc = front ++ [last] ∧ (∀ b ∈ front, 128 ≤ b.toNat) ∧ last.toNat < 128 := by
  constructor
  · intro h
    induction h with
    | last hc => exact ⟨[], _, rfl, List.forall_mem_nil _, hc⟩
    | more hc _ ih =>
        obtain ⟨front, last, rfl, hfront, hlast⟩ := ih
        exact ⟨_ :: front, last, rfl, List.forall_mem_cons.mpr ⟨hc, hfront⟩, hlast⟩
  · rintro ⟨front, last, rfl, hfront, hlast⟩
    induction front with
    | nil => exact .last hlast
    | cons c front ih =>
        obtain ⟨hc, hfront⟩ := List.forall_mem_cons.mp hfront
        exact .more hc (ih hfront)

/-- The numeral at the front of some bytes, by whether the first one goes on. -/
theorem exists_numeral_cons {c : UInt8} {cs rest : List UInt8} {P : List UInt8 → Prop} :
    (∃ enc, c :: cs = enc ++ rest ∧ Numeral enc ∧ P enc) ↔
      if 128 ≤ c.toNat then ∃ enc, cs = enc ++ rest ∧ Numeral enc ∧ P (c :: enc) else cs = rest ∧ P [c] := by
  split
  · rename_i hc
    constructor
    · rintro ⟨enc, heq, hnum, hP⟩
      cases hnum with
      | last hlast => exact absurd hc (Nat.not_le.mpr ((List.cons.inj heq).1 ▸ hlast))
      | more _ hnum =>
          obtain ⟨rfl, hcs⟩ := List.cons.inj heq
          exact ⟨_, hcs, hnum, hP⟩
    · rintro ⟨enc, rfl, hnum, hP⟩
      exact ⟨c :: enc, rfl, .more hc hnum, hP⟩
  · rename_i hc
    constructor
    · rintro ⟨enc, heq, hnum, hP⟩
      cases hnum with
      | last _ =>
          obtain ⟨rfl, hcs⟩ := List.cons.inj heq
          exact ⟨hcs, hP⟩
      | more hmore _ => exact absurd ((List.cons.inj heq).1 ▸ hmore) hc
    · rintro ⟨rfl, hP⟩
      exact ⟨[c], rfl, .last (Nat.not_le.mp hc), hP⟩

theorem not_exists_numeral_nil {rest : List UInt8} {P : List UInt8 → Prop} :
    ¬ ∃ enc, [] = enc ++ rest ∧ Numeral enc ∧ P enc := by
  rintro ⟨enc, heq, hnum, -⟩
  exact hnum.ne_nil (List.append_eq_nil_iff.mp heq.symm).1

theorem value_append (a b : List UInt8) : value (a ++ b) = value a + 128 ^ a.length * value b := by
  induction a with
  | nil => rw [List.nil_append, value, List.length_nil, Nat.pow_zero, Nat.one_mul, Nat.zero_add]
  | cons c a ih =>
      rw [List.cons_append, value, value, ih, List.length_cons, Nat.pow_succ]
      ring

theorem value_lt (l : List UInt8) : value l < 128 ^ l.length := by
  induction l with
  | nil => exact Nat.one_pos
  | cons c l ih =>
      rw [value, List.length_cons, Nat.pow_succ]
      have hc : c.toNat % 128 < 128 := Nat.mod_lt _ (by decide)
      omega

/-- The shortest numeral of a number, the lowest group first. -/
def encode (n : Nat) : List UInt8 :=
  if n < 128 then [UInt8.ofNat n] else UInt8.ofNat (n % 128 + 128) :: encode (n / 128)
termination_by n
decreasing_by omega

theorem numeral_encode (n : Nat) : Numeral (encode n) := by
  induction n using encode.induct with
  | case1 n hn =>
      rw [encode, if_pos hn]
      exact .last (by rwa [UInt8.toNat_ofNat_of_lt' (by simp only [UInt8.size]; omega)])
  | case2 n hn ih =>
      rw [encode, if_neg hn]
      exact .more (by rw [UInt8.toNat_ofNat_of_lt' (by simp only [UInt8.size]; omega)]; exact Nat.le_add_left _ _) ih

theorem value_encode (n : Nat) : value (encode n) = n := by
  induction n using encode.induct with
  | case1 n hn =>
      rw [encode, if_pos hn, value, value, UInt8.toNat_ofNat_of_lt' (by simp only [UInt8.size]; omega)]
      omega
  | case2 n hn ih =>
      rw [encode, if_neg hn, value, ih, UInt8.toNat_ofNat_of_lt' (by simp only [UInt8.size]; omega)]
      omega

/-- A number takes no more bytes than it has groups. -/
theorem length_encode_le {n : Nat} (count : Nat) (h : n < 128 ^ (count + 1)) : (encode n).length ≤ count + 1 := by
  induction count generalizing n with
  | zero =>
      have hn : n < 128 := h
      rw [encode, if_pos hn]
      exact le_rfl
  | succ count ih =>
      rw [encode]
      split
      · exact Nat.le_add_left _ _
      · have hdiv : n / 128 < 128 ^ (count + 1) := Nat.div_lt_of_lt_mul (by rwa [Nat.pow_succ'] at h)
        rw [List.length_cons]
        exact Nat.succ_le_succ (ih hdiv)

/-- Shifting a group in above what has been read, in words of 64 bits. -/
theorem or_shiftLeft_mod {size b shift : Nat} (hsize : size < 2 ^ shift) (hshift : shift < 64) :
    size ||| b <<< shift % 2 ^ 64 = (size + 2 ^ shift * b) % 2 ^ 64 := by
  have hword : 2 ^ 64 = 2 ^ shift * 2 ^ (64 - shift) := by
    rw [← Nat.pow_add, Nat.add_sub_cancel' hshift.le]
  have hgroup : b <<< shift % 2 ^ 64 = (b % 2 ^ (64 - shift)) <<< shift := by
    rw [hword, Nat.shiftLeft_eq, Nat.shiftLeft_eq, Nat.mul_comm b, Nat.mul_mod_mul_left, Nat.mul_comm]
  rw [hgroup, Nat.or_comm, ← Nat.shiftLeft_add_eq_or_of_lt hsize, hword, Nat.mod_mul, Nat.add_mul_mod_self_left,
    Nat.mod_eq_of_lt hsize, Nat.add_mul_div_left _ _ (Nat.two_pow_pos _), Nat.div_eq_of_lt hsize, Nat.zero_add,
    Nat.shiftLeft_eq, Nat.mul_comm, Nat.add_comm]

end Varint
