-- SUMMARY: SHA-1 and SHA-256 on lists of bytes.
import Mathlib.Algebra.GroupWithZero.Nat
import Mathlib.Data.List.Basic

/-!
# SHA-1 and SHA-256

Both cut a message with its length behind it into blocks of 16 words, and mix each block
into a state of a few words. Words are numbers below `2 ^ 32`.
-/

namespace Sha

/-- A number as so many bytes, the most significant first. -/
def bytesOf : Nat → Nat → List UInt8
  | 0, _ => []
  | count + 1, n => UInt8.ofNat (n / 256 ^ count % 256) :: bytesOf count n

theorem length_bytesOf (count n : Nat) : (bytesOf count n).length = count := by
  induction count with
  | zero => rfl
  | succ count ih => rw [bytesOf, List.length_cons, ih]

/-- The number of some bytes, behind ones that have been read. -/
theorem foldl_bytesOf (count n acc : Nat) :
    (bytesOf count n).foldl (fun n b => n * 256 + b.toNat) acc = acc * 256 ^ count + n % 256 ^ count := by
  induction count generalizing acc with
  | zero =>
      rw [Nat.pow_zero, Nat.mod_one, Nat.mul_one]
      rfl
  | succ count ih =>
      have hbyte : (UInt8.ofNat (n / 256 ^ count % 256)).toNat = n / 256 ^ count % 256 :=
        UInt8.toNat_ofNat_of_lt' (Nat.mod_lt _ (by decide))
      rw [bytesOf, List.foldl_cons, ih, hbyte, Nat.pow_succ, Nat.mod_mul]
      rw [Nat.add_mul, Nat.mul_assoc, Nat.mul_comm 256, Nat.mul_comm (n / 256 ^ count % 256)]
      omega

/-- The words of some bytes, four bytes each. -/
def wordsOf : List UInt8 → List Nat
  | a :: b :: c :: d :: rest => (((a.toNat * 256 + b.toNat) * 256 + c.toNat) * 256 + d.toNat) :: wordsOf rest
  | _ => []

/-- The blocks of a message, with its length behind it. -/
def blocksOf (message : List UInt8) : List (List Nat) :=
  let zeros := List.replicate ((119 - message.length % 64) % 64) 0
  let padded := message ++ 0x80 :: (zeros ++ bytesOf 8 (8 * message.length))
  (List.range (padded.length / 64)).map fun i => wordsOf ((padded.drop (64 * i)).take 64)

/-- Turn a word to the left. -/
def rotl (n x : Nat) : Nat := (x <<< n ||| x >>> (32 - n)) % 2 ^ 32

/-- Turn a word to the right. -/
def rotr (n x : Nat) : Nat := rotl (32 - n) x

/-! ## SHA-1 -/

structure State1 where
  a : Nat
  b : Nat
  c : Nat
  d : Nat
  e : Nat

def State1.round (t w : Nat) (s : State1) : State1 :=
  let (f, k) :=
    if t < 20 then (s.d ^^^ (s.b &&& (s.c ^^^ s.d)), 0x5a827999)
    else if t < 40 then (s.b ^^^ s.c ^^^ s.d, 0x6ed9eba1)
    else if t < 60 then (s.b &&& s.c ||| s.d &&& (s.b ||| s.c), 0x8f1bbcdc)
    else (s.b ^^^ s.c ^^^ s.d, 0xca62c1d6)
  ⟨(rotl 5 s.a + f + s.e + k + w) % 2 ^ 32, s.a, rotl 30 s.b, s.c, s.d⟩

/-- So many rounds from one on, with the words of the next 16. -/
def State1.rounds : Nat → Nat → List Nat → State1 → State1
  | 0, _, _, s => s
  | left + 1, t, words, s =>
      let w := words.getD 0 0
      let next := rotl 1 (words.getD 13 0 ^^^ words.getD 8 0 ^^^ words.getD 2 0 ^^^ w)
      rounds left (t + 1) (words.drop 1 ++ [next]) (s.round t w)

def State1.mix (s : State1) (block : List Nat) : State1 :=
  let r := State1.rounds 80 0 block s
  ⟨(s.a + r.a) % 2 ^ 32, (s.b + r.b) % 2 ^ 32, (s.c + r.c) % 2 ^ 32, (s.d + r.d) % 2 ^ 32, (s.e + r.e) % 2 ^ 32⟩

def sha1 (message : List UInt8) : List UInt8 :=
  let s := (blocksOf message).foldl State1.mix ⟨0x67452301, 0xefcdab89, 0x98badcfe, 0x10325476, 0xc3d2e1f0⟩
  [s.a, s.b, s.c, s.d, s.e].flatMap (bytesOf 4)

theorem length_sha1 (message : List UInt8) : (sha1 message).length = 20 := by
  simp [sha1, length_bytesOf]

example : sha1 [0x61, 0x62, 0x63] = [0xa9, 0x99, 0x3e, 0x36, 0x47, 0x06, 0x81, 0x6a, 0xba, 0x3e, 0x25, 0x71, 0x78, 0x50,
    0xc2, 0x6c, 0x9c, 0xd0, 0xd8, 0x9d] := by
  decide +kernel

/-! ## SHA-256 -/

structure State256 where
  a : Nat
  b : Nat
  c : Nat
  d : Nat
  e : Nat
  f : Nat
  g : Nat
  h : Nat

def constants : List Nat :=
  [0x428a2f98, 0x71374491, 0xb5c0fbcf, 0xe9b5dba5, 0x3956c25b, 0x59f111f1, 0x923f82a4, 0xab1c5ed5,
   0xd807aa98, 0x12835b01, 0x243185be, 0x550c7dc3, 0x72be5d74, 0x80deb1fe, 0x9bdc06a7, 0xc19bf174,
   0xe49b69c1, 0xefbe4786, 0x0fc19dc6, 0x240ca1cc, 0x2de92c6f, 0x4a7484aa, 0x5cb0a9dc, 0x76f988da,
   0x983e5152, 0xa831c66d, 0xb00327c8, 0xbf597fc7, 0xc6e00bf3, 0xd5a79147, 0x06ca6351, 0x14292967,
   0x27b70a85, 0x2e1b2138, 0x4d2c6dfc, 0x53380d13, 0x650a7354, 0x766a0abb, 0x81c2c92e, 0x92722c85,
   0xa2bfe8a1, 0xa81a664b, 0xc24b8b70, 0xc76c51a3, 0xd192e819, 0xd6990624, 0xf40e3585, 0x106aa070,
   0x19a4c116, 0x1e376c08, 0x2748774c, 0x34b0bcb5, 0x391c0cb3, 0x4ed8aa4a, 0x5b9cca4f, 0x682e6ff3,
   0x748f82ee, 0x78a5636f, 0x84c87814, 0x8cc70208, 0x90befffa, 0xa4506ceb, 0xbef9a3f7, 0xc67178f2]

def State256.round (k w : Nat) (s : State256) : State256 :=
  let choice := s.g ^^^ (s.e &&& (s.f ^^^ s.g))
  let majority := s.a &&& s.b ||| s.c &&& (s.a ||| s.b)
  let t1 := s.h + (rotr 6 s.e ^^^ rotr 11 s.e ^^^ rotr 25 s.e) + choice + k + w
  let t2 := (rotr 2 s.a ^^^ rotr 13 s.a ^^^ rotr 22 s.a) + majority
  ⟨(t1 + t2) % 2 ^ 32, s.a, s.b, s.c, (s.d + t1) % 2 ^ 32, s.e, s.f, s.g⟩

/-- A round for each constant, with the words of the next 16. -/
def State256.rounds : List Nat → List Nat → State256 → State256
  | [], _, s => s
  | k :: ks, words, s =>
      let w := words.getD 0 0
      let w1 := words.getD 1 0
      let w14 := words.getD 14 0
      let next := (w + (rotr 7 w1 ^^^ rotr 18 w1 ^^^ w1 >>> 3) + words.getD 9 0 +
        (rotr 17 w14 ^^^ rotr 19 w14 ^^^ w14 >>> 10)) % 2 ^ 32
      rounds ks (words.drop 1 ++ [next]) (s.round k w)

def State256.mix (s : State256) (block : List Nat) : State256 :=
  let r := State256.rounds constants block s
  ⟨(s.a + r.a) % 2 ^ 32, (s.b + r.b) % 2 ^ 32, (s.c + r.c) % 2 ^ 32, (s.d + r.d) % 2 ^ 32,
    (s.e + r.e) % 2 ^ 32, (s.f + r.f) % 2 ^ 32, (s.g + r.g) % 2 ^ 32, (s.h + r.h) % 2 ^ 32⟩

def sha256 (message : List UInt8) : List UInt8 :=
  let s := (blocksOf message).foldl State256.mix
    ⟨0x6a09e667, 0xbb67ae85, 0x3c6ef372, 0xa54ff53a, 0x510e527f, 0x9b05688c, 0x1f83d9ab, 0x5be0cd19⟩
  [s.a, s.b, s.c, s.d, s.e, s.f, s.g, s.h].flatMap (bytesOf 4)

theorem length_sha256 (message : List UInt8) : (sha256 message).length = 32 := by
  simp [sha256, length_bytesOf]

example : (sha256 [0x61, 0x62, 0x63]).take 8 = [0xba, 0x78, 0x16, 0xbf, 0x8f, 0x01, 0xcf, 0xea] := by
  decide +kernel

end Sha
