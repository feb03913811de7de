-- SUMMARY: Which texts parse as object ids, and which break the parser.
import Omoplata.Lib.Codec
import Omoplata.Store

/-!
# Object ids as text

The parser counts the bytes of the digits and then takes them two by two. A pair that ends in
the middle of a character is a panic, and a pair may start with a plus sign, as the integer
parser allows it.
-/

open Codec

namespace Omoplata

/-! ## Digits -/

theorem mem_hexDigits {c : Char} {v : Nat} (h : hexValue c = some v) : c ∈ "0123456789abcdefABCDEF".toList := by
  have hrange : (48 ≤ c.toNat ∧ c.toNat ≤ 57) ∨ (97 ≤ c.toNat ∧ c.toNat ≤ 102) ∨ (65 ≤ c.toNat ∧ c.toNat ≤ 70) := by
    unfold hexValue at h
    split at h
    · rename_i hdigit
      exact .inl hdigit
    · split at h
      · rename_i hlower
        exact .inr (.inl hlower)
      · split at h
        · rename_i hupper
          exact .inr (.inr hupper)
        · cases h
  have hall : ∀ n < 128, (48 ≤ n ∧ n ≤ 57) ∨ (97 ≤ n ∧ n ≤ 102) ∨ (65 ≤ n ∧ n ≤ 70) →
      Char.ofNat n ∈ "0123456789abcdefABCDEF".toList := by decide
  rw [← Char.ofNat_toNat c]
  exact hall _ (by omega) hrange

/-- A digit is written back in lower case, and is neither a sign nor more than a byte long. -/
theorem hexValue_spec {c : Char} {v : Nat} (h : hexValue c = some v) :
    v < 16 ∧ hexDigit v = c.toLower ∧ c.utf8Size = 1 ∧ c ≠ '+' := by
  have hall : "0123456789abcdefABCDEF".toList.all (fun c => (hexValue c).getD 16 < 16 ∧
      hexDigit ((hexValue c).getD 16) = c.toLower ∧ c.utf8Size = 1 ∧ c ≠ '+') := by
    decide +kernel
  have hspec := of_decide_eq_true (List.all_eq_true.mp hall c (mem_hexDigits h))
  rwa [h, Option.getD_some] at hspec

/-- Pairs of digits, the first of which may be a plus sign instead. -/
def RadixPairs : Str → Prop
  | [] => True
  | [_] => False
  | hi :: lo :: rest => ((hexValue hi).isSome ∨ hi = '+') ∧ (hexValue lo).isSome ∧ RadixPairs rest

/-- A text whose first two bytes end inside a character. -/
def CutsFirst : Str → Prop
  | [] => False
  | [c] => 3 ≤ c.utf8Size
  | c :: d :: _ => 3 ≤ c.utf8Size ∨ c.utf8Size = 1 ∧ d.utf8Size ≠ 1

/-- The byte that a pair of digits spells. -/
def spellByte (hi lo : Char) : UInt8 := UInt8.ofNat ((hexValue hi).getD 0 * 16 + (hexValue lo).getD 0)

/-- The bytes that digits spell, two by two. -/
def spell : Str → List UInt8
  | hi :: lo :: rest => spellByte hi lo :: spell rest
  | _ => []

theorem hexValue_plus : hexValue '+' = none := by decide

theorem byteFromRadix16_eq_some_iff {hi lo : Char} {b : UInt8} :
    byteFromRadix16 hi lo = some b ↔
      ((hexValue hi).isSome ∨ hi = '+') ∧ (hexValue lo).isSome ∧ b = spellByte hi lo := by
  unfold byteFromRadix16 spellByte
  by_cases hplus : hi = '+'
  · subst hplus
    cases hlo : hexValue lo with
    | none => simp [hexValue_plus]
    | some low => simp [hexValue_plus, eq_comm]
  · cases hhi : hexValue hi with
    | none => simp [hplus]
    | some high =>
        cases hlo : hexValue lo with
        | none => simp [hplus]
        | some low => simp [hplus, eq_comm]

theorem utf8Size_of_radix {c : Char} (h : (hexValue c).isSome ∨ c = '+') : c.utf8Size = 1 := by
  rcases h with hdigit | rfl
  · obtain ⟨v, hv⟩ := Option.isSome_iff_exists.mp hdigit
    exact (hexValue_spec hv).2.2.1
  · decide

theorem byteLength_cons (c : Char) (s : Str) : byteLength (c :: s) = c.utf8Size + byteLength s := rfl

/-- Pairs in front of a text that ends inside a character. -/
def CutsInside (hex : Str) : Prop := ∃ front tail, hex = front ++ tail ∧ RadixPairs front ∧ CutsFirst tail

theorem cutsInside_cons_cons {hi lo : Char} {rest : Str} :
    CutsInside (hi :: lo :: rest) ↔ CutsFirst (hi :: lo :: rest) ∨
      (((hexValue hi).isSome ∨ hi = '+') ∧ (hexValue lo).isSome) ∧ CutsInside rest := by
  constructor
  · rintro ⟨front, tail, heq, hpairs, hcuts⟩
    cases front with
    | nil =>
        rw [List.nil_append] at heq
        exact .inl (heq ▸ hcuts)
    | cons a front =>
        cases front with
        | nil => exact hpairs.elim
        | cons b front =>
            simp only [List.cons_append, List.cons.injEq] at heq
            obtain ⟨rfl, rfl, rfl⟩ := heq
            exact .inr ⟨⟨hpairs.1, hpairs.2.1⟩, front, tail, rfl, hpairs.2.2, hcuts⟩
  · rintro (hcuts | ⟨⟨hhi, hlo⟩, front, tail, rfl, hpairs, hcuts⟩)
    · exact ⟨[], _, rfl, trivial, hcuts⟩
    · exact ⟨hi :: lo :: front, tail, rfl, ⟨hhi, hlo, hpairs⟩, hcuts⟩

theorem cutsInside_singleton {c : Char} : CutsInside [c] ↔ 3 ≤ c.utf8Size := by
  constructor
  · rintro ⟨front, tail, heq, hpairs, hcuts⟩
    cases front with
    | nil =>
        rw [List.nil_append] at heq
        rw [← heq] at hcuts
        exact hcuts
    | cons a front =>
        cases front with
        | nil => exact hpairs.elim
        | cons b front => simp only [List.cons_append, List.cons.injEq, reduceCtorEq, and_false] at heq
  · exact fun hcuts => ⟨[], [c], rfl, trivial, hcuts⟩

theorem not_cutsInside_nil : ¬ CutsInside [] := by
  rintro ⟨front, tail, heq, -, hcuts⟩
  rw [(List.append_eq_nil_iff.mp heq.symm).2] at hcuts
  exact hcuts

/-- Pairs all the way through end inside no character. -/
theorem not_cutsInside_of_radixPairs {hex : Str} (h : RadixPairs hex) : ¬ CutsInside hex := by
  induction hex using List.twoStepInduction with
  | nil => exact not_cutsInside_nil
  | singleton c => exact h.elim
  | cons_cons hi lo rest ih _ =>
      obtain ⟨hhi, hlo, hrest⟩ := h
      have hfirst := utf8Size_of_radix hhi
      have hsecond := utf8Size_of_radix (.inl hlo)
      rw [cutsInside_cons_cons]
      rintro (hcuts | ⟨-, hcuts⟩)
      · have hcuts : 3 ≤ hi.utf8Size ∨ hi.utf8Size = 1 ∧ lo.utf8Size ≠ 1 := hcuts
        omega
      · exact ih hrest hcuts

theorem utf8Size_cases (c : Char) : c.utf8Size = 1 ∨ c.utf8Size = 2 ∨ 3 ≤ c.utf8Size := by
  have := c.utf8Size_pos
  omega

/-- What the pairs of a text come to: the parser breaks where a pair ends inside a character, and
else gives the bytes of pairs. -/
theorem hexPairs_spec {hex : Str} (heven : byteLength hex % 2 = 0) :
    (CutsInside hex ∧ hexPairs hex = .error .charBoundary) ∨
      (RadixPairs hex ∧ ¬ CutsInside hex ∧ hexPairs hex = .ok (some (spell hex))) ∨
        (¬ RadixPairs hex ∧ ¬ CutsInside hex ∧ hexPairs hex = .ok none) := by
  induction hex using List.twoStepInduction with
  | nil => exact .inr (.inl ⟨trivial, not_cutsInside_nil, rfl⟩)
  | singleton c =>
      have heven : c.utf8Size % 2 = 0 := heven
      rw [cutsInside_singleton, hexPairs]
      split
      · rename_i htwo
        exact .inr (.inr ⟨not_false, by omega, rfl⟩)
      · have := utf8Size_cases c
        exact .inl ⟨by omega, rfl⟩
  | cons_cons hi lo rest ih _ =>
      rw [byteLength_cons, byteLength_cons] at heven
      have hfirst : CutsFirst (hi :: lo :: rest) ↔ 3 ≤ hi.utf8Size ∨ hi.utf8Size = 1 ∧ lo.utf8Size ≠ 1 := Iff.rfl
      have hpairs : RadixPairs (hi :: lo :: rest) ↔
          ((hexValue hi).isSome ∨ hi = '+') ∧ (hexValue lo).isSome ∧ RadixPairs rest := Iff.rfl
      have hone : (hexValue hi).isSome ∨ hi = '+' → hi.utf8Size = 1 := utf8Size_of_radix
      rw [cutsInside_cons_cons, hexPairs, hfirst, hpairs]
      split
      -- A character of two bytes is a whole pair, but no digit.
      · rename_i htwo
        refine .inr (.inr ⟨fun h => ?_, ?_, rfl⟩)
        · have := hone h.1
          omega
        · rintro (hcut | ⟨⟨hhi, -⟩, -⟩)
          · omega
          · have := hone hhi
            omega
      · rename_i htwo
        split
        -- Two characters of one byte are a pair, and the rest decides.
        · rename_i hsizes
          have hrest : byteLength rest % 2 = 0 := by omega
          have hwhole : ¬ (3 ≤ hi.utf8Size ∨ hi.utf8Size = 1 ∧ lo.utf8Size ≠ 1) := by omega
          cases hbyte : byteFromRadix16 hi lo with
          | none =>
              have hnone : ¬ (((hexValue hi).isSome ∨ hi = '+') ∧ (hexValue lo).isSome) := fun h => by
                rw [byteFromRadix16_eq_some_iff.mpr ⟨h.1, h.2, rfl⟩] at hbyte
                cases hbyte
              exact .inr (.inr ⟨fun h => hnone ⟨h.1, h.2.1⟩, fun h => h.elim hwhole fun h => hnone h.1, rfl⟩)
          | some b =>
              obtain ⟨hhi, hlo, rfl⟩ := byteFromRadix16_eq_some_iff.mp hbyte
              rcases ih hrest with ⟨hcuts, hrun⟩ | ⟨hpairs, hcuts, hrun⟩ | ⟨hpairs, hcuts, hrun⟩
              · exact .inl ⟨.inr ⟨⟨hhi, hlo⟩, hcuts⟩, by simp only [hrun]; rfl⟩
              · exact .inr (.inl ⟨⟨hhi, hlo, hpairs⟩, fun h => h.elim hwhole fun h => hcuts h.2,
                  by simp only [hrun]; rfl⟩)
              · exact .inr (.inr ⟨fun h => hpairs h.2.2, fun h => h.elim hwhole fun h => hcuts h.2,
                  by simp only [hrun]; rfl⟩)
        -- The pair ends inside the first or the second character.
        · rename_i hsizes
          have := utf8Size_cases hi
          exact .inl ⟨.inl (by omega), rfl⟩

theorem length_spell {hex : Str} (h : RadixPairs hex) :
    hex.length = 2 * (spell hex).length ∧ byteLength hex = hex.length := by
  induction hex using List.twoStepInduction with
  | nil => exact ⟨rfl, rfl⟩
  | singleton c => exact h.elim
  | cons_cons hi lo rest ih _ =>
      obtain ⟨hhi, hlo, hrest⟩ := h
      obtain ⟨hlength, hbytes⟩ := ih hrest
      rw [byteLength_cons, byteLength_cons, hbytes, utf8Size_of_radix hhi, utf8Size_of_radix (.inl hlo), spell]
      simp only [List.length_cons, hlength]
      omega

/-! ## Ids -/

def scheme : Str := "sha256:".toList

theorem scheme_append (hex : Str) : scheme ++ hex = "sha256".toList ++ ':' :: hex := by
  have hcolon : scheme = "sha256".toList ++ [':'] := by decide
  rw [hcolon, List.append_assoc, List.singleton_append]

/-- Behind the scheme the digits decide. -/
theorem parse_scheme (hex : Str) :
    (∀ p, hexDecode hex = .error p → ObjectId.parse (scheme ++ hex) = .error p) ∧
    (hexDecode hex = .ok none → ∃ e, ObjectId.parse (scheme ++ hex) = .ok (.error e)) ∧
    ∀ digest, hexDecode hex = .ok (some digest) →
      (∀ h : digest.length = 32, ObjectId.parse (scheme ++ hex) = .ok (.ok ⟨digest, h⟩)) ∧
      (digest.length ≠ 32 → ∃ e, ObjectId.parse (scheme ++ hex) = .ok (.error e)) := by
  have hname : "sha256".toList.length = 6 := by decide
  have hfind : (scheme ++ hex).findIdx? (· == ':') = some 6 := by
    have hnone : "sha256".toList.findIdx? (· == ':') = none := by decide
    rw [scheme_append, List.findIdx?_append, hnone, List.findIdx?_cons, hname]
    rfl
  have htake : (scheme ++ hex).take 6 = "sha256".toList := by
    rw [scheme_append, ← hname, List.take_left]
  have hdrop : (scheme ++ hex).drop 7 = hex := by
    have hlength : scheme.length = 7 := by decide
    rw [← hlength, List.drop_left]
  unfold ObjectId.parse
  simp only [hfind, htake, hdrop, ne_eq, not_true_eq_false, if_false]
  refine ⟨fun p h => ?_, fun h => ⟨.malformedId (scheme ++ hex), ?_⟩, fun digest h =>
    ⟨fun hlength => ?_, fun hlength => ⟨.malformedId (scheme ++ hex), ?_⟩⟩⟩
  · rw [h]
    rfl
  · rw [h]
    rfl
  · rw [h]
    exact dif_pos hlength
  · rw [h]
    exact dif_neg hlength

theorem parse_other {s : Str} (h : ∀ hex, s ≠ scheme ++ hex) : ∃ e, ObjectId.parse s = .ok (.error e) := by
  unfold ObjectId.parse
  split
  · exact ⟨_, rfl⟩
  · rename_i i hfind
    split
    · exact ⟨_, rfl⟩
    · rename_i htake
      rw [ne_eq, not_not] at htake
      obtain ⟨hlt, hcolon, -⟩ := List.findIdx?_eq_some_iff_getElem.mp hfind
      refine absurd ?_ (h (s.drop (i + 1)))
      have hsplit : s = s.take i ++ ':' :: s.drop (i + 1) := by
        rw [← beq_iff_eq.mp hcolon, List.getElem_cons_drop hlt, List.take_append_drop]
      rw [htake] at hsplit
      exact hsplit.trans (scheme_append _).symm

/-- The digits of an id: 64 hexadecimal ones. -/
def IdDigits (hex : Str) : Prop := hex.length = 64 ∧ ∀ c ∈ hex, (hexValue c).isSome

/-- What parses as an id is its scheme and digits, and nothing breaks the parser. -/
structure ParsesExactly (s : Str) : Prop where
  total : ∃ r, ObjectId.parse s = .ok r
  only : ∀ id, ObjectId.parse s = .ok (.ok id) → ∃ hex, s = scheme ++ hex ∧ IdDigits hex
  digits : ∀ hex, s = scheme ++ hex → IdDigits hex →
    ∃ id, ObjectId.parse s = .ok (.ok id) ∧ id.digest = spell hex ∧ id.toText = s.map Char.toLower

/-- An even number of bytes behind the scheme, with pairs up to one that ends inside a character. -/
def CutsCharacter (s : Str) : Prop := ∃ hex, s = scheme ++ hex ∧ byteLength hex % 2 = 0 ∧ CutsInside hex

/-- As many pairs as an id has, with a plus sign for a digit. -/
def SignedId (s : Str) : Prop := ∃ hex, s = scheme ++ hex ∧ hex.length = 64 ∧ RadixPairs hex ∧ '+' ∈ hex

theorem parse_of_cutsInside {hex : Str} (heven : byteLength hex % 2 = 0) (h : CutsInside hex) :
    ObjectId.parse (scheme ++ hex) = .error .charBoundary := by
  have hne : hex ≠ [] := by
    rintro rfl
    exact not_cutsInside_nil h
  refine (parse_scheme hex).1 _ ?_
  unfold hexDecode
  rw [if_neg (by rw [List.isEmpty_iff, not_or, ne_eq, not_not]; exact ⟨hne, heven⟩)]
  rcases hexPairs_spec heven with ⟨-, hrun⟩ | ⟨-, hnot, -⟩ | ⟨-, hnot, -⟩
  · exact hrun
  · exact absurd h hnot
  · exact absurd h hnot

/-- What the digits decode to, where they do not break the parser. -/
theorem hexDecode_eq_some_iff {hex : Str} {digest : List UInt8} :
    hexDecode hex = .ok (some digest) ↔ hex ≠ [] ∧ RadixPairs hex ∧ digest = spell hex := by
  unfold hexDecode
  split
  · rename_i hnone
    rw [List.isEmpty_iff] at hnone
    refine iff_of_false (fun h => by cases h) fun h => hnone.elim h.1 fun hodd => hodd ?_
    obtain ⟨hlength, hbytes⟩ := length_spell h.2.1
    omega
  · rename_i hsome
    rw [List.isEmpty_iff, not_or, ne_eq, not_not] at hsome
    rcases hexPairs_spec hsome.2 with ⟨hcuts, hrun⟩ | ⟨hpairs, hnot, hrun⟩ | ⟨hpairs, -, hrun⟩
    · rw [hrun]
      exact iff_of_false (fun h => by cases h) fun h => not_cutsInside_of_radixPairs h.2.1 hcuts
    · rw [hrun, Except.ok.injEq, Option.some.injEq]
      exact ⟨fun h => ⟨hsome.1, hpairs, h.symm⟩, fun h => h.2.2.symm⟩
    · rw [hrun]
      exact iff_of_false (fun h => by cases h) fun h => hpairs h.2.1

theorem parse_eq_ok_iff {hex : Str} {id : ObjectId} :
    ObjectId.parse (scheme ++ hex) = .ok (.ok id) ↔
      hex.length = 64 ∧ RadixPairs hex ∧ id.digest = spell hex := by
  obtain ⟨hpanic, hnone, hsome⟩ := parse_scheme hex
  constructor
  · intro h
    cases hdecode : hexDecode hex with
    | error p =>
        rw [hpanic p hdecode] at h
        cases h
    | ok decoded =>
        cases decoded with
        | none =>
            obtain ⟨e, he⟩ := hnone hdecode
            rw [he] at h
            cases h
        | some digest =>
            obtain ⟨-, hpairs, rfl⟩ := hexDecode_eq_some_iff.mp hdecode
            obtain ⟨hright, hwrong⟩ := hsome _ hdecode
            have hlength := (length_spell hpairs).1
            by_cases h32 : (spell hex).length = 32
            · rw [hright h32] at h
              cases h
              exact ⟨by omega, hpairs, rfl⟩
            · obtain ⟨e, he⟩ := hwrong h32
              rw [he] at h
              cases h
  · rintro ⟨hlength, hpairs, hdigest⟩
    have hne : hex ≠ [] := by
      rintro rfl
      cases hlength
    have hspell := (length_spell hpairs).1
    rw [(hsome _ (hexDecode_eq_some_iff.mpr ⟨hne, hpairs, rfl⟩)).1 (by omega)]
    cases id
    cases hdigest
    rfl

/-- Digits two by two are pairs, and are written back in lower case. -/
theorem radixPairs_of_digits {hex : Str} (heven : hex.length % 2 = 0) (h : ∀ c ∈ hex, (hexValue c).isSome) :
    RadixPairs hex ∧ hexEncode (spell hex) = hex.map Char.toLower := by
  induction hex using List.twoStepInduction with
  | nil => exact ⟨trivial, rfl⟩
  | singleton c => cases heven
  | cons_cons hi lo rest ih _ =>
      obtain ⟨hhi, hlo, hrest⟩ : (hexValue hi).isSome ∧ (hexValue lo).isSome ∧ ∀ c ∈ rest, (hexValue c).isSome := by
        simpa only [List.forall_mem_cons] using h
      have hlength : rest.length % 2 = 0 := by
        simp only [List.length_cons] at heven
        omega
      obtain ⟨hpairs, hencode⟩ := ih hlength hrest
      obtain ⟨v, hv⟩ := Option.isSome_iff_exists.mp hhi
      obtain ⟨w, hw⟩ := Option.isSome_iff_exists.mp hlo
      obtain ⟨hvmax, hvdigit, -, -⟩ := hexValue_spec hv
      obtain ⟨hwmax, hwdigit, -, -⟩ := hexValue_spec hw
      refine ⟨⟨.inl hhi, hlo, hpairs⟩, ?_⟩
      have hbyte : (spellByte hi lo).toNat = v * 16 + w := by
        rw [spellByte, hv, hw]
        exact UInt8.toNat_ofNat_of_lt' (by simp only [UInt8.size, Option.getD_some]; omega)
      have hcons : hexEncode (spell (hi :: lo :: rest)) = hexDigit ((spellByte hi lo).toNat / 16) ::
          hexDigit ((spellByte hi lo).toNat % 16) :: hexEncode (spell rest) := rfl
      rw [hcons, hbyte, hencode, show (v * 16 + w) / 16 = v by omega, show (v * 16 + w) % 16 = w by omega,
        hvdigit, hwdigit]
      rfl

theorem radixPairs_char {hex : Str} (h : RadixPairs hex) : ∀ c ∈ hex, (hexValue c).isSome ∨ c = '+' := by
  induction hex using List.twoStepInduction with
  | nil => exact List.forall_mem_nil _
  | singleton c => exact h.elim
  | cons_cons hi lo rest ih _ =>
      obtain ⟨hhi, hlo, hrest⟩ := h
      exact List.forall_mem_cons.mpr ⟨hhi, List.forall_mem_cons.mpr ⟨.inl hlo, ih hrest⟩⟩

/-- Pairs without a sign are digits. -/
theorem digits_of_radixPairs {hex : Str} (h : RadixPairs hex) (hplus : '+' ∉ hex) : ∀ c ∈ hex, (hexValue c).isSome :=
  fun c hc => (radixPairs_char h c hc).resolve_right fun heq => hplus (heq ▸ hc)

theorem toText_eq (id : ObjectId) : id.toText = scheme ++ hexEncode id.digest := by
  unfold ObjectId.toText scheme
  rfl

theorem scheme_lower : scheme.map Char.toLower = scheme := by decide

theorem plus_not_digit {hex : Str} (h : ∀ c ∈ hex, (hexValue c).isSome) : '+' ∉ hex := fun hmem => by
  have hplus := h '+' hmem
  rw [hexValue_plus] at hplus
  cases hplus

/-- The parser answers where no pair cuts a character. -/
theorem parse_total {s : Str} (h : ¬ CutsCharacter s) : ∃ r, ObjectId.parse s = .ok r := by
  by_cases hscheme : ∃ hex, s = scheme ++ hex
  · obtain ⟨hex, rfl⟩ := hscheme
    obtain ⟨-, hnone, hsome⟩ := parse_scheme hex
    cases hdecode : hexDecode hex with
    | error p =>
        unfold hexDecode at hdecode
        split at hdecode
        · cases hdecode
        · rename_i heven
          rw [List.isEmpty_iff, not_or, ne_eq, not_not] at heven
          rcases hexPairs_spec heven.2 with ⟨hcuts, -⟩ | ⟨-, -, hrun⟩ | ⟨-, -, hrun⟩
          · exact absurd ⟨hex, rfl, heven.2, hcuts⟩ h
          · rw [hrun] at hdecode
            cases hdecode
          · rw [hrun] at hdecode
            cases hdecode
    | ok decoded =>
        cases decoded with
        | none =>
            obtain ⟨e, he⟩ := hnone hdecode
            exact ⟨_, he⟩
        | some digest =>
            obtain ⟨hright, hwrong⟩ := hsome digest hdecode
            by_cases hlength : digest.length = 32
            · exact ⟨_, hright hlength⟩
            · obtain ⟨e, he⟩ := hwrong hlength
              exact ⟨_, he⟩
  · obtain ⟨e, he⟩ := parse_other (s := s) fun hex heq => hscheme ⟨hex, heq⟩
    exact ⟨_, he⟩

/-- What parses as an id has the scheme. -/
theorem exists_scheme_of_parse {s : Str} {id : ObjectId} (h : ObjectId.parse s = .ok (.ok id)) :
    ∃ hex, s = scheme ++ hex := by
  by_contra hother
  obtain ⟨e, he⟩ := parse_other (s := s) fun hex heq => hother ⟨hex, heq⟩
  rw [he] at h
  cases h

/-- The id that the pairs behind the scheme spell. -/
theorem parse_of_radixPairs {hex : Str} (hlength : hex.length = 64) (h : RadixPairs hex) :
    ∃ id, ObjectId.parse (scheme ++ hex) = .ok (.ok id) ∧ id.digest = spell hex := by
  have hspell := (length_spell h).1
  have h32 : (spell hex).length = 32 := by omega
  exact ⟨⟨spell hex, h32⟩, parse_eq_ok_iff.mpr ⟨hlength, h, rfl⟩, rfl⟩

theorem not_parsesExactly_of_cuts {s : Str} (h : CutsCharacter s) : ¬ ParsesExactly s := by
  intro hexact
  obtain ⟨hex, rfl, heven, hcuts⟩ := h
  obtain ⟨r, hr⟩ := hexact.total
  rw [parse_of_cutsInside heven hcuts] at hr
  cases hr

theorem not_parsesExactly_of_signed {s : Str} (h : SignedId s) : ¬ ParsesExactly s := by
  intro hexact
  obtain ⟨hex, rfl, hlength, hpairs, hplus⟩ := h
  obtain ⟨id, hid, -⟩ := parse_of_radixPairs hlength hpairs
  obtain ⟨digits, heq, -, hall⟩ := hexact.only id hid
  cases List.append_cancel_left heq
  exact plus_not_digit hall hplus

/-- A text is parsed exactly, unless its pairs cut a character or a sign stands for a digit. -/
theorem objectId_parse_iff (s : Str) : ParsesExactly s ↔ ¬ CutsCharacter s ∧ ¬ SignedId s := by
  constructor
  · exact fun h => ⟨fun hcuts => not_parsesExactly_of_cuts hcuts h, fun hsigned => not_parsesExactly_of_signed hsigned h⟩
  · rintro ⟨hcut, hsigned⟩
    refine ⟨parse_total hcut, fun id hid => ?_, ?_⟩
    · obtain ⟨hex, rfl⟩ := exists_scheme_of_parse hid
      obtain ⟨hlength, hpairs, -⟩ := parse_eq_ok_iff.mp hid
      refine ⟨hex, rfl, hlength, digits_of_radixPairs hpairs fun hplus => ?_⟩
      exact hsigned ⟨hex, rfl, hlength, hpairs, hplus⟩
    · rintro hex rfl ⟨hlength, hall⟩
      obtain ⟨hpairs, hencode⟩ := radixPairs_of_digits (by omega) hall
      obtain ⟨id, hid, hdigest⟩ := parse_of_radixPairs hlength hpairs
      refine ⟨id, hid, hdigest, ?_⟩
      rw [toText_eq, hdigest, hencode, List.map_append, scheme_lower]

/-- Three bytes and one: the first pair ends inside the euro sign. -/
def euroText : Str := "sha256:€a".toList

/-- A sign in front of every second digit. -/
def signedText : Str := scheme ++ (List.replicate 32 ['+', 'f']).flatten

theorem radixPairs_signed (n : Nat) : RadixPairs (List.replicate n ['+', 'f']).flatten := by
  induction n with
  | zero => trivial
  | succ n ih =>
      rw [List.replicate_succ, List.flatten_cons]
      exact ⟨.inr rfl, by decide, ih⟩

/-- One text breaks the parser, and another is an id with signs for digits. -/
theorem objectId_parse_fails : ¬ ParsesExactly euroText ∧ ¬ ParsesExactly signedText := by
  have heuro : euroText = scheme ++ ['€', 'a'] := by decide
  refine ⟨not_parsesExactly_of_cuts ⟨['€', 'a'], heuro, by decide, [], ['€', 'a'], rfl, trivial, .inl (by decide)⟩,
    not_parsesExactly_of_signed ⟨_, rfl, by decide, radixPairs_signed 32, by decide⟩⟩

end Omoplata
